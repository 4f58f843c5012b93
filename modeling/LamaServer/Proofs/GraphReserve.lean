import LamaServer.Proofs.GraphAlloc
import Mathlib.Data.Fintype.Basic

/-!
# Reservations

A reservation keeps the places of the plan by the slots of its graph, and a graph is allocated by
the slots of the reservation.
-/

set_option linter.unusedSectionVars false

namespace LamaServer

open FreeList

variable {V Buft : Type} [DecidableEq V] [DecidableEq Buft] {B : BufferTypes Buft}
  {c c₁ c₂ : ComputeGraph V}

namespace ComputeGraph

variable (c)

/-- What a view is flattened to. -/
def root (t : V) : V := ((c.tensor t).viewSrc).getD t

/-- The tensor is in the graph, and so is its memory, with those `coming` left to run. -/
def Holds (coming : List V) (t : V) : Prop :=
  (t ∈ c.leafs ∨ t ∈ c.nodes) ∧ c.Present coming (c.root t)

/-- While `node` runs, `t` is written, or is still to be read, or is an output. -/
def Alive (node : V) (rest : List V) (t : V) : Prop :=
  c.Holds rest t ∧ (t = node ∧ (c.tensor node).op ≠ .none ∨ t ∈ c.reads (node :: rest) ∨
    (c.tensor t).output = true)

variable (B) (place : V → Option TensorAlloc)

/-- The memory of a tensor with a place. -/
def region (t : V) : Set (Buft × ℕ) :=
  {x | ∃ a, place t = some a ∧ x.1 = B.bufts a.bufferId.toNat ∧
    a.offset ≤ x.2 ∧ x.2 < a.offset + c.allocSize B x.1 t}

/-- `node` works in the place of a source that nobody needs behind it. -/
structure WorksInPlace (rest : List V) (parent node : V) : Prop where
  own : c.Own parent
  op : opCanInplace (c.tensor node).op = true
  src : parent ∈ c.srcs node
  layout : c.sameLayout node parent = true
  place : place node = place parent
  last : parent ∉ c.reads rest
  output : (c.tensor parent).output = false

/-- Tensors that are alive at the same time do not overlap, unless one is worked out in the place of
the other. -/
def LiveApart : Prop :=
  ∀ done node rest, c.nodes = done ++ node :: rest → ∀ t u, c.Alive node rest t →
    c.Alive node rest u → c.root t ≠ c.root u →
      Disjoint (c.region B place (c.root t)) (c.region B place (c.root u)) ∨
        c.root t = node ∧ c.WorksInPlace place rest u node ∨
        c.root u = node ∧ c.WorksInPlace place rest t node

/-- No node writes what is still to be read or is an output, and inputs and outputs have memory of
their own. -/
structure NoLiveOverlap : Prop where
  writes : ∀ done node rest, c.nodes = done ++ node :: rest → (c.tensor node).op ≠ .none →
    c.Own (c.root node) → ∀ t, c.Holds rest t → c.root t ≠ c.root node →
      t ∈ c.reads (node :: rest) ∨ (c.tensor t).output = true →
        Disjoint (c.region B place (c.root t)) (c.region B place (c.root node)) ∨
          c.WorksInPlace place rest t node
  inputs : ∀ t u, (c.tensor t).input = true → (c.tensor u).input = true → c.Holds [] t →
    c.Holds [] u → c.root t ≠ c.root u →
      Disjoint (c.region B place (c.root t)) (c.region B place (c.root u))
  outputs : ∀ t u, (c.tensor t).output = true → (c.tensor u).output = true → c.Holds [] t →
    c.Holds [] u → c.root t ≠ c.root u →
      Disjoint (c.region B place (c.root t)) (c.region B place (c.root u))

variable {c} {B} {place}

theorem root_of_view {t r : V} (h : (c.tensor t).viewSrc = some r) : c.root t = r := by
  simp [root, h]

theorem root_of_not_view {t : V} (h : (c.tensor t).viewSrc = none) : c.root t = t := by
  simp [root, h]

variable {done rest : List V} {node t u : V}

theorem Present.mem (h : c.Present rest t) : t ∈ c.leafs ∨ t ∈ c.nodes := h.2.imp_right And.left

theorem Ordered.not_view_of_root (hc : c.Ordered) (h : c.root t = u) :
    (c.tensor u).viewSrc = none := by
  rcases hv : (c.tensor t).viewSrc with _ | r
  · rw [root_of_not_view hv] at h
    rwa [← h]
  · rw [root_of_view hv] at h
    exact h ▸ hc.flat t r hv

/-- What keeps a tensor alive keeps its root. -/
theorem Alive.needed (hc : c.Ordered) (hl : c.LifetimesSeen) (hn : c.nodes = done ++ node :: rest)
    (h : c.Alive node rest t) : c.Needed (c.srcs node ++ c.reads rest) (c.root t) := by
  obtain ⟨⟨hmem, hp⟩, hwhy⟩ := h
  rcases hv : (c.tensor t).viewSrc with _ | r
  · rw [root_of_not_view hv] at hp ⊢
    rcases hwhy with ⟨rfl, -⟩ | hr | ho
    · exact (hc.needed_node hl hn hp.1).mono fun v hv => List.mem_append_right _ hv
    · exact .inl hr
    · exact .inr (.inr (.inl ho))
  · rw [root_of_view hv] at hp ⊢
    rcases hwhy with ⟨rfl, hop⟩ | hr | ho
    · have hct : c.Counted t r := ⟨hn ▸ List.mem_append_right _ List.mem_cons_self, hop, hv⟩
      rcases em (t ∈ c.reads c.nodes) with hr | hr
      · exact .inr (.inl ⟨t, hct, List.mem_append_right _
          (hc.mem_reads_rest hn hr fun d m r hd hs => hc.srcs d m r hd t hs)⟩)
      · exact .inr (.inr (.inr (.inl ⟨t, hct, hr⟩)))
    · rcases ho : (c.tensor r).output
      · refine .inr (.inl ⟨t, hl.views t ?_ r hv hp.1 ho, hr⟩)
        rw [hn, reads_append]
        exact List.mem_append_right _ hr
      · exact .inr (.inr (.inl ho))
    · exact .inr (.inr (hl.outputs t hmem ho r hv hp.1))

/-- A node of the graph is held when it runs. -/
theorem Ordered.holds_node (hc : c.Ordered) (hn : c.nodes = done ++ node :: rest)
    (ho : c.Own (c.root node)) : c.Holds rest node := by
  have hmem : node ∈ c.nodes := hn ▸ List.mem_append_right _ List.mem_cons_self
  refine ⟨.inr hmem, ho, ?_⟩
  rcases hv : (c.tensor node).viewSrc with _ | r
  · rw [root_of_not_view hv]
    exact .inr ⟨hmem, .inr (hc.notMem_rest hn).1⟩
  · rw [root_of_view hv] at ho ⊢
    rcases hc.views done node rest hn node (.inl rfl) r hv ho with hr | hr
    · exact .inl hr
    · refine .inr ⟨hn ▸ List.mem_append_left _ hr, .inr fun hm => ?_⟩
      exact (hc.notMem_rest hn).2.2.2 r hr (List.mem_cons_of_mem _ hm)

theorem LiveApart.noLiveOverlap (hc : c.Ordered) (h : c.LiveApart B place)
    (hin : ∀ t u, (c.tensor t).input = true → (c.tensor u).input = true → c.Holds [] t →
      c.Holds [] u → c.root t ≠ c.root u →
        Disjoint (c.region B place (c.root t)) (c.region B place (c.root u)))
    (hout : ∀ t u, (c.tensor t).output = true → (c.tensor u).output = true → c.Holds [] t →
      c.Holds [] u → c.root t ≠ c.root u →
        Disjoint (c.region B place (c.root t)) (c.region B place (c.root u))) :
    c.NoLiveOverlap B place := by
  refine ⟨fun done node rest hn hop ho t ht htn hwhy => ?_, hin, hout⟩
  rcases h done node rest hn t node ⟨ht, .inr hwhy⟩ ⟨hc.holds_node hn ho, .inl ⟨rfl, hop⟩⟩ htn with
    hd | ⟨htn', -⟩ | ⟨-, hp⟩
  · exact .inl hd
  · rw [htn', root_of_not_view (hc.not_view_of_root htn')] at htn
    exact absurd rfl htn
  · exact .inr hp

end ComputeGraph

namespace AllocPlan

variable {g : AllocPlan V Buft} {place : V → Option TensorAlloc} {done rest : List V} {node t u : V}

variable (B c) in
/-- The tensors of the graph have the places of the plan. -/
def Placed (g : AllocPlan V Buft) (place : V → Option TensorAlloc) : Prop :=
  ∀ t, t ∈ c.leafs ∨ t ∈ c.nodes → c.Own t → place t = some (g.tensorAlloc B c t)

theorem tensorAlloc_of_own (h : c.Own t) : g.tensorAlloc B c t =
    ⟨(g.loc t).1, (g.loc t).2, c.allocSize B (B.bufts (g.loc t).1) t⟩ := by
  rw [tensorAlloc, if_pos (ComputeGraph.isOwn_iff.2 h)]
  rfl

theorem Placed.region_subset (h : Placed B c g place) {coming : List V}
    (ht : c.Present coming t) : c.region B place t ⊆ g.memory B c t := by
  rintro ⟨b, x⟩ ⟨a, ha, hb, hlo, hhi⟩
  rw [h t ht.mem ht.1, tensorAlloc_of_own ht.1, Option.some.injEq] at ha
  subst ha
  dsimp only at hb hlo hhi
  rw [Int.toNat_natCast] at hb
  subst hb
  exact ⟨rfl, hlo, hhi.trans_le (Nat.add_le_add_left le_alignedOffset _)⟩

/-- What works in place in the plan does so in the graph. -/
theorem InPlace.worksInPlace (hl : c.LifetimesSeen) (hn : c.nodes = done ++ node :: rest)
    (hg : Placed B c g place) (h : InPlace c g rest (c.root u) node) (hu : c.Alive node rest u)
    (hnode : c.Present rest node) (hun : c.root u ≠ node) : c.WorksInPlace place rest u node := by
  have hpin : ¬ c.Pinned (c.root u) := fun hp => h.last (.inr (.inr hp))
  have hout : (c.tensor (c.root u)).output = false := by
    by_contra ho
    exact hpin (.inl (by simpa using ho))
  have hp := hu.1.2
  have hroot : c.root u = u := by
    rcases hv : (c.tensor u).viewSrc with _ | r
    · exact ComputeGraph.root_of_not_view hv
    -- a view of what is lent would have been counted
    · rw [ComputeGraph.root_of_view hv] at h hp hpin hout
      rcases hu.2 with ⟨rfl, -⟩ | hr | ho
      · exact absurd (hnode.1.1.symm.trans hv) (by simp)
      · have hcounted : c.Counted u r := by
          refine hl.views u ?_ r hv hp.1 hout
          rw [hn, ComputeGraph.reads_append]
          exact List.mem_append_right _ hr
        rcases List.mem_append.1 hr with hr | hr
        · exact absurd hcounted (h.views u hr)
        · exact absurd (.inr (.inl ⟨u, hcounted, hr⟩)) h.last
      · exact absurd (hl.outputs u hu.1.1 ho r hv hp.1) hpin
  rw [hroot] at h hp hout
  refine ⟨hp.1, h.op, h.src, h.layout, ?_, fun hm => h.last (.inl hm), hout⟩
  rw [hg node hnode.mem hnode.1, hg u hp.mem hp.1,
    tensorAlloc_of_own hnode.1, tensorAlloc_of_own hp.1, h.loc]
  simp only [ComputeGraph.allocSize, ComputeGraph.sameLayout_iff.1 h.layout]

/-- What is alive at the same time is apart where the plan puts it. -/
theorem Placed.liveApart (hc : c.Ordered) (hl : c.LifetimesSeen) (hg : Placed B c g place)
    (h : ∀ d node rest, c.nodes = d ++ node :: rest → StepApart B c g node rest) :
    c.LiveApart B place := by
  intro done node rest hn t u ht hu htu
  have hpt := ht.1.2
  have hpu := hu.1.2
  rcases h done node rest hn _ _ hpt hpu htu (ht.needed hc hl hn) (hu.needed hc hl hn) with
    hd | ⟨htn, hp⟩ | ⟨hun, hp⟩
  · exact .inl (hd.mono (hg.region_subset hpt) (hg.region_subset hpu))
  · exact .inr (.inl ⟨htn, hp.worksInPlace hl hn hg hu (htn ▸ hpt) fun hun =>
      htu (htn.trans hun.symm)⟩)
  · exact .inr (.inr ⟨hun, hp.worksInPlace hl hn hg ht (hun ▸ hpu) fun htn =>
      htu (htn.trans hun.symm)⟩)

/-- An input has memory from the start. -/
theorem present_of_input (hl : c.LifetimesSeen) (h : c.Holds [] t)
    (ht : (c.tensor t).input = true) : c.Present c.nodes (c.root t) := by
  obtain ⟨hmem, hp⟩ := h
  rcases hv : (c.tensor t).viewSrc with _ | r
  · rw [ComputeGraph.root_of_not_view hv] at hp ⊢
    exact ⟨hp.1, hp.2.imp_right fun hm => ⟨hm.1, .inl ht⟩⟩
  · rw [ComputeGraph.root_of_view hv] at hp ⊢
    rcases hl.inputViews t hmem ht r hv hp.1 with hr | hr
    · exact ⟨hp.1, .inl hr⟩
    · exact ⟨hp.1, hp.2.imp_right fun hm => ⟨hm.1, .inl hr⟩⟩

/-- The root of an output is pinned. -/
theorem pinned_of_output (hl : c.LifetimesSeen) (h : c.Holds [] t)
    (ht : (c.tensor t).output = true) : c.Pinned (c.root t) := by
  obtain ⟨hmem, hp⟩ := h
  rcases hv : (c.tensor t).viewSrc with _ | r
  · rw [ComputeGraph.root_of_not_view hv]
    exact .inl ht
  · rw [ComputeGraph.root_of_view hv] at hp ⊢
    exact hl.outputs t hmem ht r hv hp.1

/-- A plan that has run leaves no overlap, wherever its places are kept. -/
theorem noLiveOverlap (hc : c.Ordered) (hl : c.LifetimesSeen) {nodeIds leafIds : Option (ℕ → ℤ)}
    (h : allocGraphImpl B c nodeIds leafIds = some g) (hg : Placed B c g place) :
    c.LiveApart B place ∧ c.NoLiveOverlap B place := by
  obtain ⟨hinv, hstart, hsteps⟩ := allocGraphImpl_spec (S := Set.univ) hc hl
    (fun _ => Set.mem_univ _) (fun _ => Set.mem_univ _) h
  have hlive := hg.liveApart hc hl hsteps
  refine ⟨hlive, hlive.noLiveOverlap hc (fun t u ht hu htm hum htu => ?_)
    fun t u ht hu htm hum htu => ?_⟩
  · exact (hstart _ _ (present_of_input hl htm ht) (present_of_input hl hum hu) htu).mono
      (hg.region_subset htm.2) (hg.region_subset hum.2)
  · have hkept : ∀ t, (c.tensor t).output = true → c.Holds [] t → c.root t ∈ g.held :=
      fun t ht htm => hinv.kept _ htm.2 (.inr (.inr (pinned_of_output hl htm ht)))
        (Set.notMem_empty _)
    exact (hinv.sound.account.apart _ (hkept t ht htm) _ (hkept u hu hum) htu).mono
      (hg.region_subset htm.2) (hg.region_subset hum.2)

end AllocPlan

namespace ComputeGraph

/-- The tensors of the slots of a graph. -/
def slotTensors (c : ComputeGraph V) : List V := c.leafs ++ c.nodes.flatMap fun n => c.srcs n ++ [n]

theorem mem_slotTensors {t : V} (h : t ∈ c.leafs ∨ t ∈ c.nodes) : t ∈ c.slotTensors := by
  rcases h with h | h
  · exact List.mem_append_left _ h
  · exact List.mem_append_right _ (List.mem_flatMap.2 ⟨t, h, by simp⟩)

/-- What a node reads is in the graph. -/
theorem Ordered.mem_of_src (hc : c.Ordered) {n s : V} (hn : n ∈ c.nodes) (hs : s ∈ c.srcs n) :
    s ∈ c.leafs ∨ s ∈ c.nodes := by
  obtain ⟨done, rest, hd⟩ := List.append_of_mem hn
  exact (hc.srcs done n rest hd s hs).imp_right fun h => hd ▸ List.mem_append_left _ h

theorem Ordered.mem_of_slotTensors (hc : c.Ordered) {t : V} (h : t ∈ c.slotTensors) :
    t ∈ c.leafs ∨ t ∈ c.nodes := by
  rcases List.mem_append.1 h with h | h
  · exact .inl h
  · obtain ⟨n, hn, ht⟩ := List.mem_flatMap.1 h
    rcases List.mem_append.1 ht with ht | ht
    · exact hc.mem_of_src hn ht
    · exact .inr (List.mem_singleton.1 ht ▸ hn)

end ComputeGraph

namespace Galloc

variable {g g' : Galloc} {plan : AllocPlan V Buft} {t : V}

/-- The slots of a graph that corresponds to the one that was reserved. -/
theorem slots_eq {f : V → V} (hleafs : c₁.leafs = c₂.leafs.map f)
    (hnodes : c₁.nodes = c₂.nodes.map f)
    (hsrc : ∀ n ∈ c₂.nodes, ∀ j, (c₁.tensor (f n)).src j = ((c₂.tensor n).src j).map f)
    (buffers : ℕ → Option ℕ) :
    (Galloc.mk (c₁.nodes.map (plan.nodeAlloc B c₁)) (c₁.leafs.map (plan.tensorAlloc B c₁))
      buffers).slots c₂ = c₂.slotTensors.map fun t => (t, plan.tensorAlloc B c₁ (f t)) := by
  rw [slots, hleafs, hnodes, List.map_map, List.map_map]
  dsimp only
  rw [← List.map_prod_left_eq_zip, ← List.map_prod_left_eq_zip, ComputeGraph.slotTensors,
    List.map_append, List.map_flatMap, List.flatMap_map]
  refine congrArg _ (List.flatMap_congr fun n hn => ?_)
  rw [List.map_append, ComputeGraph.srcs, List.map_filterMap]
  refine congrArg (· ++ _) (List.filterMap_congr fun j _ => ?_)
  rcases hj : (c₂.tensor n).src j with _ | s
  · rfl
  · simp [AllocPlan.nodeAlloc, hsrc n hn, hj]

theorem slots_reserve (buffers : ℕ → Option ℕ) :
    (Galloc.mk (c.nodes.map (plan.nodeAlloc B c)) (c.leafs.map (plan.tensorAlloc B c))
      buffers).slots c = c.slotTensors.map fun t => (t, plan.tensorAlloc B c t) :=
  slots_eq (f := id) (List.map_id _).symm (List.map_id _).symm (fun _ _ _ => by simp) buffers

theorem place_reserve (buffers : ℕ → Option ℕ) :
    plan.Placed B c ((Galloc.mk (c.nodes.map (plan.nodeAlloc B c))
      (c.leafs.map (plan.tensorAlloc B c)) buffers).place c) := by
  intro t ht _
  have hmem := ComputeGraph.mem_slotTensors ht
  rw [place, slots_reserve, List.find?_map, Option.map_map]
  rcases hf : c.slotTensors.find? ((fun s => decide (s.1 = t)) ∘
    fun t => (t, plan.tensorAlloc B c t)) with _ | u
  · have hno := List.find?_eq_none.1 hf t hmem
    simp at hno
  · obtain rfl : u = t := by simpa using List.find?_some hf
    rw [hf]
    rfl

theorem reserveN_spec {nodeIds leafIds : Option (ℕ → ℤ)} {ok : Bool}
    (h : g.reserveN B c nodeIds leafIds = some (g', ok)) :
    ∃ plan buffers, AllocPlan.allocGraphImpl B c nodeIds leafIds = some plan ∧
      plan.reserveBuffers B g.buffers (List.range B.nBuffers) = (buffers, ok) ∧
      g' = ⟨c.nodes.map (plan.nodeAlloc B c), c.leafs.map (plan.tensorAlloc B c), buffers⟩ := by
  simp only [reserveN, Option.bind_eq_bind, Option.bind_eq_some_iff, Option.some.injEq,
    Prod.mk.injEq] at h
  obtain ⟨plan, hplan, rfl, rfl⟩ := h
  exact ⟨plan, _, hplan, rfl, rfl⟩

end Galloc

namespace ComputeGraph

theorem forall_split {l : List V} {P : List V → V → List V → Prop}
    (h : ∀ i, (hi : i < l.length) → P (l.take i) l[i] (l.drop (i + 1))) (done : List V) (node : V)
    (rest : List V) (hl : l = done ++ node :: rest) : P done node rest := by
  subst hl
  simpa using h done.length (by simp)

instance {t : V} : Decidable (c.Own t) := inferInstanceAs (Decidable (_ ∧ _))

instance {v r : V} : Decidable (c.Counted v r) := inferInstanceAs (Decidable (_ ∧ _ ∧ _))

instance [Fintype V] {r : V} : Decidable (c.Pinned r) := inferInstanceAs (Decidable (_ ∨ _ ∨ _))

instance {coming : List V} {t : V} : Decidable (c.Present coming t) :=
  inferInstanceAs (Decidable (_ ∧ _))

end ComputeGraph

attribute [local instance] neZero_ggmlMaxSrc

/-- An input, two tensors computed from it with a view between them, and what is computed last. The
view is an output when `out` says so. -/
def viewGraph (out : Bool) : ComputeGraph (Fin 6) where
  tensor
    | 0 => { op := .none, layout := ⟨0, 1, 1⟩, src := fun _ => none, input := true }
    | 1 => { op := .other 0, layout := ⟨0, 1, 1⟩, src := fun j => if j = 0 then some 0 else none }
    | 2 => { op := .other 1, layout := ⟨0, 1, 1⟩, src := fun j => if j = 0 then some 1 else none,
             viewSrc := some 1, output := out }
    | 3 => { op := .other 0, layout := ⟨0, 1, 1⟩, src := fun j => if j = 0 then some 2 else none }
    | 4 => { op := .scale, layout := ⟨0, 1, 1⟩, src := fun j => if j = 0 then some 3 else none }
    | 5 => { op := .other 0, layout := ⟨0, 1, 1⟩, src := fun j => if j = 0 then some 4 else none,
             output := true }
  nodes := [1, 2, 3, 4, 5]
  leafs := [0]

/-- One buffer, in which each tensor needs 32 bytes. -/
def oneBuffer : BufferTypes Unit where
  bufts _ := ()
  nBuffers := 1
  alignment _ := 32
  allocSize _ _ := 32
  allocBuffer _ size := some ⟨size, le_rfl⟩

set_option synthInstance.maxSize 512 in
theorem viewGraph_ordered {out : Bool} : (viewGraph out).Ordered where
  nodup := by cases out <;> decide
  leafs := by cases out <;> decide
  flat := by cases out <;> decide
  srcs := ComputeGraph.forall_split (by cases out <;> decide)
  views := ComputeGraph.forall_split (by cases out <;> decide)

namespace Galloc

end Galloc

end LamaServer
