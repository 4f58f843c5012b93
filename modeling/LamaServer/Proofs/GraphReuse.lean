import LamaServer.Proofs.GraphReserve

/-!
# Reusing a reservation

A graph may be allocated by the reservation of another. Whether that is needed anew is told by the
numbers of the slots and by what the tensors in them need, and not by which tensors these are.
-/

set_option linter.unusedSectionVars false

namespace LamaServer

open FreeList

variable {V Buft : Type} [DecidableEq V] [DecidableEq Buft] {B : BufferTypes Buft}
  {c c₁ c₂ : ComputeGraph V} {f : V → V}

namespace ComputeGraph

/-- The tensor is in the graph. -/
def Has (c : ComputeGraph V) (t : V) : Prop := t ∈ c.leafs ∨ t ∈ c.nodes

/-- `c₂` has the topology of `c₁`: `f` takes the slots of the one to those of the other, and with
them what the places in a plan depend on. A leaf, whose slot is not compared, needs no more. -/
structure SameTopology (B : BufferTypes Buft) (f : V → V) (c₁ c₂ : ComputeGraph V) : Prop where
  nodes : c₁.nodes = c₂.nodes.map f
  leafs : c₁.leafs = c₂.leafs.map f
  inj : ∀ t u, c₂.Has t → c₂.Has u → f t = f u → t = u
  src : ∀ n ∈ c₂.nodes, ∀ j, (c₁.tensor (f n)).src j = ((c₂.tensor n).src j).map f
  viewSrc : ∀ t, c₂.Has t → (c₁.tensor (f t)).viewSrc = ((c₂.tensor t).viewSrc).map f
  own : ∀ t, c₂.Has t → c₂.Own t → c₁.Own (f t)
  input : ∀ t, c₂.Has t → (c₁.tensor (f t)).input = (c₂.tensor t).input
  output : ∀ t, c₂.Has t → (c₁.tensor (f t)).output = (c₂.tensor t).output
  none : ∀ t, c₂.Has t → ((c₁.tensor (f t)).op = .none ↔ (c₂.tensor t).op = .none)
  inplace : ∀ n ∈ c₂.nodes,
    opCanInplace (c₁.tensor (f n)).op = opCanInplace (c₂.tensor n).op
  layout : ∀ n ∈ c₂.nodes, ∀ p ∈ c₂.srcs n, c₁.sameLayout (f n) (f p) = true →
    c₂.sameLayout n p = true
  leafSize : ∀ t ∈ c₂.leafs, c₂.Own t → ∀ buft, c₂.allocSize B buft t ≤ c₁.allocSize B buft (f t)

variable {place place₁ place₂ : V → Option TensorAlloc} {done rest ns : List V} {node t u : V}

theorem SameTopology.srcs (h : SameTopology B f c₁ c₂) (hn : node ∈ c₂.nodes) :
    c₁.srcs (f node) = (c₂.srcs node).map f := by
  rw [ComputeGraph.srcs, ComputeGraph.srcs, List.map_filterMap]
  exact List.filterMap_congr fun j _ => h.src node hn j

theorem SameTopology.reads (h : SameTopology B f c₁ c₂) (hn : ∀ n ∈ ns, n ∈ c₂.nodes) :
    c₁.reads (ns.map f) = (c₂.reads ns).map f := by
  rw [ComputeGraph.reads, ComputeGraph.reads, List.flatMap_map, List.map_flatMap]
  exact List.flatMap_congr fun n hm => h.srcs (hn n hm)

theorem SameTopology.root (h : SameTopology B f c₁ c₂) (ht : c₂.Has t) :
    c₁.root (f t) = f (c₂.root t) := by
  rw [ComputeGraph.root, ComputeGraph.root, h.viewSrc t ht]
  rcases (c₂.tensor t).viewSrc with _ | r <;> rfl

theorem SameTopology.has (h : SameTopology B f c₁ c₂) (ht : c₂.Has t) :
    f t ∈ c₁.leafs ∨ f t ∈ c₁.nodes := by
  rw [h.leafs, h.nodes]
  exact ht.imp (List.mem_map_of_mem ·) (List.mem_map_of_mem ·)

theorem SameTopology.mem_map (h : SameTopology B f c₁ c₂) (hn : ∀ n ∈ ns, c₂.Has n)
    (ht : c₂.Has t) : f t ∈ ns.map f ↔ t ∈ ns := by
  refine ⟨fun hm => ?_, List.mem_map_of_mem⟩
  obtain ⟨u, hu, huf⟩ := List.mem_map.1 hm
  exact h.inj u t (hn u hu) ht huf ▸ hu

/-- What is alive in the one graph is so in the other. -/
theorem SameTopology.alive (h : SameTopology B f c₁ c₂) (hn : ∀ n ∈ node :: rest, n ∈ c₂.nodes)
    (ht : c₂.Alive node rest t) : c₁.Alive (f node) (rest.map f) (f t) := by
  obtain ⟨⟨hmem, hp⟩, hwhy⟩ := ht
  have hr : c₂.Has (c₂.root t) := hp.mem
  refine ⟨⟨h.has hmem, ?_⟩, ?_⟩
  · rw [h.root hmem]
    refine ⟨h.own _ hr hp.1, ?_⟩
    rw [h.leafs, h.nodes, h.input _ hr]
    refine hp.2.imp (List.mem_map_of_mem ·) fun hm => ⟨List.mem_map_of_mem hm.1, hm.2.imp_right ?_⟩
    exact mt (h.mem_map (fun n hm => .inr (hn n (List.mem_cons_of_mem _ hm))) hr).1
  · rcases hwhy with ⟨rfl, hop⟩ | hread | hout
    · exact .inl ⟨rfl, mt (h.none t hmem).1 hop⟩
    · refine .inr (.inl ?_)
      rw [← List.map_cons, h.reads hn]
      exact List.mem_map_of_mem hread
    · exact .inr (.inr ((h.output t hmem).trans hout))

theorem SameTopology.worksInPlace (h : SameTopology B f c₁ c₂) (hc : c₂.Ordered)
    (hn : ∀ n ∈ node :: rest, n ∈ c₂.nodes) (hu : c₂.Has u) (ho : c₂.Own node)
    (hou : c₂.Own (c₂.root u)) (hplace : ∀ t, c₂.Has t → c₂.Own t → place₂ t = place₁ (f t))
    (hp : c₁.WorksInPlace place₁ (rest.map f) (f u) (f node)) :
    c₂.WorksInPlace place₂ rest u node := by
  have hnode := hn node List.mem_cons_self
  have hsrc : u ∈ c₂.srcs node := by
    have hm := hp.src
    rw [h.srcs hnode] at hm
    exact (h.mem_map (fun s hs => hc.mem_of_src hnode hs) hu).1 hm
  have hown : c₂.Own u := by
    have hv := hp.own.1
    rw [h.viewSrc u hu, Option.map_eq_none_iff] at hv
    rwa [root_of_not_view hv] at hou
  refine ⟨hown, (h.inplace node hnode).symm.trans hp.op, hsrc,
    h.layout node hnode u hsrc hp.layout, ?_, fun hm => hp.last ?_,
    (h.output u hu).symm.trans hp.output⟩
  · rw [hplace node (.inr hnode) ho, hplace u hu hown, hp.place]
  · rw [h.reads fun n hm => hn n (List.mem_cons_of_mem _ hm)]
    exact List.mem_map_of_mem hm

/-- The places of a graph serve another of the same topology that needs no more. -/
theorem SameTopology.liveApart (h : SameTopology B f c₁ c₂) (hc : c₂.Ordered)
    (hl : c₁.LiveApart B place₁) (hplace : ∀ t, c₂.Has t → c₂.Own t → place₂ t = place₁ (f t))
    (hsize : ∀ t, c₂.Has t → c₂.Own t → ∀ a, place₂ t = some a →
      c₂.allocSize B (B.bufts a.bufferId.toNat) t ≤
        c₁.allocSize B (B.bufts a.bufferId.toNat) (f t)) :
    c₂.LiveApart B place₂ := by
  intro done node rest hn t u ht hu htu
  have hnodes : ∀ n ∈ node :: rest, n ∈ c₂.nodes := fun n hm => hn ▸ List.mem_append_right _ hm
  have hregion : ∀ t, c₂.Has t → c₂.Own t →
      c₂.region B place₂ t ⊆ c₁.region B place₁ (f t) := by
    rintro t ht ho ⟨b, x⟩ ⟨a, ha, hb, hlo, hhi⟩
    have hle := hsize t ht ho a ha
    dsimp only at hb hlo hhi
    subst hb
    exact ⟨a, (hplace t ht ho).symm.trans ha, rfl, hlo, hhi.trans_le (Nat.add_le_add_left hle _)⟩
  have hrt := ht.1.2.mem
  have hru := hu.1.2.mem
  have hrt' := h.root ht.1.1
  have hru' := h.root hu.1.1
  have hne : c₁.root (f t) ≠ c₁.root (f u) := by
    rw [hrt', hru']
    exact fun he => htu (h.inj _ _ hrt hru he)
  have hsplit : c₁.nodes = done.map f ++ f node :: rest.map f := by
    rw [h.nodes, hn, List.map_append, List.map_cons]
  have hown : ∀ t u, c₂.Alive node rest t → c₂.Alive node rest u → c₁.root (f t) = f node →
      c₁.WorksInPlace place₁ (rest.map f) (f u) (f node) →
        c₂.root t = node ∧ c₂.WorksInPlace place₂ rest u node := by
    intro t u ht hu htn hp
    rw [h.root ht.1.1] at htn
    have hroot := h.inj _ _ ht.1.2.mem (.inr (hnodes node List.mem_cons_self)) htn
    exact ⟨hroot, h.worksInPlace hc hnodes hu.1.1 (hroot ▸ ht.1.2.1) hu.1.2.1 hplace hp⟩
  rcases hl _ _ _ hsplit _ _ (h.alive hnodes ht) (h.alive hnodes hu) hne with
    hd | ⟨htn, hp⟩ | ⟨hun, hp⟩
  · rw [hrt', hru'] at hd
    exact .inl (hd.mono (hregion _ hrt ht.1.2.1) (hregion _ hru hu.1.2.1))
  · exact .inr (.inl (hown t u ht hu htn hp))
  · exact .inr (.inr (hown u t hu ht hun hp))

end ComputeGraph

namespace Galloc

variable {g g₁ g₂ : Galloc} {plan : AllocPlan V Buft} {place : V → Option TensorAlloc} {t : V}

variable (B c) in
/-- Every tensor with memory of its own lies in a buffer. -/
def Inside (g : Galloc) (place : V → Option TensorAlloc) : Prop :=
  ∀ t, c.Has t → c.Own t → ∃ a n, place t = some a ∧ g.buffers a.bufferId.toNat = some n ∧
    a.offset + c.allocSize B (B.bufts a.bufferId.toNat) t ≤ n

variable (B c) in
/-- A slot in which `t` can be initialized. -/
def Fits (g : Galloc) (t : V) (a : TensorAlloc) : Prop :=
  0 ≤ a.bufferId ∧ ∃ n, g.buffers a.bufferId.toNat = some n ∧
    a.offset + c.allocSize B (B.bufts a.bufferId.toNat) t ≤ n

/-- The slots are filled, each tensor in its first one. -/
theorem initTensors {h : V → TensorAlloc} (ts : List V)
    (hts : ∀ t ∈ ts, c.Own t → g.Fits B c t (h t)) (place : V → Option TensorAlloc)
    (hplace : ∀ t, place t = none ∨ place t = some (h t)) :
    ∃ place', (ts.map fun t => (t, h t)).foldlM (g.initTensor B c) place = some place' ∧
      (∀ t, place' t = none ∨ place' t = some (h t)) ∧
      ∀ t, place t = some (h t) ∨ t ∈ ts ∧ c.Own t → place' t = some (h t) := by
  induction ts generalizing place with
  | nil => exact ⟨place, rfl, hplace, fun t ht => ht.resolve_right fun h => by simp at h⟩
  | cons t ts ih =>
    have hstep : ∃ p₁, g.initTensor B c place (t, h t) = some p₁ ∧
        (∀ u, p₁ u = none ∨ p₁ u = some (h u)) ∧
        ∀ u, place u = some (h u) ∨ u = t ∧ c.Own u → p₁ u = some (h u) := by
      unfold initTensor
      rcases em (c.isOwn t = true ∧ place t = none) with hcond | hcond
      · obtain ⟨hid, n, hn, hle⟩ := hts t List.mem_cons_self (ComputeGraph.isOwn_iff.1 hcond.1)
        rw [if_pos hcond, if_neg (not_lt.2 hid)]
        simp only [hn, Option.bind_eq_bind, Option.bind_some, if_pos hle]
        refine ⟨_, rfl, fun u => ?_, fun u hu => ?_⟩
        · rcases eq_or_ne u t with rfl | hut
          · exact .inr (Function.update_self ..)
          · rw [Function.update_of_ne hut]
            exact hplace u
        · rcases eq_or_ne u t with rfl | hut
          · exact Function.update_self ..
          · rw [Function.update_of_ne hut]
            exact hu.resolve_right fun h => hut h.1
      · rw [if_neg hcond]
        refine ⟨place, rfl, hplace, fun u hu => ?_⟩
        rcases hu with hu | ⟨rfl, ho⟩
        · exact hu
        · exact (hplace u).resolve_left fun hnone => hcond ⟨ComputeGraph.isOwn_iff.2 ho, hnone⟩
    obtain ⟨p₁, hp₁, hor₁, hset₁⟩ := hstep
    obtain ⟨p₂, hp₂, hor₂, hset₂⟩ := ih (fun u hu => hts u (List.mem_cons_of_mem _ hu)) p₁ hor₁
    refine ⟨p₂, ?_, hor₂, fun u hu => hset₂ u ?_⟩
    · rw [List.map_cons, List.foldlM_cons, hp₁]
      exact hp₂
    · rcases hu with hu | ⟨hm, ho⟩
      · exact .inl (hset₁ u (.inl hu))
      · rcases List.mem_cons.1 hm with rfl | hm
        · exact .inl (hset₁ u (.inr ⟨rfl, ho⟩))
        · exact .inr ⟨hm, ho⟩

/-- The one buffer holds what the plan needs. -/
theorem reserveBuffers_single {buffers buffers' : ℕ → Option ℕ}
    (h : plan.reserveBuffers B buffers (List.range 1) = (buffers', true)) :
    ∃ n, buffers' 0 = some n ∧ (plan.tallocs (B.bufts 0)).maxSize ≤ n := by
  rw [List.range_one, AllocPlan.reserveBuffers] at h
  rw [show AllocPlan.sharedBuffer B buffers 0 = buffers from rfl] at h
  rcases em ((buffers 0).getD 0 < (plan.tallocs (B.bufts 0)).maxSize ∨ buffers 0 = none) with
    hgrow | hgrow
  · rw [if_pos hgrow] at h
    split at h
    · rename_i n hn
      obtain ⟨rfl, -⟩ := Prod.mk.inj h
      exact ⟨n.1, Function.update_self .., n.2⟩
    · simp at h
  · rw [if_neg hgrow] at h
    obtain ⟨rfl, -⟩ := Prod.mk.inj h
    push Not at hgrow
    obtain ⟨n, hn⟩ := Option.ne_none_iff_exists'.1 hgrow.2
    rw [hn] at hgrow
    exact ⟨n, hn, hgrow.1⟩

/-- A reservation in one buffer: its plan, and room for each of its tensors. -/
theorem reserve_spec (hc : c.Ordered) (hl : c.LifetimesSeen) (hB : B.nBuffers = 1)
    (h : g.reserve B c = some (g₁, true)) :
    ∃ plan, AllocPlan.allocGraphImpl B c none none = some plan ∧
      g₁ = ⟨c.nodes.map (plan.nodeAlloc B c), c.leafs.map (plan.tensorAlloc B c), g₁.buffers⟩ ∧
      ∀ t, c.Has t → c.Own t → (plan.tensorAlloc B c t).bufferId = 0 ∧
        g₁.Fits B c t (plan.tensorAlloc B c t) := by
  obtain ⟨plan, buffers, hplan, hbuffers, rfl⟩ := reserveN_spec h
  rw [hB] at hbuffers
  obtain ⟨n, hn, hle⟩ := reserveBuffers_single hbuffers
  obtain ⟨hinv, -, -⟩ := AllocPlan.allocGraphImpl_spec (S := {0}) hc hl
    (fun _ => Set.mem_singleton 0) (fun _ => Set.mem_singleton 0) hplan
  refine ⟨plan, hplan, rfl, fun t ht ho => ?_⟩
  obtain ⟨hzero, hwithin⟩ := hinv.within t ⟨ho, ht.imp_right fun h => ⟨h, .inr (by simp)⟩⟩
  rw [AllocPlan.tensorAlloc_of_own ho]
  have hid : (plan.loc t).1 = 0 := hzero
  simp only [AllocPlan.block, hid] at hwithin ⊢
  refine ⟨rfl, le_rfl, n, hn, ?_⟩
  exact (Nat.add_le_add_left le_alignedOffset _).trans (hwithin.trans hle)

theorem inside_of_fits {h : V → TensorAlloc}
    (hplace : ∀ t, c.Has t → c.Own t → place t = some (h t))
    (hfits : ∀ t, c.Has t → c.Own t → g.Fits B c t (h t)) : g.Inside B c place := by
  intro t ht ho
  obtain ⟨-, n, hn, hle⟩ := hfits t ht ho
  exact ⟨h t, n, hplace t ht ho, hn, hle⟩

/-- The slots of a reservation take its own graph. -/
theorem init_reserved (hc : c.Ordered) (hl : c.LifetimesSeen) (hB : B.nBuffers = 1)
    (h : g.reserve B c = some (g₁, true)) :
    ∃ place, (g₁.slots c).foldlM (g₁.initTensor B c) (fun _ => none) = some place ∧
      c.LiveApart B place ∧ g₁.Inside B c place := by
  obtain ⟨plan, hplan, hg, hfits⟩ := reserve_spec hc hl hB h
  have hslots : g₁.slots c = c.slotTensors.map fun t => (t, plan.tensorAlloc B c t) := by
    rw [hg]
    exact slots_reserve g₁.buffers
  obtain ⟨place, hfold, -, hset⟩ := initTensors (g := g₁) (h := plan.tensorAlloc B c)
    c.slotTensors (fun t ht ho => (hfits t (hc.mem_of_slotTensors ht) ho).2)
    (fun _ => none) (fun _ => .inl rfl)
  have hplace : ∀ t, c.Has t → c.Own t → place t = some (plan.tensorAlloc B c t) :=
    fun t ht ho => hset t (.inr ⟨ComputeGraph.mem_slotTensors ht, ho⟩)
  refine ⟨place, hslots ▸ hfold, (AllocPlan.noLiveOverlap hc hl hplan hplace).1,
    inside_of_fits hplace fun t ht ho => (hfits t ht ho).2⟩

/-- What `needsRealloc` has compared when it finds that the reservation serves. -/
theorem size_of_not_needsRealloc {f : V → V} (ht : ComputeGraph.SameTopology B f c₁ c₂)
    {buffers : ℕ → Option ℕ}
    (h : (Galloc.mk (c₁.nodes.map (plan.nodeAlloc B c₁)) (c₁.leafs.map (plan.tensorAlloc B c₁))
      buffers).needsRealloc B c₂ = false) (htm : c₂.Has t) (hto : c₂.Own t) :
    c₂.allocSize B (B.bufts (plan.loc (f t)).1) t ≤
      c₁.allocSize B (B.bufts (plan.loc (f t)).1) (f t) := by
  rcases htm with hleaf | hnode
  · exact ht.leafSize t hleaf hto _
  · have hfo := ht.own t (.inr hnode) hto
    unfold needsRealloc at h
    rw [if_neg (by simp [ht.nodes]), if_neg (by simp [ht.leafs])] at h
    dsimp only at h
    rw [ht.nodes, List.map_map, ← List.map_prod_left_eq_zip, List.any_map, List.any_eq_false] at h
    have hdst := h t hnode
    simp only [Function.comp_apply, Bool.or_eq_true, not_or] at hdst
    have hfit := hdst.1
    simp only [AllocPlan.nodeAlloc, AllocPlan.tensorAlloc_of_own hfo, nodeNeedsRealloc,
      if_pos (ComputeGraph.isOwn_iff.2 hto), if_neg (not_lt.2 (Int.natCast_nonneg _)),
      Int.toNat_natCast] at hfit
    simpa using hfit

/-- A graph of the same topology takes the slots that are there. -/
theorem init_reused {f : V → V} (hc₁ : c₁.Ordered) (hc₂ : c₂.Ordered) (hl : c₁.LifetimesSeen)
    (hB : B.nBuffers = 1) (h : g.reserve B c₁ = some (g₁, true))
    (ht : ComputeGraph.SameTopology B f c₁ c₂) (hn : g₁.needsRealloc B c₂ = false) :
    ∃ place, (g₁.slots c₂).foldlM (g₁.initTensor B c₂) (fun _ => none) = some place ∧
      c₂.LiveApart B place ∧ g₁.Inside B c₂ place := by
  obtain ⟨plan, hplan, hg, hfits⟩ := reserve_spec hc₁ hl hB h
  have hslots : g₁.slots c₂ =
      c₂.slotTensors.map fun t => (t, plan.tensorAlloc B c₁ (f t)) := by
    rw [hg]
    exact slots_eq ht.leafs ht.nodes ht.src g₁.buffers
  have hsize : ∀ t, c₂.Has t → c₂.Own t → c₂.allocSize B (B.bufts (plan.loc (f t)).1) t ≤
      c₁.allocSize B (B.bufts (plan.loc (f t)).1) (f t) := fun t htm hto =>
    size_of_not_needsRealloc ht (hg ▸ hn) htm hto
  have hfits₂ : ∀ t, c₂.Has t → c₂.Own t → g₁.Fits B c₂ t (plan.tensorAlloc B c₁ (f t)) := by
    intro t htm hto
    have hfo := ht.own t htm hto
    obtain ⟨-, hid, n, hn, hle⟩ := hfits (f t) (ht.has htm) hfo
    have hs := hsize t htm hto
    rw [AllocPlan.tensorAlloc_of_own hfo] at hid hn hle ⊢
    rw [Int.toNat_natCast] at hle
    refine ⟨hid, n, hn, ?_⟩
    rw [Int.toNat_natCast]
    exact (Nat.add_le_add_left hs _).trans hle
  obtain ⟨place, hfold, -, hset⟩ := initTensors (g := g₁)
    (h := fun t => plan.tensorAlloc B c₁ (f t)) c₂.slotTensors
    (fun t htm hto => hfits₂ t (hc₂.mem_of_slotTensors htm) hto)
    (fun _ => none) (fun _ => .inl rfl)
  have hplace : ∀ t, c₂.Has t → c₂.Own t → place t = some (plan.tensorAlloc B c₁ (f t)) :=
    fun t htm hto => hset t (.inr ⟨ComputeGraph.mem_slotTensors htm, hto⟩)
  have hlive := (AllocPlan.noLiveOverlap hc₁ hl hplan (place_reserve g₁.buffers)).1
  refine ⟨place, hslots ▸ hfold, ht.liveApart hc₂ hlive (fun t htm hto => ?_)
    (fun t htm hto a ha => ?_), inside_of_fits hplace hfits₂⟩
  · rw [hplace t htm hto, place_reserve g₁.buffers (f t) (ht.has htm) (ht.own t htm hto)]
  · rw [hplace t htm hto, AllocPlan.tensorAlloc_of_own (ht.own t htm hto),
      Option.some.injEq] at ha
    subst ha
    exact hsize t htm hto

end Galloc

theorem ComputeGraph.SameTopology.refl : ComputeGraph.SameTopology B id c c where
  nodes := (List.map_id _).symm
  leafs := (List.map_id _).symm
  inj _ _ _ _ h := h
  src _ _ _ := by simp
  viewSrc _ _ := by simp
  own _ _ h := h
  input _ _ := rfl
  output _ _ := rfl
  none _ _ := Iff.rfl
  inplace _ _ := rfl
  layout _ _ _ _ h := h
  leafSize _ _ _ _ := le_rfl

attribute [local instance] neZero_ggmlMaxSrc

/-- A chain of four tensors, the last of which reads `early` as well. -/
def skipGraph (early : Fin 5) : ComputeGraph (Fin 5) where
  tensor
    | 0 => { op := .none, layout := ⟨0, 1, 1⟩, src := fun _ => none, input := true }
    | 1 => { op := .other 0, layout := ⟨0, 1, 1⟩, src := fun j => if j = 0 then some 0 else none }
    | 2 => { op := .other 0, layout := ⟨0, 1, 1⟩, src := fun j => if j = 0 then some 1 else none }
    | 3 => { op := .other 0, layout := ⟨0, 1, 1⟩, src := fun j => if j = 0 then some 2 else none }
    | 4 => { op := .other 0, layout := ⟨0, 1, 1⟩, output := true,
             src := fun j => if j = 0 then some 3 else if j = 1 then some early else none }
  nodes := [1, 2, 3, 4]
  leafs := [0]

set_option synthInstance.maxSize 512 in
theorem skipGraph_ordered {early : Fin 5} (h : early = 1 ∨ early = 2) :
    (skipGraph early).Ordered where
  nodup := by rcases h with rfl | rfl <;> decide
  leafs := by rcases h with rfl | rfl <;> decide
  flat := by rcases h with rfl | rfl <;> decide
  srcs := ComputeGraph.forall_split (by rcases h with rfl | rfl <;> decide)
  views := ComputeGraph.forall_split (by rcases h with rfl | rfl <;> decide)

namespace Galloc

end Galloc

end LamaServer
