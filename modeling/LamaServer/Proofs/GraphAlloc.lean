import LamaServer.Proofs.AllocPlan
import Mathlib.Data.Finset.Card
import Mathlib.Data.List.Count
import Mathlib.Data.Finset.Dedup

/-!
# No tensor that is alive is written over

The children of a tensor are counted down with its readers. What is needed of a tensor is therefore
told by the reads that are still to come, as long as each view that is read has been counted: then a
place is let go, or handed over, only when nobody is to read what is there.
-/

set_option linter.unusedSectionVars false

namespace LamaServer

open FreeList

variable {V Buft : Type} [DecidableEq V] [DecidableEq Buft] {B : BufferTypes Buft}
  {c : ComputeGraph V}

namespace ComputeGraph

/-- What some nodes read, in order. -/
def reads (c : ComputeGraph V) (nodes : List V) : List V := nodes.flatMap c.srcs

/-- `v` is one of the views of `r` that are counted. -/
def Counted (c : ComputeGraph V) (v r : V) : Prop :=
  v ∈ c.nodes ∧ (c.tensor v).op ≠ .none ∧ (c.tensor v).viewSrc = some r

/-- What a node reads is a leaf or comes before it, and so does what it is a view of, or what it
reads through a view. A view is flattened to its root. -/
structure Ordered (c : ComputeGraph V) : Prop where
  nodup : c.nodes.Nodup
  leafs : ∀ t ∈ c.leafs, t ∉ c.nodes ∧ t ∉ c.srcs t
  flat : ∀ t r, (c.tensor t).viewSrc = some r → (c.tensor r).viewSrc = none
  srcs : ∀ done node rest, c.nodes = done ++ node :: rest →
    ∀ s ∈ c.srcs node, s ∈ c.leafs ∨ s ∈ done
  views : ∀ done node rest, c.nodes = done ++ node :: rest → ∀ t, t = node ∨ t ∈ c.srcs node →
    ∀ r, (c.tensor t).viewSrc = some r → c.Own r → r ∈ c.leafs ∨ r ∈ done

/-- The allocator never lets go of the place of `r`: it is an output, or has a view that is counted
and that no node reads, or nothing of it is ever read. -/
def Pinned (c : ComputeGraph V) (r : V) : Prop :=
  (c.tensor r).output = true ∨ (∃ v, c.Counted v r ∧ v ∉ c.reads c.nodes) ∨
    r ∉ c.reads c.nodes ∧ ∀ v ∈ c.reads c.nodes, (c.tensor v).viewSrc ≠ some r

/-- The allocator sees all that keeps a tensor alive. -/
structure LifetimesSeen (c : ComputeGraph V) : Prop where
  /-- A view that is read is counted, unless its root is an output. -/
  views : ∀ v ∈ c.reads c.nodes, ∀ r, (c.tensor v).viewSrc = some r → c.Own r →
    (c.tensor r).output = false → c.Counted v r
  /-- An input does not work in place of what is allocated along with it. -/
  inputs : ∀ t ∈ c.nodes, (c.tensor t).input = true → c.Own t →
    opCanInplace (c.tensor t).op = true → ∀ p ∈ c.srcs t, c.Own p →
      p ∈ c.leafs ∨ (c.tensor p).input = true → c.sameLayout t p = true →
        (c.tensor p).output = true
  /-- A view that is an output keeps its root. -/
  outputs : ∀ t, t ∈ c.leafs ∨ t ∈ c.nodes → (c.tensor t).output = true →
    ∀ r, (c.tensor t).viewSrc = some r → c.Own r → c.Pinned r
  /-- The root of a view that is an input is there from the start. -/
  inputViews : ∀ t, t ∈ c.leafs ∨ t ∈ c.nodes → (c.tensor t).input = true →
    ∀ r, (c.tensor t).viewSrc = some r → c.Own r → r ∈ c.leafs ∨ (c.tensor r).input = true

/-- The tensor has memory when no node but those `coming` is left to run. -/
def Present (c : ComputeGraph V) (coming : List V) (t : V) : Prop :=
  c.Own t ∧ (t ∈ c.leafs ∨ t ∈ c.nodes ∧ ((c.tensor t).input = true ∨ t ∉ coming))

/-- What is there is needed while the reads `pending` are still to come. -/
def Needed (c : ComputeGraph V) (pending : List V) (r : V) : Prop :=
  r ∈ pending ∨ (∃ v, c.Counted v r ∧ v ∈ pending) ∨ c.Pinned r

/-- All views of `r` that are read are counted. -/
def Tracked (c : ComputeGraph V) (r : V) : Prop :=
  ∀ v ∈ c.reads c.nodes, (c.tensor v).viewSrc = some r → c.Counted v r

open scoped Classical in
/-- The views of `r` that keep it: those still to be read, and those that are never read. -/
noncomputable def viewsLeft (c : ComputeGraph V) (pending : List V) (r : V) : Finset V :=
  c.nodes.toFinset.filter fun v => c.Counted v r ∧ (v ∈ pending ∨ v ∉ c.reads c.nodes)

theorem mem_viewsLeft {pending : List V} {v r : V} :
    v ∈ c.viewsLeft pending r ↔ c.Counted v r ∧ (v ∈ pending ∨ v ∉ c.reads c.nodes) := by
  simp only [viewsLeft, Finset.mem_filter, List.mem_toFinset]
  exact ⟨fun h => h.2, fun h => ⟨h.1.1, h⟩⟩

@[simp]
theorem reads_nil : c.reads [] = [] := rfl

@[simp]
theorem reads_cons {n : V} {ns : List V} : c.reads (n :: ns) = c.srcs n ++ c.reads ns := rfl

theorem reads_append {xs ys : List V} : c.reads (xs ++ ys) = c.reads xs ++ c.reads ys :=
  List.flatMap_append

theorem Needed.mono {pending pending' : List V} {r : V} (h : c.Needed pending r)
    (hp : ∀ v ∈ pending, v ∈ pending') : c.Needed pending' r := by
  rcases h with h | ⟨v, hv, hm⟩ | h
  · exact .inl (hp _ h)
  · exact .inr (.inl ⟨v, hv, hp _ hm⟩)
  · exact .inr (.inr h)

theorem Present.mono {coming coming' : List V} {t : V} (h : c.Present coming t)
    (hc : ∀ v ∈ coming', v ∈ coming) : c.Present coming' t :=
  ⟨h.1, h.2.imp_right fun h => ⟨h.1, h.2.imp_right fun hn hm => hn (hc _ hm)⟩⟩

theorem LifetimesSeen.tracked (h : c.LifetimesSeen) {r : V} (hr : c.Own r)
    (ho : (c.tensor r).output = false) : c.Tracked r := fun v hv hvr => h.views v hv r hvr hr ho

theorem Ordered.tracked_of_isView (h : c.Ordered) {t r : V}
    (ht : (c.tensor t).viewSrc = some r) : c.Tracked t := by
  intro v _ hv
  rw [h.flat v t hv] at ht
  simp at ht

variable {done rest : List V} {node s : V}

theorem Ordered.notMem_rest (h : c.Ordered) (hn : c.nodes = done ++ node :: rest) :
    node ∉ rest ∧ node ∉ done ∧ node ∉ c.leafs ∧ ∀ s ∈ done, s ∉ node :: rest := by
  have hd := h.nodup
  rw [hn, List.nodup_append'] at hd
  rw [List.nodup_cons] at hd
  refine ⟨hd.2.1.1, fun hm => hd.2.2 hm List.mem_cons_self, fun hl => (h.leafs node hl).1 ?_,
    fun s hs hm => hd.2.2 hs hm⟩
  rw [hn]
  exact List.mem_append_right _ List.mem_cons_self

/-- A source that has memory has it when its reader is next. -/
theorem Ordered.present_src (h : c.Ordered) (hn : c.nodes = done ++ node :: rest)
    (hs : s ∈ c.srcs node) (ho : c.Own s) : c.Present (node :: rest) s := by
  refine ⟨ho, (h.srcs done node rest hn s hs).imp_right fun hd => ⟨?_, .inr ?_⟩⟩
  · rw [hn]
    exact List.mem_append_left _ hd
  · exact (h.notMem_rest hn).2.2.2 s hd

/-- What comes behind a node in the order is read by the nodes that are left. -/
theorem Ordered.mem_reads_rest (h : c.Ordered) (hn : c.nodes = done ++ node :: rest)
    (hs : s ∈ c.reads c.nodes)
    (hafter : ∀ d m r, c.nodes = d ++ m :: r → s ∈ c.srcs m → node ∈ c.leafs ∨ node ∈ d) :
    s ∈ c.reads rest := by
  obtain ⟨-, hnd, hnl, -⟩ := h.notMem_rest hn
  obtain ⟨m, hm, hsm⟩ := List.mem_flatMap.1 hs
  rw [hn, List.mem_append, List.mem_cons] at hm
  rcases hm with hm | rfl | hm
  · obtain ⟨d, r, rfl⟩ := List.append_of_mem hm
    rcases hafter d m (r ++ node :: rest) (by rw [hn, List.append_assoc, List.cons_append]) hsm
      with hl | hd
    · exact absurd hl hnl
    · exact absurd (List.mem_append_left _ hd) hnd
  · exact absurd (hafter done m rest hn hsm) (not_or.2 ⟨hnl, hnd⟩)
  · exact List.mem_flatMap.2 ⟨m, hm, hsm⟩

/-- A node is needed when it runs. -/
theorem Ordered.needed_node (h : c.Ordered) (hl : c.LifetimesSeen)
    (hn : c.nodes = done ++ node :: rest) (ho : c.Own node) : c.Needed (c.reads rest) node := by
  rcases em (node ∈ c.reads c.nodes) with hr | hr
  · exact .inl (h.mem_reads_rest hn hr fun d m r hd hs => h.srcs d m r hd node hs)
  · rcases em (∃ v ∈ c.reads c.nodes, (c.tensor v).viewSrc = some node) with ⟨v, hv, hvn⟩ | hno
    · rcases hout : (c.tensor node).output
      · refine .inr (.inl ⟨v, hl.views v hv node hvn ho hout, ?_⟩)
        exact h.mem_reads_rest hn hv fun d m r hd hs => h.views d m r hd v (.inr hs) node hvn ho
      · exact .inr (.inr (.inl hout))
    · push Not at hno
      exact .inr (.inr (.inr (.inr ⟨hr, hno⟩)))

theorem Ordered.notMem_srcs (h : c.Ordered) (hn : c.nodes = done ++ node :: rest) :
    node ∉ c.srcs node := fun hs =>
  (h.srcs done node rest hn node hs).elim (h.notMem_rest hn).2.2.1 (h.notMem_rest hn).2.1

end ComputeGraph

namespace AllocPlan

variable {g g' g'' : AllocPlan V Buft}

/-! ## Running the nodes -/

variable (B c) in
/-- The plan when the reads `pending` and the nodes `coming` are left; what is `lent` has just been
handed over. -/
structure Inv (S : Set ℕ) (pending coming : List V) (lent : Set V) (g : AllocPlan V Buft) :
    Prop where
  sound : g.Sound B c
  children : ∀ t, (g.hash t).nChildren = pending.count t
  views : ∀ r, c.Tracked r → (g.hash r).nViews = (c.viewsLeft pending r).card
  present : ∀ t ∈ g.held, c.Present coming t
  kept : ∀ t, c.Present coming t → c.Needed pending t → t ∉ lent → t ∈ g.held
  within : ∀ t, c.Present coming t → Within B c S g t

variable {S : Set ℕ} {pending coming rest done : List V} {lent : Set V} {node p t u : V}

/-- One view less is to be read behind its last reader. -/
theorem card_viewsLeft (hp : p ∈ c.reads c.nodes) {r : V} (hr : c.Tracked r) :
    ((c.viewsLeft pending r).card : ℤ) = (c.viewsLeft (p :: pending) r).card -
      if (c.tensor p).viewSrc = some r ∧ (p :: pending).count p = 1 then 1 else 0 := by
  rcases em ((c.tensor p).viewSrc = some r ∧ p ∉ pending) with ⟨hv, hpn⟩ | hno
  · rw [if_pos ⟨hv, by rw [List.count_cons_self, List.count_eq_zero_of_not_mem hpn]⟩]
    have hmem : p ∈ c.viewsLeft (p :: pending) r :=
      ComputeGraph.mem_viewsLeft.2 ⟨hr p hp hv, .inl List.mem_cons_self⟩
    have herase : c.viewsLeft pending r = (c.viewsLeft (p :: pending) r).erase p := by
      ext v
      rw [Finset.mem_erase, ComputeGraph.mem_viewsLeft, ComputeGraph.mem_viewsLeft, List.mem_cons]
      constructor
      · rintro ⟨hc, hw⟩
        refine ⟨?_, hc, hw.imp_left .inr⟩
        rintro rfl
        exact hw.elim hpn fun h => h hp
      · rintro ⟨hne, hc, hw⟩
        exact ⟨hc, hw.imp_left fun h => h.resolve_left hne⟩
    have := Finset.card_erase_add_one hmem
    rw [herase]
    omega
  · rw [if_neg]
    · suffices hs : c.viewsLeft pending r = c.viewsLeft (p :: pending) r by rw [hs, Int.sub_zero]
      ext v
      rw [ComputeGraph.mem_viewsLeft, ComputeGraph.mem_viewsLeft, List.mem_cons]
      refine and_congr_right fun hc => ⟨fun h => h.imp_left .inr, fun h => h.imp_left ?_⟩
      rintro (rfl | hm)
      · by_contra hv
        exact hno ⟨hc.2.2, hv⟩
      · exact hm
    · rw [List.count_cons_self]
      rintro ⟨hv, hcount⟩
      exact hno ⟨hv, List.count_eq_zero.1 (by omega)⟩

/-- Where no views are left, none is read later or never. -/
theorem not_of_viewsLeft {t : V} {n : ℤ} (h : n = (c.viewsLeft pending t).card) (hz : n = 0)
    (v : V) : ¬ (c.Counted v t ∧ (v ∈ pending ∨ v ∉ c.reads c.nodes)) := by
  rw [hz, eq_comm, Int.natCast_eq_zero, Finset.card_eq_zero] at h
  exact fun hv => Finset.notMem_empty v (h ▸ ComputeGraph.mem_viewsLeft.2 hv)

theorem Inv.update (hc : c.Ordered) (hl : c.LifetimesSeen)
    (h : Inv B c S (p :: pending) coming lent g) (hp : p ∈ c.reads c.nodes)
    (hu : updateParent B c g p = some g') :
    Inv B c S pending coming lent g' ∧ Keeps (fun _ => True) g g' := by
  have hpv : (c.tensor p).viewSrc ≠ some p := fun hv => by
    rw [hc.flat p p hv] at hv
    simp at hv
  obtain ⟨hs', hup⟩ := updateParent_spec hu h.sound hpv
  have hchildren : ∀ t, (g'.hash t).nChildren = pending.count t := by
    intro t
    rw [hup.children, h.children, List.count_cons]
    rcases eq_or_ne t p with rfl | htp
    · simp
    · simp [htp, htp.symm]
  have hviews : ∀ r, c.Tracked r → (g'.hash r).nViews = (c.viewsLeft pending r).card := by
    intro r hr
    have hiff : ((c.tensor p).viewSrc = some r ∧ (g.hash p).nChildren = 1 ∧
        (g.hash p).nViews = 0) ↔ ((c.tensor p).viewSrc = some r ∧ (p :: pending).count p = 1) := by
      refine and_congr_right fun hv => ?_
      have hz : (g.hash p).nViews = 0 := by
        rw [h.views p (hc.tracked_of_isView hv), Int.natCast_eq_zero, Finset.card_eq_zero]
        refine Finset.eq_empty_of_forall_notMem fun w hw => ?_
        have := hc.flat w p (ComputeGraph.mem_viewsLeft.1 hw).1.2.2
        rw [hv] at this
        simp at this
      rw [and_iff_left hz, h.children]
      omega
    rw [hup.views, h.views r hr]
    simp only [hiff]
    exact (card_viewsLeft hp hr).symm
  refine ⟨⟨hs', hchildren, hviews, fun t ht => h.present t (hup.held ht), ?_, ?_⟩, hup.keeps⟩
  · intro t ht hn hlent
    have hg := h.kept t ht (hn.mono fun v hv => List.mem_cons_of_mem _ hv) hlent
    by_contra hg'
    obtain ⟨hout, hch, hvi, hwho⟩ := hup.freed t hg hg'
    have hleft := not_of_viewsLeft (hviews t (hl.tracked ht.1 hout)) hvi
    rcases hn with hm | ⟨v, hv, hm⟩ | hpin | ⟨v, hv, hm⟩ | ⟨hm, hall⟩
    · rw [hchildren, Int.natCast_eq_zero, List.count_eq_zero] at hch
      exact hch hm
    · exact hleft v ⟨hv, .inl hm⟩
    · rw [hout] at hpin
      simp at hpin
    · exact hleft v ⟨hv, .inr hm⟩
    · rcases hwho with rfl | hv
      · exact hm hp
      · exact hall p hp hv
  · exact fun t ht => (h.within t ht).congr (hup.keeps.loc t trivial) hup.keeps.grows

theorem allocateNode_of_held {id : ℤ} (h : g.allocateNode B c t id = some g')
    (ht : c.Own t → t ∈ g.held) : g' = g := by
  unfold allocateNode at h
  split_ifs at h with hid hal
  · exact absurd (isAllocated_or_isView.2 ht) (not_or.2 hal)
  · exact absurd (isAllocated_or_isView.2 ht) (not_or.2 hal)
  · exact (Option.some.inj h).symm

/-- The parents of a node have been allocated when it is next. -/
theorem Inv.parents (hc : c.Ordered) (hn : c.nodes = done ++ node :: rest) {id : ℤ}
    (h : Inv B c S (c.srcs node ++ c.reads rest) (node :: rest) ∅ g) {ps : List V}
    (hps : ∀ p ∈ ps, p ∈ c.srcs node)
    (ha : ps.foldlM (fun g p => g.allocateNode B c p id) g = some g') : g' = g := by
  induction ps with
  | nil => exact (Option.some.inj ha).symm
  | cons p ps ih =>
    rw [List.foldlM_cons, Option.bind_eq_bind, Option.bind_eq_some_iff] at ha
    obtain ⟨g₁, hp, ha⟩ := ha
    have hsrc := hps p List.mem_cons_self
    obtain rfl : g₁ = g := allocateNode_of_held hp fun ho =>
      h.kept p (hc.present_src hn hsrc ho) (.inl (List.mem_append_left _ hsrc)) (Set.notMem_empty p)
    exact ih (fun q hq => hps q (List.mem_cons_of_mem _ hq)) ha

variable (c) in
/-- `node` works in the place of `p`, which nobody needs behind it. -/
structure InPlace (g : AllocPlan V Buft) (rest : List V) (p node : V) : Prop where
  op : opCanInplace (c.tensor node).op = true
  src : p ∈ c.srcs node
  layout : c.sameLayout node p = true
  loc : g.loc node = g.loc p
  views : ∀ v ∈ c.srcs node, ¬ c.Counted v p
  last : ¬ c.Needed (c.reads rest) p

/-- A parent whose place is taken is needed no more. -/
theorem Inv.taken (hl : c.LifetimesSeen) (hnode : node ∈ c.nodes)
    (h : Inv B c S (c.srcs node ++ c.reads rest) (node :: rest) ∅ g) {p : V}
    (htaken : TakenPlace c g node p g') :
    (∀ v ∈ c.srcs node, ¬ c.Counted v p) ∧ ¬ c.Needed (c.reads rest) p := by
  have htracked := hl.tracked (h.sound.own p htaken.lender) htaken.output
  have hleft := not_of_viewsLeft (h.views p htracked) htaken.views
  refine ⟨fun v hv hvp => hleft v ⟨hvp, .inl (List.mem_append_left _ hv)⟩, ?_⟩
  rintro (hm | ⟨v, hv, hm⟩ | hout | ⟨v, hv, hm⟩ | ⟨hm, -⟩)
  · -- it has one child, which is the node
    have hone := h.children p
    rw [htaken.children, List.count_append] at hone
    have := List.count_pos_iff.2 htaken.src
    have := List.count_pos_iff.2 hm
    omega
  · exact hleft v ⟨hv, .inl (List.mem_append_right _ hm)⟩
  · rw [htaken.output] at hout
    simp at hout
  · exact hleft v ⟨hv, .inr hm⟩
  · exact hm (List.mem_flatMap.2 ⟨node, hnode, htaken.src⟩)

/-- Allocating a node keeps the invariant, except that its place may have been lent. -/
theorem Inv.allocate (hc : c.Ordered) (hl : c.LifetimesSeen) (hn : c.nodes = done ++ node :: rest)
    {id : ℤ} (hid : id.toNat ∈ S) (h : Inv B c S (c.srcs node ++ c.reads rest) (node :: rest) ∅ g)
    (ha : g.allocateNode B c node id = some g') :
    ∃ lent, Inv B c S (c.srcs node ++ c.reads rest) rest lent g' ∧
      Keeps (c.Present (node :: rest)) g g' ∧ lent.Subsingleton ∧
      ∀ p ∈ lent, node ∈ g'.held ∧ InPlace c g' rest p node := by
  obtain ⟨hs', hcase⟩ := allocateNode_spec ha h.sound (hc.notMem_srcs hn)
  have hrest := (hc.notMem_rest hn).1
  have hnode : node ∈ c.nodes := by
    rw [hn]
    exact List.mem_append_right _ List.mem_cons_self
  have hneeded : c.Own node → c.Needed (c.srcs node ++ c.reads rest) node := fun ho =>
    (hc.needed_node hl hn ho).mono fun v hv => List.mem_append_right _ hv
  have hpresent : ∀ t, c.Present rest t → t ≠ node → c.Present (node :: rest) t :=
    fun t ht htn => ⟨ht.1, ht.2.imp_right fun hm => ⟨hm.1, hm.2.imp_right fun hr hm' =>
      (List.mem_cons.1 hm').elim htn hr⟩⟩
  -- a node that is there already has been allocated
  have hfresh : node ∉ g.held → ¬ c.Present (node :: rest) node := fun hf hp =>
    hf (h.kept node hp (hneeded hp.1) (Set.notMem_empty node))
  have hkeeps : node ∉ g.held → Keeps (· ≠ node) g g' → Keeps (c.Present (node :: rest)) g g' :=
    fun hf hk => hk.mono fun t ht htn => hfresh hf (htn ▸ ht)
  rcases hcase with ⟨rfl, hheld⟩ | hnew | ⟨p, htaken⟩
  · refine ⟨∅, ⟨hs', h.children, h.views, fun t ht => (h.present t ht).mono fun v hv =>
      List.mem_cons_of_mem _ hv, ?_, ?_⟩, .rfl, Set.subsingleton_empty,
      fun p hp => absurd hp (Set.notMem_empty p)⟩
    · intro t ht hneed hlent
      rcases eq_or_ne t node with rfl | htn
      · exact hheld ht.1
      · exact h.kept t (hpresent t ht htn) hneed hlent
    · intro t ht
      rcases eq_or_ne t node with rfl | htn
      · exact h.within t (h.present t (hheld ht.1))
      · exact h.within t (hpresent t ht htn)
  · refine ⟨∅, ⟨hs', fun t => (hnew.counts t).1.trans (h.children t),
      fun r hr => (hnew.counts r).2.trans (h.views r hr), ?_, ?_, ?_⟩, hkeeps hnew.fresh hnew.keeps,
      Set.subsingleton_empty, fun p hp => absurd hp (Set.notMem_empty p)⟩
    · intro t ht
      rcases hnew.held ▸ ht with rfl | htg
      · exact ⟨hnew.own, .inr ⟨hnode, .inr hrest⟩⟩
      · exact (h.present t htg).mono fun v hv => List.mem_cons_of_mem _ hv
    · intro t ht hneed hlent
      rw [hnew.held]
      rcases eq_or_ne t node with rfl | htn
      · exact Set.mem_insert ..
      · exact Set.mem_insert_of_mem _ (h.kept t (hpresent t ht htn) hneed hlent)
    · intro t ht
      rcases eq_or_ne t node with rfl | htn
      · exact hnew.within S hid
      · exact (h.within t (hpresent t ht htn)).congr (hnew.keeps.loc t htn) hnew.keeps.grows
  · have hpn : p ≠ node := fun hpn => htaken.fresh (hpn ▸ htaken.lender)
    have hlocp : g'.loc p = g.loc p := htaken.keeps.loc p hpn
    obtain ⟨hviews, hlast⟩ := h.taken hl hnode htaken
    refine ⟨{p}, ⟨hs', fun t => (htaken.counts t).1.trans (h.children t),
      fun r hr => (htaken.counts r).2.trans (h.views r hr), ?_, ?_, ?_⟩,
      hkeeps htaken.fresh htaken.keeps, Set.subsingleton_singleton, ?_⟩
    · intro t ht
      rcases htaken.held ▸ ht with rfl | htg
      · exact ⟨htaken.own, .inr ⟨hnode, .inr hrest⟩⟩
      · exact (h.present t htg.1).mono fun v hv => List.mem_cons_of_mem _ hv
    · intro t ht hneed hlent
      rw [htaken.held]
      rcases eq_or_ne t node with rfl | htn
      · exact Set.mem_insert ..
      · exact Set.mem_insert_of_mem _
          ⟨h.kept t (hpresent t ht htn) hneed (Set.notMem_empty t), hlent⟩
    · intro t ht
      rcases eq_or_ne t node with rfl | htn
      · have hw := h.within p (h.present p htaken.lender)
        have hb : g'.block B c t = g.block B c p := by
          simp only [block, htaken.loc, ComputeGraph.allocSize,
            ComputeGraph.sameLayout_iff.1 htaken.layout]
        rw [Within, hb, htaken.loc]
        exact ⟨hw.1, hw.2.trans (htaken.keeps.grows _)⟩
      · exact (h.within t (hpresent t ht htn)).congr (htaken.keeps.loc t htn) htaken.keeps.grows
    · rintro q rfl
      exact ⟨htaken.held ▸ Set.mem_insert .., htaken.op, htaken.src, htaken.layout,
        htaken.loc.trans hlocp.symm, hviews, hlast⟩

/-- The sources of a node are let go one by one. -/
theorem Inv.updates (hc : c.Ordered) (hl : c.LifetimesSeen) {ps : List V}
    (h : Inv B c S (ps ++ pending) coming lent g) (hps : ∀ p ∈ ps, p ∈ c.reads c.nodes)
    (hu : ps.foldlM (updateParent B c) g = some g') :
    Inv B c S pending coming lent g' ∧ Keeps (fun _ => True) g g' := by
  induction ps generalizing g with
  | nil =>
    obtain rfl := Option.some.inj hu
    exact ⟨h, .rfl⟩
  | cons p ps ih =>
    rw [List.foldlM_cons, Option.bind_eq_bind, Option.bind_eq_some_iff] at hu
    obtain ⟨g₁, hp, hu⟩ := hu
    obtain ⟨h₁, hk₁⟩ := h.update hc hl (hps p List.mem_cons_self) hp
    obtain ⟨h₂, hk₂⟩ := ih h₁ (fun q hq => hps q (List.mem_cons_of_mem _ hq)) hu
    exact ⟨h₂, hk₁.trans hk₂⟩

variable (B c) in
/-- While `node` runs, what is needed is apart, or `node` works in place. -/
def StepApart (g : AllocPlan V Buft) (node : V) (rest : List V) : Prop :=
  ∀ t u, c.Present rest t → c.Present rest u → t ≠ u →
    c.Needed (c.srcs node ++ c.reads rest) t → c.Needed (c.srcs node ++ c.reads rest) u →
      Disjoint (g.memory B c t) (g.memory B c u) ∨
        t = node ∧ InPlace c g rest u node ∨ u = node ∧ InPlace c g rest t node

theorem StepApart.keeps (h : StepApart B c g node rest) (hk : Keeps (c.Present rest) g g') :
    StepApart B c g' node rest := by
  intro t u ht hu htu hnt hnu
  have hlt := hk.loc t ht
  have hlu := hk.loc u hu
  rcases h t u ht hu htu hnt hnu with hd | ⟨rfl, hp⟩ | ⟨rfl, hp⟩
  · rw [memory_congr hlt, memory_congr hlu]
    exact .inl hd
  · exact .inr (.inl ⟨rfl, hp.op, hp.src, hp.layout, by rw [hlt, hlu, hp.loc], hp.views, hp.last⟩)
  · exact .inr (.inr ⟨rfl, hp.op, hp.src, hp.layout, by rw [hlt, hlu, hp.loc], hp.views, hp.last⟩)

theorem InPlace.memory_eq (h : InPlace c g rest p node) :
    g.memory B c p = g.memory B c node := by
  simp only [memory, block, h.loc, ComputeGraph.allocSize, ComputeGraph.sameLayout_iff.1 h.layout]

/-- What is allocated or lent is apart. -/
theorem Inv.stepApart (h : Inv B c S (c.srcs node ++ c.reads rest) rest lent g)
    (hsub : lent.Subsingleton) (hlent : ∀ p ∈ lent, node ∈ g.held ∧ InPlace c g rest p node) :
    StepApart B c g node rest := by
  intro t u ht hu htu hnt hnu
  rcases em (t ∈ lent) with hlt | hlt
  · obtain ⟨hnode, hp⟩ := hlent t hlt
    rcases eq_or_ne u node with rfl | hun
    · exact .inr (.inr ⟨rfl, hp⟩)
    · have hug := h.kept u hu hnu fun hlu => htu (hsub hlt hlu)
      rw [hp.memory_eq]
      exact .inl (h.sound.account.apart node hnode u hug hun.symm)
  · have htg := h.kept t ht hnt hlt
    rcases em (u ∈ lent) with hlu | hlu
    · obtain ⟨hnode, hp⟩ := hlent u hlu
      rcases eq_or_ne t node with rfl | htn
      · exact .inr (.inl ⟨rfl, hp⟩)
      · rw [hp.memory_eq]
        exact .inl (h.sound.account.apart t htg node hnode htn)
    · exact .inl (h.sound.account.apart t htg u (h.kept u hu hnu hlu) htu)

/-- One node of the plan. -/
theorem Inv.planNode (hc : c.Ordered) (hl : c.LifetimesSeen) (hn : c.nodes = done ++ node :: rest)
    {id : ℤ} (hid : id.toNat ∈ S) (h : Inv B c S (c.srcs node ++ c.reads rest) (node :: rest) ∅ g)
    (hp : planNode B c id g node = some g') :
    Inv B c S (c.reads rest) rest ∅ g' ∧ Keeps (c.Present (node :: rest)) g g' ∧
      StepApart B c g' node rest := by
  simp only [AllocPlan.planNode, Option.bind_eq_bind, Option.bind_eq_some_iff] at hp
  obtain ⟨g₀, hparents, g₁, halloc, hupdate⟩ := hp
  obtain rfl := h.parents hc hn (fun p hp => hp) hparents
  obtain ⟨lent, h₁, hk₁, hsub, hlent⟩ := h.allocate hc hl hn hid halloc
  have hnode : node ∈ c.nodes := by
    rw [hn]
    exact List.mem_append_right _ List.mem_cons_self
  obtain ⟨h₂, hk₂⟩ := h₁.updates hc hl
    (fun p hp => List.mem_flatMap.2 ⟨node, hnode, hp⟩) hupdate
  refine ⟨⟨h₂.sound, h₂.children, h₂.views, h₂.present, fun t ht hneed _ => ?_, h₂.within⟩,
    hk₁.trans (hk₂.mono fun _ _ => trivial),
    (h₁.stepApart hsub hlent).keeps (hk₂.mono fun _ _ => trivial)⟩
  exact h₂.kept t ht hneed fun ht => (hlent t ht).2.last hneed

/-- The nodes that are left are planned. -/
theorem Inv.planNodes (hc : c.Ordered) (hl : c.LifetimesSeen) {ids : Option (ℕ → ℤ)} {i : ℕ}
    (hS : ∀ i, (getNodeBufferId ids i).toNat ∈ S) {nodes : List V} (hn : c.nodes = done ++ nodes)
    (h : Inv B c S (c.reads nodes) nodes ∅ g)
    (hp : planNodes B c ids g nodes i = some g') :
    Inv B c S [] [] ∅ g' ∧ Keeps (c.Present nodes) g g' ∧
      ∀ d node rest, nodes = d ++ node :: rest → StepApart B c g' node rest := by
  induction nodes generalizing g done i with
  | nil =>
    obtain rfl := Option.some.inj hp
    exact ⟨h, .rfl, fun d node rest hd => by simp at hd⟩
  | cons n ns ih =>
    rw [AllocPlan.planNodes, Option.bind_eq_bind, Option.bind_eq_some_iff] at hp
    obtain ⟨g₁, hnode, hp⟩ := hp
    obtain ⟨h₁, hk₁, ha₁⟩ := h.planNode hc hl hn (hS i) hnode
    obtain ⟨h₂, hk₂, ha₂⟩ := ih (by rw [hn, List.append_cons]) h₁ hp
    refine ⟨h₂, hk₁.trans (hk₂.mono fun t ht => ht.mono fun v hv => List.mem_cons_of_mem _ hv),
      fun d node rest hd => ?_⟩
    rcases d with _ | ⟨_, d⟩
    · obtain ⟨rfl, rfl⟩ := List.cons.inj hd
      exact ha₁.keeps hk₂
    · exact ha₂ d node rest (List.cons.inj hd).2

/-! ## Before the nodes run -/

/-- Allocating a tensor that cannot work in place only adds it. -/
theorem allocateNode_new {id : ℤ} (hid : id.toNat ∈ S) (h : g.allocateNode B c t id = some g')
    (hs : g.Sound B c)
    (ht : t ∉ c.srcs t) (hno : ∀ p g', ¬ TakenPlace c g t p g')
    (hw : ∀ u ∈ g.held, Within B c S g u) :
    g'.Sound B c ∧ SameCounts g g' ∧ g.held ⊆ g'.held ∧ (∀ u ∈ g'.held, u = t ∨ u ∈ g.held) ∧
      (c.Own t → t ∈ g'.held) ∧ ∀ u ∈ g'.held, Within B c S g' u := by
  obtain ⟨hs', ⟨rfl, hheld⟩ | hnew | ⟨p, hp⟩⟩ := allocateNode_spec h hs ht
  · exact ⟨hs', fun t => ⟨rfl, rfl⟩, subset_rfl, fun u hu => .inr hu, hheld, hw⟩
  · refine ⟨hs', hnew.counts, ?_, ?_, fun _ => ?_, fun u hu => ?_⟩
    · rw [hnew.held]
      exact Set.subset_insert ..
    · rw [hnew.held]
      exact fun u hu => hu
    · rw [hnew.held]
      exact Set.mem_insert ..
    · rcases eq_or_ne u t with rfl | hut
      · exact hnew.within S hid
      · rw [hnew.held] at hu
        exact (hw u (hu.resolve_left hut)).congr (hnew.keeps.loc u hut) hnew.keeps.grows
  · exact absurd hp (hno p g')

variable (B c) in
/-- The plan when the leafs `done` have been allocated. -/
structure LeafsDone (S : Set ℕ) (done : List V) (g : AllocPlan V Buft) : Prop where
  sound : g.Sound B c
  counts : SameCounts start g
  present : ∀ t ∈ g.held, t ∈ c.leafs
  leafs : ∀ t ∈ done, c.Own t → t ∈ g.held
  within : ∀ t ∈ g.held, Within B c S g t

theorem LeafsDone.start : LeafsDone B c S [] (start : AllocPlan V Buft) where
  sound := by
    have hheld : (AllocPlan.start : AllocPlan V Buft).held = ∅ := by
      ext t
      simp [held, AllocPlan.start]
    refine ⟨?_, fun b => ?_, ?_⟩
    · rw [hheld]
      exact .empty
    · simp [AllocPlan.start, DynTallocr.reset, Apart]
    · simp [hheld]
  counts t := ⟨rfl, rfl⟩
  present t ht := by simp [held, AllocPlan.start] at ht
  leafs t ht := by simp at ht
  within t ht := by simp [held, AllocPlan.start] at ht

theorem LeafsDone.allocLeafs (hc : c.Ordered) {ids : Option (ℕ → ℤ)} {i : ℕ} {leafs : List V}
    (hS : ∀ i, (getNodeBufferId ids i).toNat ∈ S) (h : LeafsDone B c S done g)
    (hl : ∀ t ∈ leafs, t ∈ c.leafs)
    (ha : allocLeafs B c ids g leafs i = some g') : LeafsDone B c S (done ++ leafs) g' := by
  induction leafs generalizing g done i with
  | nil =>
    obtain rfl := Option.some.inj ha
    simpa using h
  | cons t ts ih =>
    rw [AllocPlan.allocLeafs, Option.bind_eq_bind, Option.bind_eq_some_iff] at ha
    obtain ⟨g₁, ht, ha⟩ := ha
    have hleaf := hl t List.mem_cons_self
    -- nothing has been counted, so nothing is lent
    have hno : ∀ p g', ¬ TakenPlace c g t p g' := fun p g' hp => by
      have h1 := hp.children
      rw [(h.counts p).1] at h1
      simp [AllocPlan.start] at h1
    obtain ⟨hs, hcounts, hsub, hheld, ht, hw⟩ :=
      allocateNode_new (hS i) ht h.sound (hc.leafs t hleaf).2 hno h.within
    rw [List.append_cons]
    refine ih ⟨hs, fun u => ⟨(hcounts u).1.trans (h.counts u).1, (hcounts u).2.trans
      (h.counts u).2⟩, fun u hu => ?_, fun u hu ho => ?_, hw⟩
      (fun u hu => hl u (List.mem_cons_of_mem _ hu)) ha
    · rcases hheld u hu with rfl | hu
      · exact hleaf
      · exact h.present u hu
    · rcases List.mem_append.1 hu with hu | hu
      · exact hsub (h.leafs u hu ho)
      · obtain rfl := List.mem_singleton.1 hu
        exact ht ho

variable (B c) in
/-- The plan when the nodes `seen` and the reads `counted` have been counted. -/
structure Counting (S : Set ℕ) (counted seen : List V) (g : AllocPlan V Buft) : Prop where
  sound : g.Sound B c
  children : ∀ t, (g.hash t).nChildren = counted.count t
  views : ∀ r, (g.hash r).nViews =
    (seen.toFinset.filter fun v => (c.tensor v).op ≠ .none ∧ (c.tensor v).viewSrc = some r).card
  present : ∀ t ∈ g.held, t ∈ c.leafs ∨ t ∈ c.nodes ∧ (c.tensor t).input = true
  leafs : ∀ t ∈ c.leafs, c.Own t → t ∈ g.held
  within : ∀ t ∈ g.held, Within B c S g t

variable {counted seen : List V}

theorem LeafsDone.counting (h : LeafsDone B c S c.leafs g) : Counting B c S [] [] g where
  sound := h.sound
  children t := (h.counts t).1
  views r := (h.counts r).2
  present t ht := .inl (h.present t ht)
  leafs := h.leafs
  within := h.within

theorem Counting.allocate (hc : c.Ordered) (hl : c.LifetimesSeen) {id : ℤ} (hid : id.toNat ∈ S)
    (h : Counting B c S counted seen g)
    (ht : t ∈ c.leafs ∨ t ∈ c.nodes ∧ (c.tensor t).input = true)
    (ha : g.allocateNode B c t id = some g') :
    Counting B c S counted seen g' ∧ g.held ⊆ g'.held ∧ (c.Own t → t ∈ g'.held) := by
  have hsrcs : t ∉ c.srcs t := by
    rcases ht with ht | ⟨ht, -⟩
    · exact (hc.leafs t ht).2
    · obtain ⟨d, r, hd⟩ := List.append_of_mem ht
      exact hc.notMem_srcs hd
  have hno : ∀ p g', ¬ TakenPlace c g t p g' := fun p g' hp => by
    rcases ht with ht | ⟨ht, hin⟩
    · exact hp.fresh (h.leafs t ht hp.own)
    · have hout := hl.inputs t ht hin hp.own hp.op p hp.src (h.sound.own p hp.lender)
        ((h.present p hp.lender).imp_right And.right) hp.layout
      rw [hp.output] at hout
      simp at hout
  obtain ⟨hs, hcounts, hsub, hheld, hown, hw⟩ := allocateNode_new hid ha h.sound hsrcs hno h.within
  refine ⟨⟨hs, fun u => (hcounts u).1.trans (h.children u), fun u =>
    (hcounts u).2.trans (h.views u), fun u hu => ?_, fun u hu ho => hsub (h.leafs u hu ho), hw⟩,
    hsub, hown⟩
  rcases hheld u hu with rfl | hu
  · exact ht
  · exact h.present u hu

theorem Counting.allocateInput (hc : c.Ordered) (hl : c.LifetimesSeen) {id : ℤ}
    (hid : id.toNat ∈ S) (h : Counting B c S counted seen g) (ht : t ∈ c.leafs ∨ t ∈ c.nodes)
    (ha : g.allocateInput B c t id = some g') :
    Counting B c S counted seen g' ∧ g.held ⊆ g'.held ∧
      ((c.tensor t).input = true → c.Own t → t ∈ g'.held) := by
  unfold AllocPlan.allocateInput at ha
  split_ifs at ha with hin
  · obtain ⟨h', hsub, hown⟩ := h.allocate hc hl hid (ht.imp_right fun hn => ⟨hn, hin⟩) ha
    exact ⟨h', hsub, fun _ => hown⟩
  · obtain rfl := Option.some.inj ha
    exact ⟨h, subset_rfl, fun h => absurd h hin⟩

/-- A record that differs in its counts is as good, for what has been allocated. -/
theorem Counting.recount (h : Counting B c S counted seen g) (t : V) (hn : HashNode)
    (counted' seen' : List V)
    (hb : hn.bufferId = (g.hash t).bufferId) (ho : hn.offset = (g.hash t).offset)
    (ha : hn.allocated = (g.hash t).allocated)
    (hch : ∀ u, ((g.setNode t hn).hash u).nChildren = counted'.count u)
    (hvi : ∀ r, ((g.setNode t hn).hash r).nViews = (seen'.toFinset.filter fun v =>
      (c.tensor v).op ≠ .none ∧ (c.tensor v).viewSrc = some r).card) :
    Counting B c S counted' seen' (g.setNode t hn) ∧ (g.setNode t hn).held = g.held := by
  obtain ⟨hs, hheld, hk⟩ := h.sound.recount t hn hb ho ha
  refine ⟨⟨hs, hch, hvi, ?_, ?_, ?_⟩, hheld⟩
  · rw [hheld]
    exact h.present
  · rw [hheld]
    exact h.leafs
  · rw [hheld]
    exact fun u hu => (h.within u hu).congr (hk.loc u trivial) hk.grows

theorem Counting.countSrc (hc : c.Ordered) (hl : c.LifetimesSeen) {id : ℤ}
    (hid : id.toNat ∈ S) (h : Counting B c S counted seen g) (ht : t ∈ c.leafs ∨ t ∈ c.nodes)
    (ha : countSrc B c id g t = some g') :
    Counting B c S (counted ++ [t]) seen g' ∧ g.held ⊆ g'.held := by
  obtain ⟨h₁, hh₁⟩ := h.recount t
    { g.hash t with nChildren := (g.hash t).nChildren + 1 } (counted ++ [t]) seen rfl rfl rfl
    (fun u => by
      rw [setNode_hash, List.count_append]
      rcases eq_or_ne u t with rfl | hut
      · simp [h.children]
      · simp [hut, hut.symm, h.children])
    (fun r => by
      rw [setNode_hash, ← h.views]
      split_ifs with hrt
      · rw [hrt]
      · rfl)
  obtain ⟨h₂, hsub, -⟩ := h₁.allocateInput hc hl hid ht ha
  exact ⟨h₂, hh₁ ▸ hsub⟩

theorem Counting.countSrcs (hc : c.Ordered) (hl : c.LifetimesSeen) {id : ℤ} {ts : List V}
    (hid : id.toNat ∈ S) (h : Counting B c S counted seen g)
    (hts : ∀ t ∈ ts, t ∈ c.leafs ∨ t ∈ c.nodes)
    (ha : ts.foldlM (AllocPlan.countSrc B c id) g = some g') :
    Counting B c S (counted ++ ts) seen g' ∧ g.held ⊆ g'.held := by
  induction ts generalizing g counted with
  | nil =>
    obtain rfl := Option.some.inj ha
    exact ⟨by simpa using h, subset_rfl⟩
  | cons t ts ih =>
    rw [List.foldlM_cons, Option.bind_eq_bind, Option.bind_eq_some_iff] at ha
    obtain ⟨g₁, ht, ha⟩ := ha
    obtain ⟨h₁, hsub₁⟩ := h.countSrc hc hl hid (hts t List.mem_cons_self) ht
    obtain ⟨h₂, hsub₂⟩ := ih h₁ (fun u hu => hts u (List.mem_cons_of_mem _ hu)) ha
    exact ⟨by simpa using h₂, hsub₁.trans hsub₂⟩

theorem Counting.countView (h : Counting B c S counted seen g) (hn : node ∉ seen) :
    Counting B c S counted (seen ++ [node]) (g.countView c node) ∧
      (g.countView c node).held = g.held := by
  have hins : (seen ++ [node]).toFinset = insert node seen.toFinset := by
    ext v
    simp
  have hviews : ∀ r, ((seen ++ [node]).toFinset.filter fun v =>
      (c.tensor v).op ≠ .none ∧ (c.tensor v).viewSrc = some r).card =
        (g.hash r).nViews +
          if (c.tensor node).op ≠ .none ∧ (c.tensor node).viewSrc = some r then 1 else 0 := by
    intro r
    rw [hins, Finset.filter_insert, h.views]
    split_ifs with hr
    · rw [Finset.card_insert_of_notMem]
      · simp
      · simp [hn]
    · simp
  unfold AllocPlan.countView
  rcases hv : (c.tensor node).viewSrc with _ | v
  · refine ⟨⟨h.sound, h.children, fun r => ?_, h.present, h.leafs, h.within⟩, rfl⟩
    rw [hviews, hv, if_neg (fun h => by simp at h), Int.add_zero]
  · rcases em ((c.tensor node).op = .none) with hop | hop
    · dsimp only
      rw [if_neg (not_not.2 hop)]
      refine ⟨⟨h.sound, h.children, fun r => ?_, h.present, h.leafs, h.within⟩, rfl⟩
      rw [hviews, if_neg (fun h => h.1 hop), Int.add_zero]
    · dsimp only
      rw [if_pos hop]
      refine h.recount v _ counted (seen ++ [node]) rfl rfl rfl (fun u => ?_) fun r => ?_
      · rw [setNode_hash, ← h.children]
        split_ifs with huv
        · rw [huv]
        · rfl
      · rw [setNode_hash, hviews, hv]
        rcases eq_or_ne r v with rfl | hrv
        · rw [if_pos rfl, if_pos ⟨hop, rfl⟩]
        · rw [if_neg hrv, if_neg (fun h => hrv (Option.some.inj h.2).symm), Int.add_zero]

theorem Counting.countNodes (hc : c.Ordered) (hl : c.LifetimesSeen) {ids : Option (ℕ → ℤ)} {i : ℕ}
    (hS : ∀ i, (getNodeBufferId ids i).toNat ∈ S) {nodes : List V} (hn : c.nodes = done ++ nodes)
    (h : Counting B c S (c.reads done) done g)
    (ha : countNodes B c ids g nodes i = some g') :
    Counting B c S (c.reads c.nodes) c.nodes g' ∧ g.held ⊆ g'.held ∧
      ∀ t ∈ nodes, (c.tensor t).input = true → c.Own t → t ∈ g'.held := by
  induction nodes generalizing g done i with
  | nil =>
    obtain rfl := Option.some.inj ha
    rw [hn, List.append_nil]
    exact ⟨h, subset_rfl, fun t ht => by simp at ht⟩
  | cons n ns ih =>
    simp only [AllocPlan.countNodes, Option.bind_eq_bind, Option.bind_eq_some_iff] at ha
    obtain ⟨g₁, hinput, g₂, hsrcs, ha⟩ := ha
    have hmem : n ∈ c.nodes := by
      rw [hn]
      exact List.mem_append_right _ List.mem_cons_self
    obtain ⟨h₀, hh₀⟩ := h.countView (hc.notMem_rest hn).2.1
    obtain ⟨h₁, hsub₁, hown⟩ := h₀.allocateInput hc hl (hS i) (.inr hmem) hinput
    rw [hh₀] at hsub₁
    obtain ⟨h₂, hsub₂⟩ := h₁.countSrcs hc hl (hS i) (fun s hs =>
      (hc.srcs done n ns hn s hs).imp_right fun hd => by
        rw [hn]
        exact List.mem_append_left _ hd) hsrcs
    have hread : c.reads done ++ c.srcs n = c.reads (done ++ [n]) := by
      rw [ComputeGraph.reads_append, ComputeGraph.reads_cons, ComputeGraph.reads_nil,
        List.append_nil]
    obtain ⟨h₃, hsub₃, hall⟩ := ih (by rw [hn, List.append_cons]) (hread ▸ h₂) ha
    refine ⟨h₃, hsub₁.trans (hsub₂.trans hsub₃), fun t ht hin ho => ?_⟩
    rcases List.mem_cons.1 ht with rfl | ht
    · exact hsub₃ (hsub₂ (hown hin ho))
    · exact hall t ht hin ho

/-- What is there from the start. -/
theorem Counting.inv (h : Counting B c S (c.reads c.nodes) c.nodes g)
    (hin : ∀ t ∈ c.nodes, (c.tensor t).input = true → c.Own t → t ∈ g.held) :
    Inv B c S (c.reads c.nodes) c.nodes ∅ g ∧ ∀ t, c.Present c.nodes t → t ∈ g.held := by
  have hall : ∀ t, c.Present c.nodes t → t ∈ g.held := by
    rintro t ⟨ho, hleaf | ⟨hm, hin' | hno⟩⟩
    · exact h.leafs t hleaf ho
    · exact hin t hm hin' ho
    · exact absurd hm hno
  refine ⟨⟨h.sound, h.children, fun r _ => ?_, fun t ht => ⟨h.sound.own t ht, ?_⟩,
    fun t ht _ _ => hall t ht, fun t ht => h.within t (hall t ht)⟩, hall⟩
  · rw [h.views]
    congr 2
    ext v
    rw [ComputeGraph.mem_viewsLeft, Finset.mem_filter, List.mem_toFinset]
    exact ⟨fun hv => ⟨hv, em _⟩, fun hv => hv.1⟩
  · exact (h.present t ht).imp_right fun hm => ⟨hm.1, .inl hm.2⟩

/-- The run of the plan: what is there from the start stays where it is and is apart, and so is what
is needed while a node runs, and behind the last one. -/
theorem allocGraphImpl_spec (hc : c.Ordered) (hl : c.LifetimesSeen)
    {nodeIds leafIds : Option (ℕ → ℤ)} (hn : ∀ i, (getNodeBufferId nodeIds i).toNat ∈ S)
    (hS : ∀ i, (getNodeBufferId leafIds i).toNat ∈ S)
    (h : allocGraphImpl B c nodeIds leafIds = some g) :
    Inv B c S [] [] ∅ g ∧
      (∀ t u, c.Present c.nodes t → c.Present c.nodes u → t ≠ u →
        Disjoint (g.memory B c t) (g.memory B c u)) ∧
      ∀ d node rest, c.nodes = d ++ node :: rest → StepApart B c g node rest := by
  simp only [allocGraphImpl, Option.bind_eq_bind, Option.bind_eq_some_iff] at h
  obtain ⟨g₁, hleafs, g₂, hcount, hplan⟩ := h
  have h₁ := LeafsDone.start.allocLeafs hc hS (fun t ht => ht) hleafs
  obtain ⟨h₂, -, hin⟩ := Counting.countNodes hc hl hn (List.nil_append _).symm
    (show Counting B c S (c.reads []) [] g₁ from h₁.counting) hcount
  obtain ⟨hinv, hall⟩ := h₂.inv hin
  obtain ⟨h₃, hk, ha⟩ := hinv.planNodes hc hl hn (List.nil_append _).symm hplan
  refine ⟨h₃, fun t u ht hu htu => ?_, ha⟩
  rw [memory_congr (hk.loc t ht), memory_congr (hk.loc u hu)]
  exact hinv.sound.account.apart t (hall t ht) u (hall u hu) htu

end AllocPlan

end LamaServer
