import LamaServer.Proofs.DynTallocr
import Mathlib.Tactic.Push

/-!
# What the steps of the plan do

Only tensors of their own are ever allocated, their places are apart from each other and from what
is free, and a step moves no tensor but the one that it allocates.
-/

set_option linter.unusedSectionVars false

namespace LamaServer

open FreeList

variable {V Buft : Type} [DecidableEq V] [DecidableEq Buft] {B : BufferTypes Buft}
  {c : ComputeGraph V}

namespace ComputeGraph

/-- The tensor has memory of its own, and the allocator is to find it. -/
def Own (c : ComputeGraph V) (t : V) : Prop :=
  (c.tensor t).viewSrc = none ∧ (c.tensor t).data = none

theorem isOwn_iff {t : V} : c.isOwn t = true ↔ c.Own t := by
  simp [isOwn, Own]

theorem sameLayout_iff {a b : V} : c.sameLayout a b = true ↔
    (c.tensor a).layout = (c.tensor b).layout := by
  constructor
  · intro h
    simp only [sameLayout, Bool.and_eq_true, beq_iff_eq, List.all_eq_true, List.mem_finRange,
      forall_const] at h
    rcases h with ⟨ht, hd⟩
    cases ha : (c.tensor a).layout
    cases hb : (c.tensor b).layout
    simp only [ha, hb] at ht hd
    rw [TensorLayout.mk.injEq]
    exact ⟨ht, funext fun i => (hd i).1, funext fun i => (hd i).2⟩
  · intro h
    simp [sameLayout, h]

end ComputeGraph

namespace AllocPlan

variable {g g' g'' : AllocPlan V Buft} {t u node parent : V} {b : Buft} {alloc : DynTallocr}
  {hn : HashNode}

@[simp]
theorem setNode_hash_self : (g.setNode t hn).hash t = hn := by simp [setNode]

@[simp]
theorem setNode_hash_of_ne (h : u ≠ t) : (g.setNode t hn).hash u = g.hash u := by
  simp [setNode, h]

theorem setNode_hash : (g.setNode t hn).hash u = if u = t then hn else g.hash u := by
  split_ifs with h
  · rw [h, setNode_hash_self]
  · exact setNode_hash_of_ne h

@[simp]
theorem setNode_tallocs : (g.setNode t hn).tallocs = g.tallocs := rfl

@[simp]
theorem setTalloc_hash : (g.setTalloc b alloc).hash = g.hash := rfl

/-- The tensors that are allocated. -/
def held (g : AllocPlan V Buft) : Set V := {t | (g.hash t).allocated = true}

/-- Buffer and offset. -/
def loc (g : AllocPlan V Buft) (t : V) : ℕ × ℕ := ((g.hash t).bufferId, (g.hash t).offset)

variable (B c) in
/-- The bytes that are set apart for a tensor. -/
def block (g : AllocPlan V Buft) (t : V) : Block :=
  let buft := B.bufts (g.loc t).1
  ⟨(g.loc t).2, alignedOffset (c.allocSize B buft t) (B.alignment buft)⟩

variable (B c) in
def memory (g : AllocPlan V Buft) (t : V) : Set (Buft × ℕ) :=
  {x | x.1 = B.bufts (g.loc t).1 ∧ x.2 ∈ (g.block B c t).span}

def free (g : AllocPlan V Buft) : Set (Buft × ℕ) := {x | x.2 ∈ cover (g.tallocs x.1).freeBlocks}

variable (B c) in
/-- The place of the tensor is in one of the buffers `S`, and counts for the size of it. -/
def Within (S : Set ℕ) (g : AllocPlan V Buft) (t : V) : Prop :=
  (g.loc t).1 ∈ S ∧
    (g.block B c t).offset + (g.block B c t).size ≤ (g.tallocs (B.bufts (g.loc t).1)).maxSize

variable (B c) in
structure Sound (g : AllocPlan V Buft) : Prop where
  account : Account g.held (g.memory B c) g.free
  apart : ∀ b, Apart (g.tallocs b).freeBlocks
  own : ∀ t ∈ g.held, c.Own t

/-- The tensors of `P` are where they were. -/
structure Keeps (P : V → Prop) (g g' : AllocPlan V Buft) : Prop where
  loc : ∀ t, P t → g'.loc t = g.loc t
  grows : ∀ b, (g.tallocs b).maxSize ≤ (g'.tallocs b).maxSize

theorem Keeps.rfl {P : V → Prop} : Keeps P g g := ⟨fun _ _ => Eq.refl _, fun _ => le_rfl⟩

theorem Keeps.trans {P : V → Prop} (h : Keeps P g g') (h' : Keeps P g' g'') : Keeps P g g'' :=
  ⟨fun t ht => (h'.loc t ht).trans (h.loc t ht), fun b => (h.grows b).trans (h'.grows b)⟩

theorem Keeps.mono {P Q : V → Prop} (h : Keeps P g g') (hQ : ∀ t, Q t → P t) : Keeps Q g g' :=
  ⟨fun t ht => h.loc t (hQ t ht), h.grows⟩

theorem block_congr (h : g'.loc t = g.loc t) : g'.block B c t = g.block B c t := by
  simp only [block, h]

theorem memory_congr (h : g'.loc t = g.loc t) : g'.memory B c t = g.memory B c t := by
  simp only [memory, block_congr h, h]

theorem Within.congr {S : Set ℕ} (h : Within B c S g t) (hl : g'.loc t = g.loc t)
    (hg : ∀ b, (g.tallocs b).maxSize ≤ (g'.tallocs b).maxSize) : Within B c S g' t := by
  unfold Within at h ⊢
  rw [block_congr hl, hl]
  exact ⟨h.1, h.2.trans (hg _)⟩

theorem isAllocated_or_isView :
    (g.isAllocated c t = true ∨ c.isView t = true) ↔ (c.Own t → t ∈ g.held) := by
  simp only [isAllocated, ComputeGraph.isView, ComputeGraph.Own, held, Set.mem_ofPred_eq,
    Bool.or_eq_true, Option.isSome_iff_ne_none, Ne]
  tauto

theorem own_and_free (h : ¬ g.isAllocated c t = true ∧ ¬ c.isView t = true) :
    c.Own t ∧ t ∉ g.held := by
  rw [← not_or, isAllocated_or_isView, Classical.not_imp] at h
  exact h

/-- The counts do not change. -/
def SameCounts (g g' : AllocPlan V Buft) : Prop :=
  ∀ t, (g'.hash t).nChildren = (g.hash t).nChildren ∧ (g'.hash t).nViews = (g.hash t).nViews

/-! ## Allocating a tensor -/

variable (B c) in
/-- `node` has a new place. -/
structure NewPlace (g : AllocPlan V Buft) (node : V) (id : ℕ) (g' : AllocPlan V Buft) : Prop where
  own : c.Own node
  fresh : node ∉ g.held
  held : g'.held = insert node g.held
  keeps : Keeps (· ≠ node) g g'
  counts : SameCounts g g'
  within : ∀ S : Set ℕ, id ∈ S → Within B c S g' node

variable (c) in
/-- `node` has the place of a parent that nobody else is to read. -/
structure TakenPlace (g : AllocPlan V Buft) (node parent : V) (g' : AllocPlan V Buft) : Prop where
  own : c.Own node
  fresh : node ∉ g.held
  op : opCanInplace (c.tensor node).op = true
  src : parent ∈ c.srcs node
  lender : parent ∈ g.held
  output : (c.tensor parent).output = false
  layout : c.sameLayout node parent = true
  children : (g.hash parent).nChildren = 1
  views : (g.hash parent).nViews = 0
  held : g'.held = insert node (g.held \ {parent})
  keeps : Keeps (· ≠ node) g g'
  loc : g'.loc node = g.loc parent
  counts : SameCounts g g'

theorem newPlace_spec {id : ℕ} (h : (g.setNode node { g.hash node with allocated := true }).newPlace
    B c node id = some g') (hs : g.Sound B c) (hn : c.Own node) (hf : node ∉ g.held) :
    g'.Sound B c ∧ NewPlace B c g node id g' := by
  simp only [newPlace, Option.bind_eq_bind, Option.bind_eq_some_iff, Option.some.injEq, Prod.exists,
    setNode_tallocs, setTalloc_hash, setNode_hash_self] at h
  obtain ⟨offset, alloc, ha, h⟩ := h
  obtain ⟨ht, hm⟩ := DynTallocr.allocate_spec ha (hs.apart _)
  have hself : g'.hash node =
      ⟨(g.hash node).nChildren, (g.hash node).nViews, id, offset, true⟩ := by
    rw [← h, setNode_hash_self]
  have hother : ∀ t, t ≠ node → g'.hash t = g.hash t := fun t htn => by
    rw [← h, setNode_hash_of_ne htn, setTalloc_hash, setNode_hash_of_ne htn]
  have htal : g'.tallocs = Function.update g.tallocs (B.bufts id) alloc := by
    rw [← h]
    rfl
  have hloc : g'.loc node = (id, offset) := by rw [loc, hself]
  have hkeeps : Keeps (· ≠ node) g g' := by
    refine ⟨fun t htn => by simp only [loc, hother t htn], fun b => ?_⟩
    rw [htal]
    rcases eq_or_ne b (B.bufts id) with rfl | hb
    · rw [Function.update_self, hm]
      exact le_max_left ..
    · rw [Function.update_of_ne hb]
  have hheld : g'.held = insert node g.held := by
    ext t
    rcases eq_or_ne t node with rfl | htn
    · simp [held, hself]
    · simp [held, hother t htn, htn]
  have hother' : ∀ t ∈ g.held, t ≠ node := fun t htm htn => hf (htn ▸ htm)
  refine ⟨⟨?_, ?_, ?_⟩, hn, hf, hheld, hkeeps, ?_, ?_⟩
  · rw [hheld]
    refine hs.account.take (fun u hu => memory_congr (hkeeps.loc u (hother' u hu))) ?_ ?_
    · rintro ⟨b, a⟩ ⟨hb, hx⟩
      dsimp only at hb hx
      rw [hloc] at hb
      rw [block, hloc] at hx
      subst hb
      exact ht.within hx
    · ext ⟨b, a⟩
      simp only [free, memory, Set.mem_ofPred_eq, Set.mem_sdiff, htal, hloc, block]
      rcases eq_or_ne b (B.bufts id) with rfl | hb
      · rw [Function.update_self, ht.left]
        simp
      · rw [Function.update_of_ne hb]
        simp [hb]
  · intro b
    rw [htal]
    rcases eq_or_ne b (B.bufts id) with rfl | hb
    · rw [Function.update_self]
      exact ht.apart
    · rw [Function.update_of_ne hb]
      exact hs.apart b
  · rw [hheld]
    rintro t (rfl | htm)
    · exact hn
    · exact hs.own t htm
  · intro t
    rcases eq_or_ne t node with rfl | htn
    · simp [hself]
    · simp [hother t htn]
  · intro S hS
    simp only [Within, block, hloc, htal, Function.update_self, hm]
    exact ⟨hS, le_max_right ..⟩

theorem reuseParent_spec {parents : List V}
    (h : (g.setNode node { g.hash node with allocated := true }).reuseParent c node parents =
      some g') (hs : g.Sound B c) (hn : c.Own node) (hf : node ∉ g.held)
    (hop : opCanInplace (c.tensor node).op = true)
    (hp : ∀ p ∈ parents, p ∈ c.srcs node ∧ p ≠ node) :
    g'.Sound B c ∧ ∃ parent, TakenPlace c g node parent g' := by
  induction parents with
  | nil => simp [reuseParent] at h
  | cons p ps ih =>
    obtain ⟨hsrc, hpn⟩ := hp p List.mem_cons_self
    have ih := fun h => ih h fun q hq => hp q (List.mem_cons_of_mem _ hq)
    rw [reuseParent] at h
    simp only [isOwn, setNode_hash_of_ne hpn] at h
    split_ifs at h with hc
    · obtain ⟨hheld, hout, hlay, hch, hvi⟩ := hc
      have hpown := hs.own p hheld
      rw [hpown.1] at h
      have h := Option.some.inj h
      have hself : g'.hash node = { g.hash p with
          nChildren := (g.hash node).nChildren, nViews := (g.hash node).nViews } := by
        rw [← h, takePlace]
        simp only [setNode_hash_of_ne hpn.symm, setNode_hash_of_ne hpn, setNode_hash_self]
        rw [show (g.hash p).allocated = true from hheld]
      have hparent : g'.hash p = { g.hash p with allocated := false } := by
        rw [← h, takePlace]
        simp only [setNode_hash_of_ne hpn, setNode_hash_self]
      have hother : ∀ t, t ≠ node → t ≠ p → g'.hash t = g.hash t := fun t htn htp => by
        rw [← h, takePlace]
        simp only [setNode_hash_of_ne htn, setNode_hash_of_ne htp]
      have htal : g'.tallocs = g.tallocs := by
        rw [← h]
        rfl
      have hkeeps : Keeps (· ≠ node) g g' := by
        refine ⟨fun t htn => ?_, fun b => by rw [htal]⟩
        rcases eq_or_ne t p with rfl | htp
        · simp only [loc, hparent]
        · simp only [loc, hother t htn htp]
      have hloc : g'.loc node = g.loc p := by simp only [loc, hself]
      have hset : g'.held = insert node (g.held \ {p}) := by
        ext t
        rcases eq_or_ne t node with rfl | htn
        · simpa [held, hself] using hheld
        · rcases eq_or_ne t p with rfl | htp
          · simp [held, hparent, htn]
          · simp [held, hother t htn htp, htn, htp]
      refine ⟨⟨?_, ?_, ?_⟩, p, ⟨hn, hf, hop, hsrc, hheld, ?_, hlay, hch, hvi, hset, hkeeps, hloc,
        ?_⟩⟩
      · rw [hset, show g'.free = g.free by simp only [free, htal]]
        refine hs.account.handOver hheld hf
          (fun u hu => memory_congr (hkeeps.loc u fun hun => hf (hun ▸ hu))) ?_
        simp only [memory, block, hloc, ComputeGraph.allocSize, ComputeGraph.sameLayout_iff.1 hlay]
      · rw [htal]
        exact hs.apart
      · rw [hset]
        rintro t (rfl | htm)
        · exact hn
        · exact hs.own t htm.1
      · simpa [hpown.1] using hout
      · intro t
        rcases eq_or_ne t node with rfl | htn
        · simp [hself]
        · rcases eq_or_ne t p with rfl | htp
          · simp [hparent]
          · simp [hother t htn htp]
    · exact ih h

/-- What allocating a tensor does. -/
theorem allocateNode_spec {id : ℤ} (h : g.allocateNode B c node id = some g') (hs : g.Sound B c)
    (hn : node ∉ c.srcs node) :
    g'.Sound B c ∧ ((g' = g ∧ (c.Own node → node ∈ g.held)) ∨ NewPlace B c g node id.toNat g' ∨
      ∃ parent, TakenPlace c g node parent g') := by
  unfold allocateNode at h
  split_ifs at h with hid hal hop
  · obtain ⟨hown, hf⟩ := own_and_free hal
    dsimp only at h
    split at h
    · rename_i hr
      obtain rfl := Option.some.inj h
      obtain ⟨hs', hp⟩ := reuseParent_spec hr hs hown hf hop fun p hp =>
        ⟨hp, fun hpn => hn (hpn ▸ hp)⟩
      exact ⟨hs', .inr (.inr hp)⟩
    · obtain ⟨hs', hp⟩ := newPlace_spec h hs hown hf
      exact ⟨hs', .inr (.inl hp)⟩
  · obtain ⟨hown, hf⟩ := own_and_free hal
    obtain ⟨hs', hp⟩ := newPlace_spec h hs hown hf
    exact ⟨hs', .inr (.inl hp)⟩
  · obtain rfl := Option.some.inj h
    refine ⟨hs, .inl ⟨rfl, isAllocated_or_isView.1 ?_⟩⟩
    tauto

/-! ## Letting a parent go -/

theorem freeNode_spec (h : g.freeNode B c node = some g') (hs : g.Sound B c)
    (hn : node ∈ g.held) :
    g'.Sound B c ∧ SameCounts g g' ∧ Keeps (fun _ => True) g g' ∧
      ((c.tensor node).output = true ∧ g'.held = g.held ∨
        (c.tensor node).output = false ∧ g'.held = g.held \ {node}) := by
  unfold freeNode at h
  split_ifs at h with hout
  · obtain rfl := Option.some.inj h
    exact ⟨hs, fun t => ⟨rfl, rfl⟩, .rfl, .inl ⟨hout, rfl⟩⟩
  · simp only [Option.bind_eq_bind, Option.bind_eq_some_iff, Option.some.injEq] at h
    obtain ⟨alloc, ha, h⟩ := h
    have hfree : Disjoint (g.block B c node).span
        (cover (g.tallocs (B.bufts (g.loc node).1)).freeBlocks) := by
      rw [Set.disjoint_left]
      intro a hb hc
      exact Set.disjoint_left.1 (hs.account.kept node hn)
        (show (B.bufts (g.loc node).1, a) ∈ g.memory B c node from ⟨rfl, hb⟩) hc
    obtain ⟨hg, hm⟩ := DynTallocr.freeTensor_spec ha (hs.apart _) hfree
    have hself : g'.hash node = { g.hash node with allocated := false } := by
      rw [← h, setNode_hash_self]
    have hother : ∀ t, t ≠ node → g'.hash t = g.hash t := fun t htn => by
      rw [← h, setNode_hash_of_ne htn, setTalloc_hash]
    have htal : g'.tallocs = Function.update g.tallocs (B.bufts (g.loc node).1) alloc := by
      rw [← h]
      rfl
    have hkeeps : Keeps (fun _ => True) g g' := by
      refine ⟨fun t _ => ?_, fun b => ?_⟩
      · rcases eq_or_ne t node with rfl | htn
        · simp only [loc, hself]
        · simp only [loc, hother t htn]
      · rw [htal]
        rcases eq_or_ne b (B.bufts (g.loc node).1) with rfl | hb
        · rw [Function.update_self, hm, loc]
        · rw [Function.update_of_ne hb]
    have hset : g'.held = g.held \ {node} := by
      ext t
      rcases eq_or_ne t node with rfl | htn
      · simp [held, hself]
      · simp [held, hother t htn, htn]
    refine ⟨⟨?_, ?_, ?_⟩, ?_, hkeeps, .inr ⟨by simpa using hout, hset⟩⟩
    · rw [hset, show g'.memory B c = g.memory B c from
        funext fun t => memory_congr (hkeeps.loc t trivial)]
      refine hs.account.give hn ?_
      ext ⟨b, a⟩
      simp only [free, memory, Set.mem_ofPred_eq, Set.mem_union, htal]
      rcases eq_or_ne b (B.bufts (g.loc node).1) with rfl | hb
      · rw [Function.update_self, hg.all]
        simp [block, loc, ComputeGraph.allocSize]
      · rw [Function.update_of_ne hb]
        simp [hb]
    · intro b
      rw [htal]
      rcases eq_or_ne b (B.bufts (g.loc node).1) with rfl | hb
      · rw [Function.update_self]
        exact hg.apart
      · rw [Function.update_of_ne hb]
        exact hs.apart b
    · rw [hset]
      exact fun t ht => hs.own t ht.1
    · intro t
      rcases eq_or_ne t node with rfl | htn
      · simp [hself]
      · simp [hother t htn]

/-- A record that differs in its counts is as good. -/
theorem Sound.recount (hs : g.Sound B c) (t : V) (hn : HashNode)
    (hb : hn.bufferId = (g.hash t).bufferId)
    (ho : hn.offset = (g.hash t).offset) (ha : hn.allocated = (g.hash t).allocated) :
    (g.setNode t hn).Sound B c ∧ (g.setNode t hn).held = g.held ∧
      Keeps (fun _ => True) g (g.setNode t hn) := by
  have hkeeps : Keeps (fun _ => True) g (g.setNode t hn) := by
    refine ⟨fun u _ => ?_, fun b => le_rfl⟩
    rw [loc, setNode_hash]
    split_ifs with h
    · rw [hb, ho, h, loc]
    · rfl
  have hheld : (g.setNode t hn).held = g.held := by
    ext u
    simp only [held, Set.mem_ofPred_eq, setNode_hash]
    split_ifs with h
    · rw [ha, h]
    · rfl
  refine ⟨⟨?_, hs.apart, ?_⟩, hheld, hkeeps⟩
  · rw [hheld, show (g.setNode t hn).memory B c = g.memory B c from
      funext fun t => memory_congr (hkeeps.loc t trivial)]
    exact hs.account
  · rw [hheld]
    exact hs.own

variable (c) in
/-- What becomes of the plan when `parent` has one reader less. -/
structure Updates (g : AllocPlan V Buft) (parent : V) (g' : AllocPlan V Buft) : Prop where
  keeps : Keeps (fun _ => True) g g'
  children : ∀ t, (g'.hash t).nChildren = (g.hash t).nChildren - if t = parent then 1 else 0
  views : ∀ r, (g'.hash r).nViews = (g.hash r).nViews -
    if (c.tensor parent).viewSrc = some r ∧ (g.hash parent).nChildren = 1 ∧
      (g.hash parent).nViews = 0 then 1 else 0
  held : g'.held ⊆ g.held
  freed : ∀ t ∈ g.held, t ∉ g'.held → (c.tensor t).output = false ∧ (g'.hash t).nChildren = 0 ∧
    (g'.hash t).nViews = 0 ∧ (t = parent ∨ (c.tensor parent).viewSrc = some t)

/-- Once it is counted what a parent has left, it stays or is freed. -/
theorem Updates.of_freeNode {x : V} (hk : Keeps (fun _ => True) g g')
    (hc : ∀ t, (g'.hash t).nChildren = (g.hash t).nChildren - if t = parent then 1 else 0)
    (hv : ∀ r, (g'.hash r).nViews = (g.hash r).nViews -
      if (c.tensor parent).viewSrc = some r ∧ (g.hash parent).nChildren = 1 ∧
        (g.hash parent).nViews = 0 then 1 else 0)
    (hh : g'.held = g.held) (hs : g'.Sound B c) (hx : x ∈ g'.held)
    (hx0 : (g'.hash x).nChildren = 0 ∧ (g'.hash x).nViews = 0)
    (hxp : x = parent ∨ (c.tensor parent).viewSrc = some x)
    (h : g'.freeNode B c x = some g'') : g''.Sound B c ∧ Updates c g parent g'' := by
  obtain ⟨hs', hcounts, hk', hcase⟩ := freeNode_spec h hs hx
  refine ⟨hs', hk.trans hk', fun t => (hcounts t).1.trans (hc t), fun r =>
    (hcounts r).2.trans (hv r), ?_, fun t ht ht' => ?_⟩
  · rcases hcase with ⟨-, he⟩ | ⟨-, he⟩
    · rw [he, hh]
    · rw [he, hh]
      exact Set.sdiff_subset
  · rcases hcase with ⟨-, he⟩ | ⟨ho, he⟩
    · exact absurd (he ▸ hh ▸ ht) ht'
    · rw [he, hh] at ht'
      obtain rfl : t = x := by
        by_contra htx
        exact ht' ⟨ht, htx⟩
      exact ⟨ho, (hcounts t).1.trans hx0.1, (hcounts t).2.trans hx0.2, hxp⟩

theorem Updates.of_held (hk : Keeps (fun _ => True) g g')
    (hc : ∀ t, (g'.hash t).nChildren = (g.hash t).nChildren - if t = parent then 1 else 0)
    (hv : ∀ r, (g'.hash r).nViews = (g.hash r).nViews -
      if (c.tensor parent).viewSrc = some r ∧ (g.hash parent).nChildren = 1 ∧
        (g.hash parent).nViews = 0 then 1 else 0)
    (hh : g'.held = g.held) : Updates c g parent g' :=
  ⟨hk, hc, hv, hh.subset, fun _ ht ht' => absurd (hh ▸ ht) ht'⟩

theorem updateParent_spec (h : updateParent B c g parent = some g') (hs : g.Sound B c)
    (hp : (c.tensor parent).viewSrc ≠ some parent) :
    g'.Sound B c ∧ Updates c g parent g' := by
  unfold updateParent at h
  dsimp only at h
  set g₁ := g.setNode parent { g.hash parent with nChildren := (g.hash parent).nChildren - 1 }
    with hg₁
  obtain ⟨hs₁, hh₁, hk₁⟩ := hs.recount parent
    { g.hash parent with nChildren := (g.hash parent).nChildren - 1 } rfl rfl rfl
  rw [← hg₁] at hs₁ hh₁ hk₁
  have hc₁ : ∀ t, (g₁.hash t).nChildren = (g.hash t).nChildren - if t = parent then 1 else 0 := by
    intro t
    rw [hg₁, setNode_hash]
    split_ifs with htp
    · rw [htp]
    · rw [Int.sub_zero]
  have hv₁ : ∀ r, (g₁.hash r).nViews = (g.hash r).nViews := by
    intro r
    rw [hg₁, setNode_hash]
    split_ifs with hrp
    · rw [hrp]
    · rfl
  have hcond : (g₁.hash parent).nChildren = 0 ∧ (g₁.hash parent).nViews = 0 ↔
      (g.hash parent).nChildren = 1 ∧ (g.hash parent).nViews = 0 := by
    rw [hc₁, hv₁, if_pos rfl]
    omega
  rcases em ((g₁.hash parent).nChildren = 0 ∧ (g₁.hash parent).nViews = 0) with hz | hz
  · rw [if_pos hz] at h
    rw [hcond] at hz
    split at h
    · rename_i v hview
      have hvp : v ≠ parent := fun hvp => hp (hvp ▸ hview)
      set g₂ := g₁.setNode v { g₁.hash v with nViews := (g₁.hash v).nViews - 1 } with hg₂
      obtain ⟨hs₂, hh₂, hk₂⟩ := hs₁.recount v
        { g₁.hash v with nViews := (g₁.hash v).nViews - 1 } rfl rfl rfl
      rw [← hg₂] at hs₂ hh₂ hk₂
      have hc₂ : ∀ t, (g₂.hash t).nChildren =
          (g.hash t).nChildren - if t = parent then 1 else 0 := by
        intro t
        rw [← hc₁, hg₂, setNode_hash]
        split_ifs with htv
        · rw [htv]
        · rfl
      have hv₂ : ∀ r, (g₂.hash r).nViews = (g.hash r).nViews -
          if (c.tensor parent).viewSrc = some r ∧ (g.hash parent).nChildren = 1 ∧
            (g.hash parent).nViews = 0 then 1 else 0 := by
        intro r
        rw [hg₂, setNode_hash, hview]
        rcases eq_or_ne r v with rfl | hrv
        · rw [if_pos rfl, if_pos ⟨rfl, hz⟩, hv₁]
        · rw [if_neg hrv, if_neg (fun h => hrv (Option.some.inj h.1).symm), hv₁, Int.sub_zero]
      split_ifs at h with hf
      · exact Updates.of_freeNode (hk₁.trans hk₂) hc₂ hv₂ (hh₂.trans hh₁) hs₂ hf.2.2
          ⟨hf.2.1, hf.1⟩ (.inr hview) h
      · obtain rfl := Option.some.inj h
        exact ⟨hs₂, .of_held (hk₁.trans hk₂) hc₂ hv₂ (hh₂.trans hh₁)⟩
    · rename_i hview
      have hv₁' : ∀ r, (g₁.hash r).nViews = (g.hash r).nViews -
          if (c.tensor parent).viewSrc = some r ∧ (g.hash parent).nChildren = 1 ∧
            (g.hash parent).nViews = 0 then 1 else 0 := by
        intro r
        rw [hview, if_neg (fun h => by simp at h), hv₁, Int.sub_zero]
      split_ifs at h with hf
      · exact Updates.of_freeNode hk₁ hc₁ hv₁' hh₁ hs₁ hf (hcond.2 hz) (.inl rfl) h
      · obtain rfl := Option.some.inj h
        exact ⟨hs₁, .of_held hk₁ hc₁ hv₁' hh₁⟩
  · rw [if_neg hz] at h
    obtain rfl := Option.some.inj h
    refine ⟨hs₁, .of_held hk₁ hc₁ (fun r => ?_) hh₁⟩
    rw [if_neg (fun h => hz (hcond.2 h.2)), hv₁, Int.sub_zero]

end AllocPlan

end LamaServer
