import Mathlib.Order.Nat
import Mathlib.Data.List.Nodup
import LamaServer.Lib.Except
import LamaServer.Sched

/-!
# The splits of a graph

Pass 5 cuts the nodes into ranges that follow each other. The nodes that a split computes are of its
backend; a tensor is copied once for a backend, for a node of the split that needs the copy, and a
node has copies in the place of those of its sources that its backend cannot read
(`cutGraph_spec`).

A copy is made at the start of a split and read by nodes of that split and of later ones, so it is
as good as what it is a copy of when nothing is written there in between. In the split that makes
the copy nothing writes there before the first reader, since the backend of the split cannot read
that buffer; behind that reader it is up to the graph (`computeSplits_eq`).
-/

namespace LamaServer

/-! ## Lists of splits -/

section Lists

variable {T : Type} {splits splits' splits'' : List (SchedSplit T)} {split : SchedSplit T} {a b e : ℕ}

/-- The copies that are made for the splits. -/
def fetches (splits : List (SchedSplit T)) : List (T × ℕ) :=
  splits.flatMap fun split => split.inputs.map (·, split.backendId)

/-- The splits follow each other from one node to another. -/
def Covers : ℕ → List (SchedSplit T) → ℕ → Prop
  | a, [], b => a = b
  | a, split :: splits, b => split.iStart = a ∧ a ≤ split.iEnd ∧ Covers split.iEnd splits b

/-- There is a split that brings the tensor to the backend, and it does not start behind `k`. -/
def Brings (splits : List (SchedSplit T)) (t : T) (backendId k : ℕ) : Prop :=
  ∃ split ∈ splits, split.backendId = backendId ∧ t ∈ split.inputs ∧ split.iStart ≤ k

/-- What the splits bring, others bring too. -/
def SplitsLE (splits splits' : List (SchedSplit T)) : Prop :=
  ∀ t backendId k, Brings splits t backendId k → Brings splits' t backendId k

theorem mem_fetches {t : T} : (t, b) ∈ fetches splits ↔
    ∃ split ∈ splits, split.backendId = b ∧ t ∈ split.inputs := by
  simp only [fetches, List.mem_flatMap, List.mem_map, Prod.mk.injEq]
  refine exists_congr fun split => and_congr_right fun _ => ⟨?_, ?_⟩
  · rintro ⟨t, ht, rfl, hb⟩
    exact ⟨hb, ht⟩
  · rintro ⟨hb, ht⟩
    exact ⟨t, ht, rfl, hb⟩

theorem fetches_concat : fetches (splits ++ [split]) =
    fetches splits ++ split.inputs.map (·, split.backendId) := by
  simp [fetches]

theorem covers_concat :
    Covers a (splits ++ [split]) e ↔
      Covers a splits split.iStart ∧ split.iStart ≤ split.iEnd ∧ split.iEnd = e := by
  induction splits generalizing a with
  | nil =>
    simp only [List.nil_append, Covers]
    exact ⟨fun ⟨h, hle, he⟩ => ⟨h.symm, h ▸ hle, he⟩, fun ⟨h, hle, he⟩ => ⟨h.symm, h ▸ hle, he⟩⟩
  | cons first splits ih => simp only [List.cons_append, Covers, ih, and_assoc]

theorem Covers.le (h : Covers a splits e) : a ≤ e := by
  induction splits generalizing a with
  | nil => exact le_of_eq h
  | cons first splits ih => exact h.2.1.trans (ih h.2.2)

theorem Covers.bounds (h : Covers a splits e) (hmem : split ∈ splits) :
    a ≤ split.iStart ∧ split.iStart ≤ split.iEnd ∧ split.iEnd ≤ e := by
  induction splits generalizing a with
  | nil => simp at hmem
  | cons first splits ih =>
    obtain ⟨rfl, hle, hrest⟩ := h
    rcases List.mem_cons.1 hmem with rfl | hmem
    · exact ⟨le_rfl, hle, hrest.le⟩
    · exact ⟨hle.trans (ih hrest hmem).1, (ih hrest hmem).2⟩

theorem SplitsLE.trans (h : SplitsLE splits splits') (h' : SplitsLE splits' splits'') :
    SplitsLE splits splits'' := fun t b k hb => h' t b k (h t b k hb)

end Lists

namespace Splitting

variable {T : Type} {st : Splitting T} {t : T} {e e' : ℕ}

theorem forall_endSplit {p : SchedSplit T → Prop} : (∀ split ∈ st.endSplit e, p split) ↔
    (∀ split ∈ st.splits, p split) ∧ p ⟨st.backendId, st.iStart, e, st.inputs⟩ := by
  simp only [endSplit, List.mem_append, List.mem_singleton, or_imp, forall_and, forall_eq]

theorem brings_endSplit {b k : ℕ} : Brings (st.endSplit e) t b k ↔
    Brings st.splits t b k ∨ st.backendId = b ∧ t ∈ st.inputs ∧ st.iStart ≤ k := by
  simp only [Brings, endSplit, List.mem_append, List.mem_singleton, or_and_right, exists_or,
    exists_eq_left]

theorem fetches_endSplit : fetches (st.endSplit e) =
    fetches st.splits ++ st.inputs.map (·, st.backendId) := by
  simp [endSplit, fetches_concat]

theorem splitsLE_endSplit : SplitsLE (st.endSplit e) (st.endSplit e') := fun t b k h => by
  rw [brings_endSplit] at h ⊢
  exact h

end Splitting

namespace Sched

variable {T B : Type} {sched : Sched T B} {ids : BackendIds T} {nodes : List T} {splits : List (SchedSplit T)}
  {st st' : Splitting T} {node t : T} {e k : ℕ}

/-- The node is at this place and is computed. -/
def Computes (sched : Sched T B) (nodes : List T) (k : ℕ) (node : T) : Prop :=
  nodes[k]? = some node ∧ (sched.tensor node).isViewOp = false

/-- The splits are those of the nodes up to `e`. -/
structure SplitsOf (sched : Sched T B) (ids : BackendIds T) (nodes : List T)
    (splits : List (SchedSplit T)) (e : ℕ) : Prop where
  covers : Covers 0 splits e
  backend : ∀ split ∈ splits, ∀ k node, split.iStart ≤ k → k < split.iEnd →
    sched.Computes nodes k node → ids node = some split.backendId
  needed : ∀ split ∈ splits, ∀ t ∈ split.inputs, sched.needsCopy ids t split.backendId ∧
    ∃ k node, split.iStart ≤ k ∧ k < split.iEnd ∧ sched.Computes nodes k node ∧
      t ∈ (sched.tensor node).src
  once : (fetches splits).Nodup
  bounded : ∀ split ∈ splits, split.inputs.length ≤ maxSplitInputs

/-- The splits bring the nodes up to `e` what they need. -/
def Serves (sched : Sched T B) (ids : BackendIds T) (nodes : List T)
    (splits : List (SchedSplit T)) (e : ℕ) : Prop :=
  ∀ k node b t, k < e → sched.Computes nodes k node → ids node = some b →
    t ∈ (sched.tensor node).src → sched.needsCopy ids t b → Brings splits t b k

/-- The sources of a node in its split. -/
def splitSrcs (sched : Sched T B) (ids : BackendIds T) (node : T) : List (SplitSrc T) :=
  (sched.tensor node).src.map fun src =>
    if (sched.tensor node).isViewOp then .tensor src
    else if sched.needsCopy ids src ((ids node).getD 0) then .copy src ((ids node).getD 0)
    else .tensor src

/-- What holds when the nodes up to `e` are in splits. -/
structure Visited (sched : Sched T B) (ids : BackendIds T) (nodes : List T) (st : Splitting T)
    (e : ℕ) : Prop where
  splits : sched.SplitsOf ids nodes (st.endSplit e) e
  copies : ∀ t b, ids t ≠ some b → (st.copies t b = true ↔ (t, b) ∈ fetches (st.endSplit e))

theorem Visited.iStart_le (h : sched.Visited ids nodes st e) : st.iStart ≤ e :=
  have hcovers := covers_concat.1 h.splits.covers
  hcovers.2.1.trans_eq hcovers.2.2

/-- The current split goes on with the next node. -/
theorem Visited.extend (h : sched.Visited ids nodes st e)
    (hnode : ∀ node, sched.Computes nodes e node → ids node = some st.backendId) :
    sched.Visited ids nodes st (e + 1) := by
  have hends := covers_concat.1 h.splits.covers
  have hbackend := Splitting.forall_endSplit.1 h.splits.backend
  have hneeded := Splitting.forall_endSplit.1 h.splits.needed
  have hbounded := Splitting.forall_endSplit.1 h.splits.bounded
  refine ⟨⟨covers_concat.2 ⟨hends.1, Nat.le_succ_of_le h.iStart_le, rfl⟩,
    Splitting.forall_endSplit.2 ⟨hbackend.1, fun k node hstart hend hk => ?_⟩,
    Splitting.forall_endSplit.2 ⟨hneeded.1, fun t ht => ⟨(hneeded.2 t ht).1, ?_⟩⟩, ?_,
    Splitting.forall_endSplit.2 hbounded⟩, ?_⟩
  · rcases Nat.lt_succ_iff_lt_or_eq.1 hend with hlt | rfl
    · exact hbackend.2 k node hstart hlt hk
    · exact hnode node hk
  · obtain ⟨-, k, node, hstart, hend, hk⟩ := hneeded.2 t ht
    exact ⟨k, node, hstart, Nat.lt_succ_of_lt hend, hk⟩
  · simpa only [Splitting.fetches_endSplit] using h.splits.once
  · simpa only [Splitting.fetches_endSplit] using h.copies

/-- A split starts, with no inputs yet. -/
theorem Visited.newSplit {b : ℕ} (h : sched.Visited ids nodes st e) :
    sched.Visited ids nodes
      { st with splits := st.endSplit e, backendId := b, iStart := e, inputs := [] } e := by
  refine ⟨⟨covers_concat.2 ⟨h.splits.covers, le_rfl, rfl⟩,
    Splitting.forall_endSplit.2 ⟨h.splits.backend, fun k node hstart hend => ?_⟩,
    Splitting.forall_endSplit.2 ⟨h.splits.needed, by simp⟩, ?_,
    Splitting.forall_endSplit.2 ⟨h.splits.bounded, Nat.zero_le _⟩⟩, ?_⟩
  · exact absurd hend (Nat.not_lt.2 hstart)
  · simpa [Splitting.fetches_endSplit] using h.splits.once
  · simpa [Splitting.fetches_endSplit] using h.copies

/-- What the loop over the sources of a node leaves as it is. -/
structure Sourced (st st' : Splitting T) (e : ℕ) : Prop where
  backendId : st'.backendId = st.backendId
  iStart : st'.iStart = st.iStart
  srcs : st'.srcs = st.srcs
  le : SplitsLE (st.endSplit e) (st'.endSplit e)

theorem Sourced.refl : Sourced st st e := ⟨rfl, rfl, rfl, fun _ _ _ h => h⟩

theorem Sourced.trans {st'' : Splitting T} (h : Sourced st st' e) (h' : Sourced st' st'' e) :
    Sourced st st'' e :=
  ⟨h'.backendId.trans h.backendId, h'.iStart.trans h.iStart, h'.srcs.trans h.srcs,
    h.le.trans h'.le⟩

variable [DecidableEq T]

/-- An input is added to the current split, for a node of it. -/
theorem Visited.addInput {src : T} (h : sched.Visited ids nodes st e)
    (hnode : sched.Computes nodes k node) (hstart : st.iStart ≤ k) (hk : k < e)
    (hsrc : src ∈ (sched.tensor node).src) (hneeds : sched.needsCopy ids src st.backendId)
    (hcopy : st.copies src st.backendId = false) (hlen : st.inputs.length < maxSplitInputs) :
    sched.Visited ids nodes
      { st.setCopy src st.backendId with inputs := st.inputs ++ [src] } e := by
  have hcovers := covers_concat.1 h.splits.covers
  have hbackend := Splitting.forall_endSplit.1 h.splits.backend
  have hneeded := Splitting.forall_endSplit.1 h.splits.needed
  have hbounded := Splitting.forall_endSplit.1 h.splits.bounded
  have hne : ids src ≠ some st.backendId := by
    simp only [needsCopy, Bool.and_eq_true, decide_eq_true_eq] at hneeds
    exact hneeds.1
  have hnew : (src, st.backendId) ∉ fetches (st.endSplit e) := fun hmem => by
    simp [(h.copies src st.backendId hne).2 hmem] at hcopy
  have hfetches : fetches (Splitting.endSplit
      { st.setCopy src st.backendId with inputs := st.inputs ++ [src] } e) =
      fetches (st.endSplit e) ++ [(src, st.backendId)] := by
    simp [Splitting.fetches_endSplit, Splitting.setCopy]
  refine ⟨⟨covers_concat.2 hcovers, Splitting.forall_endSplit.2 hbackend,
    Splitting.forall_endSplit.2 ⟨hneeded.1, fun t ht => ?_⟩, ?_,
    Splitting.forall_endSplit.2 ⟨hbounded.1, ?_⟩⟩, fun t b hb => ?_⟩
  · rcases List.mem_append.1 ht with ht | ht
    · exact hneeded.2 t ht
    · cases List.mem_singleton.1 ht
      exact ⟨hneeds, k, node, hstart, hk, hnode, hsrc⟩
  · rw [hfetches]
    exact List.nodup_append.2 ⟨h.splits.once, List.nodup_singleton _, by
      rintro a ha b hb rfl
      exact hnew (List.mem_singleton.1 hb ▸ ha)⟩
  · rw [List.length_append]
    exact hlen
  · rw [hfetches, List.mem_append, List.mem_singleton, Prod.mk.injEq, ← h.copies t b hb]
    simp only [Splitting.setCopy]
    by_cases ht : t = src
    · subst ht
      by_cases hb' : b = st.backendId <;> simp [hb']
    · simp [ht]

theorem Visited.addGraphInput {src : T} {b : ℕ} (h : sched.Visited ids nodes st e)
    (hids : ids src = some b) (hs : sched.addGraphInput st src b = some st') :
    sched.Visited ids nodes st' e ∧ Sourced st st' e ∧ ∀ b', ids src ≠ some b' →
      st'.copies src b' = st.copies src b' := by
  unfold Sched.addGraphInput at hs
  split_ifs at hs <;> cases hs
  · refine ⟨⟨h.splits, fun t b' hb' => ?_⟩, ⟨rfl, rfl, rfl, fun _ _ _ h => h⟩, fun b' hb' => ?_⟩
    · refine Iff.trans ?_ (h.copies t b' hb')
      by_cases ht : t = src
      · subst ht
        have hne : b' ≠ b := fun heq => hb' (heq ▸ hids)
        simp [Splitting.setCopy, hne]
      · simp [Splitting.setCopy, ht]
    · have hne : b' ≠ b := fun heq => hb' (heq ▸ hids)
      simp [Splitting.setCopy, hne]
  · exact ⟨h, .refl, fun _ _ => rfl⟩

theorem Visited.visitSrc {src : T} {srcs srcs' : List (SplitSrc T)}
    (h : sched.Visited ids nodes st e) (hnode : sched.Computes nodes k node)
    (hstart : st.iStart ≤ k) (hk : k < e) (hsrc : src ∈ (sched.tensor node).src)
    (hs : sched.visitSrc ids (st, srcs) src = some (st', srcs')) :
    sched.Visited ids nodes st' e ∧ Sourced st st' e ∧
      srcs' = srcs ++ [if sched.needsCopy ids src st.backendId then .copy src st.backendId
        else .tensor src] ∧
      (sched.needsCopy ids src st.backendId → Brings (st'.endSplit e) src st.backendId k) := by
  unfold Sched.visitSrc at hs
  rcases hids : ids src with _ | b <;> simp only [hids, Option.bind_eq_some_iff, reduceCtorEq] at hs
  obtain ⟨st₁, hinput, hs⟩ := hs
  obtain ⟨h₁, hsourced, hcopies⟩ := h.addGraphInput hids hinput
  rw [hsourced.backendId] at hs
  split_ifs at hs with hneeds hcopy hlen <;> cases hs
  · have hne : ids src ≠ some st.backendId := by
      simp only [needsCopy, Bool.and_eq_true, decide_eq_true_eq] at hneeds
      exact hneeds.1
    refine ⟨h₁, hsourced, by rw [if_pos hneeds], fun _ => ?_⟩
    obtain ⟨split, hsplit, hb, hmem⟩ := mem_fetches.1 ((h₁.copies _ _ hne).1 hcopy)
    have hle : ∀ split ∈ st'.endSplit e, split.iStart ≤ st'.iStart :=
      Splitting.forall_endSplit.2 ⟨fun split hsplit =>
        have hbounds := (covers_concat.1 h₁.splits.covers).1.bounds hsplit
        hbounds.2.1.trans hbounds.2.2, le_rfl⟩
    exact ⟨split, hsplit, hb, hmem, (hle split hsplit).trans (hsourced.iStart ▸ hstart)⟩
  · have hst : st₁.iStart ≤ k := hsourced.iStart ▸ hstart
    rw [← hsourced.backendId] at hneeds hcopy ⊢
    refine ⟨h₁.addInput hnode hst hk hsrc hneeds (by simpa using hcopy) hlen,
      hsourced.trans ⟨rfl, rfl, rfl, fun t b k hb => ?_⟩, by rw [if_pos hneeds], fun _ => ?_⟩
    · rw [Splitting.brings_endSplit] at hb ⊢
      exact hb.imp_right fun h => ⟨h.1, List.mem_append_left _ h.2.1, h.2.2⟩
    · exact Splitting.brings_endSplit.2 (.inr ⟨rfl, by simp, hst⟩)
  · exact ⟨h₁, hsourced, by rw [if_neg hneeds], fun hcopy => absurd hcopy hneeds⟩

/-- The loop over the sources of a node that the current split computes. -/
theorem Visited.visitSrcs {todo : List T} {srcs srcs' : List (SplitSrc T)}
    (h : sched.Visited ids nodes st e) (hnode : sched.Computes nodes k node)
    (hstart : st.iStart ≤ k) (hk : k < e) (hsub : todo ⊆ (sched.tensor node).src)
    (hs : todo.foldlM (sched.visitSrc ids) (st, srcs) = some (st', srcs')) :
    sched.Visited ids nodes st' e ∧ Sourced st st' e ∧
      srcs' = srcs ++ todo.map (fun src => if sched.needsCopy ids src st.backendId then
        .copy src st.backendId else .tensor src) ∧
      ∀ src ∈ todo, sched.needsCopy ids src st.backendId →
        Brings (st'.endSplit e) src st.backendId k := by
  induction todo generalizing st srcs with
  | nil =>
    cases hs
    exact ⟨h, .refl, by simp, by simp⟩
  | cons src todo ih =>
    obtain ⟨hsrc, hsub⟩ := List.cons_subset.1 hsub
    rw [List.foldlM_cons] at hs
    obtain ⟨⟨st₁, srcs₁⟩, hvisit, hs⟩ := Option.bind_eq_some_iff.1 hs
    obtain ⟨h₁, hsourced, rfl, hbrings⟩ := h.visitSrc hnode hstart hk hsrc hvisit
    obtain ⟨h', hsourced', rfl, hbrings'⟩ := ih h₁ (hsourced.iStart ▸ hstart) hsub hs
    rw [hsourced.backendId] at hbrings' ⊢
    refine ⟨h', hsourced.trans hsourced', by simp, fun t ht hneeds => ?_⟩
    rcases List.mem_cons.1 ht with rfl | ht
    · exact hsourced'.le _ _ _ (hbrings hneeds)
    · exact hbrings' t ht hneeds

theorem Visited.splitNode (h : sched.Visited ids nodes st e) (hnode : nodes[e]? = some node)
    (hserves : sched.Serves ids nodes (st.endSplit e) e)
    (hs : sched.splitNode ids st e node = some st') :
    sched.Visited ids nodes st' (e + 1) ∧
      sched.Serves ids nodes (st'.endSplit (e + 1)) (e + 1) ∧
      st'.srcs = st.srcs ++ [sched.splitSrcs ids node] := by
  have hserve : ∀ {st' : Splitting T}, SplitsLE (st.endSplit e) (st'.endSplit (e + 1)) →
      (∀ b t, ids node = some b → t ∈ (sched.tensor node).src → sched.needsCopy ids t b →
        (sched.tensor node).isViewOp = false → Brings (st'.endSplit (e + 1)) t b e) →
      sched.Serves ids nodes (st'.endSplit (e + 1)) (e + 1) := by
    intro st' hle hlast k node' b t hk hk' hb ht hneeds
    rcases Nat.lt_succ_iff_lt_or_eq.1 hk with hlt | rfl
    · exact hle _ _ _ (hserves k node' b t hlt hk' hb ht hneeds)
    · cases hnode.symm.trans hk'.1
      exact hlast b t hb ht hneeds hk'.2
  unfold Sched.splitNode at hs
  split_ifs at hs with hview
  · cases hs
    refine ⟨Visited.extend ⟨h.splits, h.copies⟩ fun node' hk => ?_,
      hserve Splitting.splitsLE_endSplit fun b t _ _ _ hview' => ?_, by simp [splitSrcs, hview]⟩
    · cases hnode.symm.trans hk.1
      exact absurd hk.2 (by simp [hview])
    · simp [hview] at hview'
  · rcases hids : ids node with _ | b <;> simp only [hids, reduceCtorEq] at hs
    obtain ⟨⟨st₂, srcs₂⟩, hfold, hs⟩ := Option.map_eq_some_iff.1 hs
    cases hs
    generalize hst₁ : (if b ≠ st.backendId || sched.needNewSplit ids st node then
      ({ st with splits := st.endSplit e, backendId := b, iStart := e, inputs := [] } :
        Splitting T) else st) = st₁ at hfold
    obtain ⟨h₁, hb, hsrcs, hle⟩ : sched.Visited ids nodes st₁ e ∧ st₁.backendId = b ∧
        st₁.srcs = st.srcs ∧ SplitsLE (st.endSplit e) (st₁.endSplit e) := by
      split_ifs at hst₁ with hnew <;> cases hst₁
      · exact ⟨h.newSplit, rfl, rfl, fun t b k hbrings => Splitting.brings_endSplit.2 (.inl hbrings)⟩
      · simp only [ne_eq, Bool.or_eq_true, decide_eq_true_eq, not_or, not_not] at hnew
        exact ⟨h, hnew.1.symm, rfl, fun _ _ _ hbrings => hbrings⟩
    have hcomputes : sched.Computes nodes e node := ⟨hnode, by simpa using hview⟩
    have hext : sched.Visited ids nodes st₁ (e + 1) := h₁.extend fun node' hk => by
      cases hnode.symm.trans hk.1
      rw [hids, hb]
    obtain ⟨h₂, hsourced, rfl, hbrings⟩ :=
      hext.visitSrcs hcomputes h₁.iStart_le (Nat.lt_succ_self e) (List.Subset.refl _) hfold
    refine ⟨⟨h₂.splits, h₂.copies⟩, hserve ((hle.trans Splitting.splitsLE_endSplit).trans hsourced.le)
      fun b' t hb' ht hneeds _ => ?_, ?_⟩
    · cases hids.symm.trans hb'
      exact hb ▸ hbrings t ht (hb ▸ hneeds)
    · simp [hsourced.srcs, hsrcs, splitSrcs, hids, hb, hcomputes.2]

theorem Visited.splitNodes {todo : List T} (h : sched.Visited ids nodes st e)
    (htodo : todo = nodes.drop e) (hserves : sched.Serves ids nodes (st.endSplit e) e)
    (hs : sched.splitNodes ids e todo st = some st') :
    sched.Visited ids nodes st' (e + todo.length) ∧
      sched.Serves ids nodes (st'.endSplit (e + todo.length)) (e + todo.length) ∧
      st'.srcs = st.srcs ++ todo.map (sched.splitSrcs ids) := by
  induction todo generalizing e st with
  | nil =>
    cases hs
    exact ⟨h, hserves, by simp⟩
  | cons node todo ih =>
    obtain ⟨st₁, hnode, hs⟩ := Option.bind_eq_some_iff.1 hs
    have hat : nodes[e]? = some node := by
      rw [← List.head?_drop, ← htodo]
      rfl
    have hrest : todo = nodes.drop (e + 1) := by
      rw [← List.tail_drop, ← htodo]
      rfl
    obtain ⟨h₁, hserves₁, hsrcs₁⟩ := h.splitNode hat hserves hnode
    obtain ⟨h', hserves', hsrcs'⟩ := ih h₁ hrest hserves₁ hs
    rw [Nat.add_right_comm] at h' hserves'
    exact ⟨h', hserves', by simp [hsrcs', hsrcs₁]⟩

/-- The splits follow each other; what a split computes is of its backend; a tensor is copied once
for a backend, where a node of the split needs it, and before the first node that reads the copy;
and a node reads copies of what its backend cannot read, and nothing else. -/
theorem cutGraph_spec {stale : ℕ} {srcs : List (List (SplitSrc T))}
    (h : sched.cutGraph ids nodes stale = some (splits, srcs)) :
    sched.SplitsOf ids nodes splits nodes.length ∧
      sched.Serves ids nodes splits nodes.length ∧ srcs = nodes.map (sched.splitSrcs ids) := by
  obtain ⟨b, -, h⟩ := Option.bind_eq_some_iff.1 h
  obtain ⟨st, hs, heq⟩ := Option.map_eq_some_iff.1 h
  cases heq
  have hstart : sched.Visited ids nodes ⟨[], b, 0, [], fun _ _ => false, [], []⟩ 0 := by
    refine ⟨⟨⟨rfl, le_rfl, rfl⟩, ?_, ?_, ?_, ?_⟩, ?_⟩ <;>
      simp [Splitting.endSplit, fetches, maxSplitInputs]
  obtain ⟨h', hserves, hsrcs⟩ := hstart.splitNodes rfl
    (fun k _ _ _ hk => absurd hk (Nat.not_lt_zero k)) hs
  rw [Nat.zero_add] at h' hserves
  exact ⟨h'.splits, hserves, by simpa using hsrcs⟩

end Sched

/-! ## Computing the splits -/

namespace Sched

variable {T B S V : Type} {sched : Sched T B} {ids : BackendIds T}
  {nodes : List T} {splits before : List (SchedSplit T)} {split : SchedSplit T}
  {kernels : Kernels T S V} {storage : T → S} {m : SchedMemory T S V} {node t : T} {a e k : ℕ}

/-- No node writes to a tensor between two nodes that read it. -/
def ReadsInOrder (sched : Sched T B) (nodes : List T) : Prop :=
  ∀ i j k first node last t, i < j → j < k → sched.Computes nodes i first →
    sched.Computes nodes j node → sched.Computes nodes k last →
      t ∈ (sched.tensor first).src → t ∈ (sched.tensor last).src → sched.root t ≠ sched.root node

/-- A node writes to no tensor that its backend cannot read. -/
def WritesReadable (sched : Sched T B) (ids : BackendIds T) (nodes : List T) : Prop :=
  ∀ node ∈ nodes, (sched.tensor node).isViewOp = false → ∀ b, ids node = some b →
    ∀ reader ∈ nodes, ∀ t ∈ (sched.tensor reader).src, sched.root t = sched.root node →
      sched.bufferSupported ids t b

/-- What a node of a split needs is brought by the split or by one before it. -/
theorem brings_before {after : List (SchedSplit T)}
    (hserves : sched.Serves ids nodes (before ++ split :: after) nodes.length)
    (hafter : Covers split.iEnd after nodes.length) (hk : k < split.iEnd)
    (hnode : sched.Computes nodes k node) {b : ℕ} (hb : ids node = some b)
    (ht : t ∈ (sched.tensor node).src) (hneeds : sched.needsCopy ids t b) :
    Brings (before ++ [split]) t b k := by
  have hlt : k < nodes.length := List.getElem?_eq_some_iff.1 hnode.1 |>.1
  obtain ⟨s, hs, hbrings⟩ := hserves k node b t hlt hnode hb ht hneeds
  refine ⟨s, ?_, hbrings⟩
  rw [List.mem_append, List.mem_cons] at hs
  rcases hs with hs | rfl | hs
  · exact List.mem_append_left _ hs
  · simp
  · exact absurd ((hafter.bounds hs).1.trans hbrings.2.2) (Nat.not_le.2 hk)

/-! ## The storages after the first nodes -/

variable [DecidableEq T]

/-- The storages when the nodes in front of `k` are computed. -/
def storageAt (sched : Sched T B) (kernels : Kernels T S V) (storage : T → S) (nodes : List T)
    (k : ℕ) : T → S :=
  sched.computeGraph kernels storage (nodes.take k)

theorem storageAt_succ (hnode : nodes[k]? = some node) :
    sched.storageAt kernels storage nodes (k + 1) =
      sched.compute kernels (sched.storageAt kernels storage nodes k) node
        ((sched.tensor node).src.map
          (sched.valueOf kernels (sched.storageAt kernels storage nodes k))) := by
  simp [storageAt, computeGraph, List.take_add_one, hnode, List.foldl_append]

/-- A storage stays as it is while no node writes there. -/
theorem storageAt_root {r : T} (hle : a ≤ k) (hr : ∀ j node, a ≤ j → j < k →
      sched.Computes nodes j node → sched.root node ≠ r) :
    sched.storageAt kernels storage nodes k r = sched.storageAt kernels storage nodes a r := by
  induction k, hle using Nat.le_induction with
  | base => rfl
  | succ k hle ih =>
    refine Eq.trans ?_ (ih fun j node haj hjk => hr j node haj (Nat.lt_succ_of_lt hjk))
    rcases hnode : nodes[k]? with _ | node
    · simp [storageAt, List.take_add_one, hnode]
    · rw [storageAt_succ hnode, compute]
      split_ifs with hview
      · rfl
      · exact Function.update_of_ne
          (hr k node hle (Nat.lt_succ_self k) ⟨hnode, by simpa using hview⟩).symm _ _

/-- What is copied for a split is still what a node that reads the copy would read. -/
theorem valueOf_eq (hreads : sched.ReadsInOrder nodes) (hwrites : sched.WritesReadable ids nodes)
    (hsplits : sched.SplitsOf ids nodes splits nodes.length) (hsplit : split ∈ splits)
    (ht : t ∈ split.inputs) (hnode : sched.Computes nodes k node)
    (hsrc : t ∈ (sched.tensor node).src) (hstart : split.iStart ≤ k) :
    sched.valueOf kernels (sched.storageAt kernels storage nodes split.iStart) t =
      sched.valueOf kernels (sched.storageAt kernels storage nodes k) t := by
  obtain ⟨hneeds, i, first, hstarti, hendi, hfirst, hsrci⟩ := hsplits.needed split hsplit t ht
  have hbackend := hsplits.backend split hsplit
  unfold valueOf
  rw [storageAt_root hstart fun j writer hj hjk hwriter heq => ?_]
  -- up to the first reader the nodes are of the split, behind it of the graph
  rcases Nat.lt_or_ge i j with hij | hji
  · exact hreads i j k first writer node t hij hjk hfirst hwriter hnode hsrci hsrc heq.symm
  · have hb := hbackend j writer hj (Nat.lt_of_le_of_lt hji hendi) hwriter
    have hsupp := hwrites writer (List.mem_of_getElem? hwriter.1) hwriter.2 _ hb first
      (List.mem_of_getElem? hfirst.1) t hsrci heq.symm
    simp [needsCopy, hsupp] at hneeds

/-! ## The copies -/

theorem copyInputs_spec {inputs : List T} {b : ℕ} :
    (inputs.foldl (sched.copyInput kernels b) m).storage = m.storage ∧
      ∀ t b', (inputs.foldl (sched.copyInput kernels b) m).copy t b' =
        if b' = b ∧ t ∈ inputs then sched.valueOf kernels m.storage t else m.copy t b' := by
  induction inputs generalizing m with
  | nil => simp
  | cons input inputs ih =>
    obtain ⟨hstorage, hcopy⟩ := ih (m := sched.copyInput kernels b m input)
    refine ⟨hstorage, fun t b' => (hcopy t b').trans ?_⟩
    by_cases ht : t = input
    · subst ht
      by_cases hb : b' = b <;> simp [copyInput, hb]
    · simp [copyInput, ht]

/-- What holds where a split starts. -/
structure Synced (sched : Sched T B) (kernels : Kernels T S V) (storage : T → S) (nodes : List T)
    (splits : List (SchedSplit T)) (k : ℕ) (m : SchedMemory T S V) : Prop where
  synced : m.storage = sched.storageAt kernels storage nodes k
  copies : ∀ split ∈ splits, ∀ t ∈ split.inputs, m.copy t split.backendId =
    sched.valueOf kernels (sched.storageAt kernels storage nodes split.iStart) t

theorem Synced.copyInputs (h : sched.Synced kernels storage nodes before split.iStart m)
    (honce : (fetches (before ++ [split])).Nodup) :
    sched.Synced kernels storage nodes (before ++ [split]) split.iStart
      (split.inputs.foldl (sched.copyInput kernels split.backendId) m) := by
  obtain ⟨hstorage, hcopy⟩ :=
    @copyInputs_spec T B S V sched kernels m _ split.inputs split.backendId
  refine ⟨hstorage.trans h.synced, fun s hs t ht => ?_⟩
  rw [hcopy]
  rcases List.mem_append.1 hs with hs | hs
  · rw [if_neg, h.copies s hs t ht]
    rintro ⟨hb, hmem⟩
    rw [fetches_concat, List.nodup_append] at honce
    exact honce.2.2 (t, s.backendId) (mem_fetches.2 ⟨s, hs, rfl, ht⟩) (t, split.backendId)
      (List.mem_map_of_mem hmem) (by rw [hb])
  · cases List.mem_singleton.1 hs
    rw [if_pos ⟨rfl, ht⟩, h.synced]

/-- A node of a split reads what it would read where its sources are. -/
theorem Synced.computeNode (h : sched.Synced kernels storage nodes splits k m)
    (hsrc : ∀ t ∈ (sched.tensor node).src, (sched.tensor node).isViewOp = false →
      ∀ b, ids node = some b → sched.needsCopy ids t b →
        ∃ split ∈ splits, split.backendId = b ∧ t ∈ split.inputs ∧
          sched.valueOf kernels (sched.storageAt kernels storage nodes split.iStart) t =
            sched.valueOf kernels (sched.storageAt kernels storage nodes k) t)
    (hids : (sched.tensor node).isViewOp = false → (ids node).isSome)
    (hnode : nodes[k]? = some node) :
    sched.Synced kernels storage nodes splits (k + 1)
      (sched.computeNode kernels m (node, sched.splitSrcs ids node)) := by
  refine ⟨?_, h.copies⟩
  rw [storageAt_succ hnode]
  simp only [Sched.computeNode, h.synced]
  rcases hview : (sched.tensor node).isViewOp with _ | _
  · congr 1
    rw [splitSrcs, List.map_map]
    refine List.map_congr_left fun t ht => ?_
    obtain ⟨b, hb⟩ := Option.isSome_iff_exists.1 (hids hview)
    simp only [Function.comp_apply, hview, hb, Option.getD_some, Bool.false_eq_true, if_false]
    split_ifs with hneeds
    · obtain ⟨split, hsplit, rfl, hmem, heq⟩ := hsrc t ht hview b hb hneeds
      exact (h.copies split hsplit t hmem).trans heq
    · simp [srcValue, h.synced]
  · simp [compute, hview]

/-! ## The splits one after the other -/

section Splits

variable {after : List (SchedSplit T)}

/-- The nodes of a split. -/
theorem Synced.computeSlice {todo : List T} (hreads : sched.ReadsInOrder nodes)
    (hwrites : sched.WritesReadable ids nodes)
    (hsplits : sched.SplitsOf ids nodes (before ++ split :: after) nodes.length)
    (hserves : sched.Serves ids nodes (before ++ split :: after) nodes.length)
    (hafter : Covers split.iEnd after nodes.length) (hstart : split.iStart ≤ k)
    (htodo : todo = (nodes.take split.iEnd).drop k)
    (h : sched.Synced kernels storage nodes (before ++ [split]) k m) :
    sched.Synced kernels storage nodes (before ++ [split]) (k + todo.length)
      (todo.foldl (fun m node => sched.computeNode kernels m (node, sched.splitSrcs ids node)) m) := by
  induction todo generalizing k m with
  | nil => exact h
  | cons node todo ih =>
    have hnode : (nodes.take split.iEnd)[k]? = some node := by
      rw [← List.head?_drop, ← htodo]
      rfl
    obtain ⟨hk, hnode⟩ : k < split.iEnd ∧ nodes[k]? = some node := by
      simpa [List.getElem?_take] using hnode
    have hrest : todo = (nodes.take split.iEnd).drop (k + 1) := by
      rw [← List.tail_drop, ← htodo]
      rfl
    rw [List.length_cons, Nat.add_comm todo.length, ← Nat.add_assoc]
    refine ih (Nat.le_succ_of_le hstart) hrest (h.computeNode (fun t ht hview b hb hneeds => ?_)
      (fun hview => ?_) hnode)
    · obtain ⟨s, hs, rfl, hmem, hle⟩ :=
        brings_before hserves hafter hk ⟨hnode, hview⟩ hb ht hneeds
      have hs' : s ∈ before ++ split :: after := by
        rw [List.mem_append, List.mem_singleton] at hs
        rcases hs with hs | rfl <;> simp [*]
      exact ⟨s, hs, rfl, hmem, valueOf_eq hreads hwrites hsplits hs' hmem ⟨hnode, hview⟩ ht hle⟩
    · rw [hsplits.backend split (by simp) k node hstart hk ⟨hnode, hview⟩]
      rfl

theorem Synced.computeSplits (hreads : sched.ReadsInOrder nodes)
    (hwrites : sched.WritesReadable ids nodes)
    (hsplits : sched.SplitsOf ids nodes (before ++ after) nodes.length)
    (hserves : sched.Serves ids nodes (before ++ after) nodes.length)
    (hafter : Covers a after nodes.length) (h : sched.Synced kernels storage nodes before a m) :
    sched.Synced kernels storage nodes (before ++ after) nodes.length
      (sched.computeSplits kernels (nodes.map fun node => (node, sched.splitSrcs ids node)) after
        m) := by
  induction after generalizing before a m with
  | nil =>
    cases hafter
    simpa [Sched.computeSplits] using h
  | cons split after ih =>
    obtain ⟨rfl, hle, hafter⟩ := hafter
    have honce : (fetches (before ++ [split])).Nodup := by
      have := hsplits.once
      rw [List.append_cons, fetches, List.flatMap_append, List.nodup_append] at this
      exact this.1
    have hslice := (h.copyInputs honce).computeSlice hreads hwrites hsplits hserves hafter le_rfl rfl
    have hend : split.iStart + ((nodes.take split.iEnd).drop split.iStart).length = split.iEnd := by
      have := hafter.le
      rw [List.length_drop, List.length_take]
      omega
    rw [hend] at hslice
    rw [List.append_cons] at hsplits hserves ⊢
    have := ih hsplits hserves hafter hslice
    simpa [Sched.computeSplits, computeSplit, slice, ← List.map_take, ← List.map_drop,
      List.foldl_map] using this

end Splits

/-- Computing the splits leaves in the storages of the tensors what one backend would leave there
that computes the graph node by node. -/
theorem computeSplits_eq {stale : ℕ} {srcs : List (List (SplitSrc T))}
    (hreads : sched.ReadsInOrder nodes) (hwrites : sched.WritesReadable ids nodes)
    (h : sched.cutGraph ids nodes stale = some (splits, srcs)) :
    (sched.computeSplits kernels (nodes.zip srcs) splits m).storage =
      sched.computeGraph kernels m.storage nodes := by
  obtain ⟨hsplits, hserves, rfl⟩ := cutGraph_spec h
  have hzip : nodes.zip (nodes.map (sched.splitSrcs ids)) =
      nodes.map fun node => (node, sched.splitSrcs ids node) := by
    rw [← List.zip_map', List.map_id']
  have hstart : sched.Synced kernels m.storage nodes [] 0 m := ⟨rfl, by simp⟩
  have hend := Synced.computeSplits hreads hwrites (show sched.SplitsOf ids nodes ([] ++ splits) _ from hsplits)
    hserves hsplits.covers hstart
  rw [hzip, hend.synced, storageAt, List.take_length]

end Sched

end LamaServer
