import Mathlib
import LamaServer.Lib.Except
import LamaServer.Sched
import LamaServer.Proofs.SchedSplits

/-!
# What the scheduler makes of a graph

The passes give a backend to every node and to every source of one. A node that is computed gets a
backend that supports its operation, a tensor that is allocated a backend that supports its buffer,
and a view the backend of what it is a view of (`assignBackends_spec`). With the splits, a node
reads its sources where they are, if its backend can, and else copies of them
(`splitGraph_supported`); a graph that writes to allocated tensors only, and to none between two
reads, is computed as one backend would compute it (`splitGraph_computes`). A split that is full is
noticed for the next node only, and a node that needs one copy at most finds room
(`cutGraph_isSome`).
-/

namespace LamaServer

namespace Sched

variable {T B : Type} {sched : Sched T B} {user ids ids' : BackendIds T}
  {leafs nodes : List T} {node t v : T} {b : ℕ}

/-- A view of a tensor that is not allocated yet, with nothing to compute. -/
def Follows (sched : Sched T B) (nodes : List T) (t v : T) : Prop :=
  (sched.tensor t).viewSrc = some v ∧ sched.bufferOf t = none ∧
    ((sched.tensor t).isViewOp ∨ t ∉ nodes)

/-- What the scheduler is given: a graph with all its tensors, the last backend supports what there
is to compute, and what the user or an allocation has decided can be done. -/
structure SchedGraph (sched : Sched T B) (user : BackendIds T) (leafs nodes : List T) : Prop where
  lastOp : ∀ node ∈ nodes, sched.supportsOp (sched.nBackends - 1) node
  user_op : ∀ node ∈ nodes, ∀ b, user node = some b →
    b < sched.nBackends ∧ sched.supportsOp b node
  user_buft : ∀ t b buffer, user t = some b → sched.bufferOf t = some buffer →
    sched.supportsBuft b buffer.buft
  src_mem : ∀ node ∈ nodes, ∀ t ∈ (sched.tensor node).src, t ∈ leafs ++ nodes
  view_mem : ∀ t ∈ leafs ++ nodes, ∀ v, (sched.tensor t).viewSrc = some v →
    v ∈ leafs ++ nodes ∧ (sched.tensor v).viewSrc = none
  viewOp : ∀ t, (sched.tensor t).isViewOp → (sched.tensor t).viewSrc.isSome
  /-- a leaf has its data from the user or is allocated -/
  leaf : ∀ t ∈ leafs, (sched.tensor t).viewSrc = none →
    (sched.tensor t).buffer.isSome ∨ (sched.tensor t).isInput ∨ (user t).isSome
  follows : ∀ t v, sched.Follows nodes t v → user t = none ∧ (sched.tensor t).isInput = false ∧
    (sched.tensor t).buffer = none ∧
      ∀ s ∈ (sched.tensor t).src, (sched.tensor s).buffer.any (·.weights) = false
  /-- what writes to an allocated tensor has a view of it as a source -/
  writes : ∀ node ∈ nodes, (sched.tensor node).isViewOp = false →
    (sched.bufferOf node).isSome → ∃ s ∈ (sched.tensor node).src,
      sched.bufferOf s = sched.bufferOf node

/-- What holds of the backends that the first three passes give. -/
structure Placed (sched : Sched T B) (leafs nodes : List T) (ids : BackendIds T) : Prop where
  op : ∀ node ∈ nodes, (sched.tensor node).isViewOp = false → ∀ b, ids node = some b →
    b < sched.nBackends ∧ sched.supportsOp b node
  buft : ∀ t ∈ leafs ++ nodes, ∀ b buffer, ids t = some b → sched.bufferOf t = some buffer →
    sched.supportsBuft b buffer.buft
  follows : ∀ t v, sched.Follows nodes t v → ids t = none

/-- Tensors keep having backends. -/
def IdsLE (ids ids' : BackendIds T) : Prop := ∀ t, (ids t).isSome → (ids' t).isSome

theorem IdsLE.trans {ids'' : BackendIds T} (h : IdsLE ids ids') (h' : IdsLE ids' ids'') :
    IdsLE ids ids'' := fun t ht => h' t (h t ht)

theorem backendFromBuffer_eq_some {op : T} (h : sched.backendFromBuffer t op = some b) :
    b < sched.nBackends ∧ sched.supportsOp b op ∧
      ∀ buffer, sched.bufferOf t = some buffer → sched.supportsBuft b buffer.buft := by
  unfold backendFromBuffer at h
  rcases hbuffer : sched.bufferOf t with _ | buffer <;> simp only [hbuffer, reduceCtorEq] at h
  have hspec := List.find?_some h
  rw [Bool.and_eq_true] at hspec
  refine ⟨List.mem_range.1 (List.mem_of_find?_eq_some h), hspec.2, fun buffer' heq => ?_⟩
  cases heq
  exact hspec.1

theorem backendFromWeights_eq_some (h : sched.backendFromWeights t = some b) :
    (b < sched.nBackends ∧ sched.supportsOp b t) ∧
      ∃ s ∈ (sched.tensor t).src, (sched.tensor s).buffer.any (·.weights) := by
  unfold backendFromWeights at h
  split at h
  · cases h
  · rename_i s hs
    have hweights := List.find?_some hs
    rw [Bool.and_eq_true] at hweights
    refine ⟨?_, s, List.mem_of_find?_eq_some hs, hweights.2⟩
    rcases Option.or_eq_some_iff.1 h with h | ⟨-, h⟩
    · split_ifs at h
      have hspec := List.find?_some h
      rw [Bool.and_eq_true] at hspec
      have hlt := List.mem_range.1 (List.mem_of_find?_eq_some h)
      exact ⟨by omega, hspec.1⟩
    · exact ⟨(backendFromBuffer_eq_some h).1, (backendFromBuffer_eq_some h).2.1⟩

theorem bestBackend_spec (sched : Sched T B) (ids : BackendIds T) (node : T)
    (best : Option (ℕ × ℕ)) {l : List ℕ} (hl : ∀ b ∈ l, b < sched.nBackends)
    (hbest : ∀ p, best = some p → p.1 < sched.nBackends ∧ sched.supportsOp p.1 node) :
    let best' := l.foldl (fun best b =>
      if sched.supportsOp b node && best.all (·.2 < sched.nSupported ids node b) then
        some (b, sched.nSupported ids node b)
      else best) best
    (∀ p, best' = some p → p.1 < sched.nBackends ∧ sched.supportsOp p.1 node) ∧
      (best.isSome ∨ (∃ b ∈ l, sched.supportsOp b node) → best'.isSome) := by
  induction l generalizing best with
  | nil => exact ⟨hbest, fun h => by simpa using h⟩
  | cons b l ih =>
    rw [List.foldl_cons]
    split_ifs with hb
    · rw [Bool.and_eq_true] at hb
      obtain ⟨hspec, hsome⟩ := ih (some (b, sched.nSupported ids node b))
        (fun b hb => hl b (List.mem_cons_of_mem _ hb)) (by
          rintro _ ⟨⟩
          exact ⟨hl b List.mem_cons_self, hb.1⟩)
      exact ⟨hspec, fun _ => hsome (.inl rfl)⟩
    · obtain ⟨hspec, hsome⟩ := ih best (fun b hb => hl b (List.mem_cons_of_mem _ hb)) hbest
      refine ⟨hspec, fun h => hsome ?_⟩
      rcases h with h | ⟨b', hmem, hop⟩
      · exact .inl h
      · rcases List.mem_cons.1 hmem with rfl | hmem
        · rcases best with _ | p
          · simp [hop] at hb
          · exact .inl rfl
        · exact .inr ⟨b', hmem, hop⟩

theorem bufferOf_view (hv : (sched.tensor t).viewSrc = some v)
    (hroot : (sched.tensor v).viewSrc = none) : sched.bufferOf v = sched.bufferOf t := by
  simp [bufferOf, hv, hroot]

/-- What pass 1 gives a tensor. -/
theorem backendIdFromCur_spec {r : Option ℕ} (hg : sched.SchedGraph user leafs nodes)
    (ht : t ∈ leafs ++ nodes) (h : sched.backendIdFromCur t = some r) :
    (∀ b, r = some b → (t ∈ nodes → b < sched.nBackends ∧ sched.supportsOp b t) ∧
      ∀ buffer, sched.bufferOf t = some buffer → sched.supportsBuft b buffer.buft) ∧
    ((sched.bufferOf t).isSome ∨ (sched.tensor t).isInput → r.isSome) ∧
    ∀ v, sched.Follows nodes t v → r = none := by
  unfold backendIdFromCur at h
  rcases hbuffer : sched.backendFromBuffer t t with _ | b <;> simp only [hbuffer] at h
  · have hview : (sched.tensor t).viewSrc.bind (sched.backendFromBuffer · t) = none := by
      rcases hv : (sched.tensor t).viewSrc with _ | v
      · rfl
      · have hroot := (hg.view_mem t ht v hv).2
        rw [← hbuffer]
        simp [backendFromBuffer, bufferOf_view hv hroot]
    rw [hview] at h
    split_ifs at h with halloc hinput
    all_goals
      have hnone : sched.bufferOf t = none := by
        rw [Bool.or_eq_true, not_or] at halloc
        rcases hv : (sched.tensor t).viewSrc with _ | v
        · simpa [bufferOf, hv] using halloc.1
        · simpa [bufferOf, hv] using halloc.2
      cases h
    · refine ⟨fun b hb => ?_, fun _ => rfl, fun v hv => ?_⟩
      · cases hb
        exact ⟨fun hmem => ⟨Nat.sub_lt sched.nBackends_pos Nat.one_pos, hg.lastOp t hmem⟩,
          by simp [hnone]⟩
      · simp [(hg.follows t v hv).2.1] at hinput
    · refine ⟨fun b hb => ⟨fun _ => (backendFromWeights_eq_some hb).1, by simp [hnone]⟩,
        fun hor => by simp [hnone, hinput] at hor, fun v hv => ?_⟩
      rcases hw : sched.backendFromWeights t with _ | b
      · rfl
      · obtain ⟨-, s, hs, hweights⟩ := backendFromWeights_eq_some hw
        rw [(hg.follows t v hv).2.2.2 s hs] at hweights
        cases hweights
  · cases h
    obtain ⟨hlt, hop, hbuft⟩ := backendFromBuffer_eq_some hbuffer
    refine ⟨fun b' hb' => ?_, fun _ => rfl, fun v hv => ?_⟩
    · cases hb'
      exact ⟨fun _ => ⟨hlt, hop⟩, hbuft⟩
    · simp [backendFromBuffer, hv.2.1] at hbuffer

variable [DecidableEq T]

theorem idsLE_update : IdsLE ids (Function.update ids t (some b)) := fun t' ht => by
  by_cases h : t' = t
  · subst h
    simp
  · rwa [Function.update_of_ne h]

/-- A tensor gets a backend that it can have. -/
theorem Placed.update (h : sched.Placed leafs nodes ids)
    (hop : t ∈ nodes → (sched.tensor t).isViewOp = false →
      b < sched.nBackends ∧ sched.supportsOp b t)
    (hbuft : ∀ buffer, sched.bufferOf t = some buffer → sched.supportsBuft b buffer.buft)
    (hfollows : ∀ v, ¬ sched.Follows nodes t v) :
    sched.Placed leafs nodes (Function.update ids t (some b)) := by
  refine ⟨fun node hnode hview b' hb' => ?_, fun t' ht' b' buffer hb' hbuffer => ?_,
    fun t' v hv => ?_⟩
  · by_cases hne : node = t
    · subst hne
      rw [Function.update_self] at hb'
      cases hb'
      exact hop hnode hview
    · rw [Function.update_of_ne hne] at hb'
      exact h.op node hnode hview b' hb'
  · by_cases hne : t' = t
    · subst hne
      rw [Function.update_self] at hb'
      cases hb'
      exact hbuft buffer hbuffer
    · rw [Function.update_of_ne hne] at hb'
      exact h.buft t' ht' b' buffer hb' hbuffer
  · by_cases hne : t' = t
    · subst hne
      exact absurd hv (hfollows v)
    · rw [Function.update_of_ne hne]
      exact h.follows t' v hv

/-! ## Pass 1 -/

theorem Placed.assignFromCur (hg : sched.SchedGraph user leafs nodes)
    (h : sched.Placed leafs nodes ids) (ht : t ∈ leafs ++ nodes)
    (hs : sched.assignFromCur ids t = some ids') :
    sched.Placed leafs nodes ids' ∧ IdsLE ids ids' ∧
      ((sched.bufferOf t).isSome ∨ (sched.tensor t).isInput → (ids' t).isSome) := by
  unfold Sched.assignFromCur at hs
  split_ifs at hs with hnone
  · obtain ⟨r, hr, rfl⟩ := Option.map_eq_some_iff.1 hs
    obtain ⟨hspec, hsome, hfollows⟩ := backendIdFromCur_spec hg ht hr
    refine ⟨?_, fun t' ht' => ?_, by simpa using hsome⟩
    · rcases r with _ | b
      · rwa [← hnone, Function.update_eq_self]
      · exact h.update (fun hmem _ => (hspec b rfl).1 hmem) (hspec b rfl).2
          fun v hv => by simpa using hfollows v hv
    · have hne : t' ≠ t := by
        rintro rfl
        simp [hnone] at ht'
      rwa [Function.update_of_ne hne]
  · cases hs
    exact ⟨h, fun _ ht => ht, fun _ => Option.isSome_iff_ne_none.2 hnone⟩

theorem Placed.assignAll {todo : List T} (hg : sched.SchedGraph user leafs nodes)
    (h : sched.Placed leafs nodes ids) (hsub : todo ⊆ leafs ++ nodes)
    (hs : todo.foldlM sched.assignFromCur ids = some ids') :
    sched.Placed leafs nodes ids' ∧ IdsLE ids ids' ∧
      ∀ t ∈ todo, (sched.bufferOf t).isSome ∨ (sched.tensor t).isInput → (ids' t).isSome := by
  induction todo generalizing ids with
  | nil =>
    cases hs
    exact ⟨h, fun _ ht => ht, by simp⟩
  | cons t todo ih =>
    obtain ⟨ht, hsub⟩ := List.cons_subset.1 hsub
    rw [List.foldlM_cons] at hs
    obtain ⟨ids₁, hs₁, hs⟩ := Option.bind_eq_some_iff.1 hs
    obtain ⟨h₁, hle₁, hsome₁⟩ := h.assignFromCur hg ht hs₁
    obtain ⟨h', hle', hsome'⟩ := ih h₁ hsub hs
    refine ⟨h', hle₁.trans hle', fun u hu hor => ?_⟩
    rcases List.mem_cons.1 hu with rfl | hu
    · exact hle' u (hsome₁ hor)
    · exact hsome' u hu hor

/-! ## Passes 2 and 3 -/

/-- A node that is computed gets another backend, or its first one. -/
theorem Placed.place (h : sched.Placed leafs nodes ids) (hmem : node ∈ nodes)
    (hview : (sched.tensor node).isViewOp = false)
    (hop : b < sched.nBackends ∧ sched.supportsOp b node)
    (hbuft : ∀ buffer, sched.bufferOf node = some buffer → sched.supportsBuft b buffer.buft) :
    sched.Placed leafs nodes (Function.update ids node (some b)) :=
  h.update (fun _ _ => hop) hbuft fun v hv => by simpa [hview, hmem] using hv.2.2

theorem Placed.expandNode (skipLast : Bool) {cur : Option ℕ} (h : sched.Placed leafs nodes ids)
    (hbuffer : ∀ t ∈ nodes, (sched.bufferOf t).isSome → (ids t).isSome)
    (hcur : ∀ b, cur = some b → b < sched.nBackends) (hmem : node ∈ nodes) :
    sched.Placed leafs nodes (sched.expandNode skipLast (cur, ids) node).2 ∧
      IdsLE ids (sched.expandNode skipLast (cur, ids) node).2 ∧
      ∀ b, (sched.expandNode skipLast (cur, ids) node).1 = some b → b < sched.nBackends := by
  unfold Sched.expandNode
  split_ifs with hview
  · exact ⟨h, fun _ ht => ht, hcur⟩
  · have hview : (sched.tensor node).isViewOp = false := by simpa using hview
    rcases hids : ids node with _ | b
    · rcases cur with _ | b
      · simp only [hids]
        exact ⟨h, fun _ ht => ht, hcur⟩
      · simp only [hids, setIfSupported]
        split_ifs with hop
        · refine ⟨h.place hmem hview ⟨hcur b rfl, hop⟩ fun buffer heq => ?_, idsLE_update, hcur⟩
          simpa [hids] using hbuffer node hmem (by simp [heq])
        · exact ⟨h, fun _ ht => ht, hcur⟩
    · simp only [hids]
      refine ⟨h, fun _ ht => ht, fun b' hb' => ?_⟩
      split_ifs at hb'
      cases hb'
      exact (h.op node hmem hview b hids).1

theorem Placed.expandNodes {skipLast : Bool} (st : Option ℕ × BackendIds T) {todo : List T}
    (h : sched.Placed leafs nodes st.2)
    (hbuffer : ∀ t ∈ nodes, (sched.bufferOf t).isSome → (st.2 t).isSome)
    (hcur : ∀ b, st.1 = some b → b < sched.nBackends) (hsub : todo ⊆ nodes) :
    sched.Placed leafs nodes (todo.foldl (sched.expandNode skipLast) st).2 ∧
      IdsLE st.2 (todo.foldl (sched.expandNode skipLast) st).2 := by
  induction todo generalizing st with
  | nil => exact ⟨h, fun _ ht => ht⟩
  | cons node todo ih =>
    obtain ⟨hmem, hsub⟩ := List.cons_subset.1 hsub
    obtain ⟨h₁, hle₁, hcur₁⟩ := h.expandNode skipLast hbuffer hcur hmem
    obtain ⟨h', hle'⟩ := ih _ h₁ (fun t ht hb => hle₁ t (hbuffer t ht hb)) hcur₁ hsub
    exact ⟨h', hle₁.trans hle'⟩

theorem Placed.expand (skipLast : Bool) {todo : List T} (h : sched.Placed leafs nodes ids)
    (hbuffer : ∀ t ∈ nodes, (sched.bufferOf t).isSome → (ids t).isSome) (hsub : todo ⊆ nodes) :
    sched.Placed leafs nodes (sched.expand skipLast ids todo) ∧
      IdsLE ids (sched.expand skipLast ids todo) :=
  Placed.expandNodes (none, ids) h hbuffer (by simp) hsub

section Upgrade

variable [DecidableEq B]

theorem Placed.upgradeNode (hg : sched.SchedGraph user leafs nodes)
    (h : sched.Placed leafs nodes ids)
    (hbuffer : ∀ t ∈ nodes, (sched.bufferOf t).isSome → (ids t).isSome) (hmem : node ∈ nodes) :
    sched.Placed leafs nodes (sched.upgradeNode ids node) ∧
      IdsLE ids (sched.upgradeNode ids node) ∧
      ((sched.tensor node).isViewOp = false → (sched.upgradeNode ids node node).isSome) := by
  unfold Sched.upgradeNode
  split_ifs with hview
  · exact ⟨h, fun _ ht => ht, fun hcomputed => by simp [hview] at hcomputed⟩
  have hview : (sched.tensor node).isViewOp = false := by simpa using hview
  rcases hids : ids node with _ | cur
  · obtain ⟨hspec, hsome⟩ := bestBackend_spec sched ids node none
      (fun b (hb : b ∈ List.range sched.nBackends) => List.mem_range.1 hb) (by simp)
    have hlast := hsome (.inr ⟨sched.nBackends - 1,
      List.mem_range.2 (Nat.sub_lt sched.nBackends_pos Nat.one_pos), hg.lastOp node hmem⟩)
    obtain ⟨best, hbest⟩ := Option.isSome_iff_exists.1 hlast
    have hbest : sched.bestBackend ids node = some best := hbest
    simp only [hbest]
    refine ⟨h.place hmem hview (hspec best hbest) fun buffer heq => ?_, idsLE_update, by simp⟩
    simpa [hids] using hbuffer node hmem (by simp [heq])
  · rcases hup : sched.upgradeOf ids node cur with _ | b <;> simp only [hup]
    · exact ⟨h, fun _ ht => ht, fun _ => by simp [hids]⟩
    · have hspec := List.find?_some hup
      rw [Bool.and_eq_true, Bool.and_eq_true, List.all_eq_true] at hspec
      have hlt := List.mem_range.1 (List.mem_of_find?_eq_some hup)
      refine ⟨h.place hmem hview
        ⟨hlt.trans (h.op node hmem hview cur hids).1, hspec.1.2⟩ fun buffer heq => ?_,
        idsLE_update, by simp⟩
      -- the buffer that the node writes to is that of a source, which was looked at
      obtain ⟨s, hs, hsame⟩ := hg.writes node hmem hview (by simp [heq])
      simpa [bufferSupported, hsame, heq] using hspec.2 s hs

theorem Placed.upgradeNodes {todo : List T} (hg : sched.SchedGraph user leafs nodes)
    (h : sched.Placed leafs nodes ids)
    (hbuffer : ∀ t ∈ nodes, (sched.bufferOf t).isSome → (ids t).isSome) (hsub : todo ⊆ nodes) :
    sched.Placed leafs nodes (todo.foldl sched.upgradeNode ids) ∧
      IdsLE ids (todo.foldl sched.upgradeNode ids) ∧
      ∀ node ∈ todo, (sched.tensor node).isViewOp = false →
        (todo.foldl sched.upgradeNode ids node).isSome := by
  induction todo generalizing ids with
  | nil => exact ⟨h, fun _ ht => ht, by simp⟩
  | cons node todo ih =>
    obtain ⟨hmem, hsub⟩ := List.cons_subset.1 hsub
    obtain ⟨h₁, hle₁, hsome₁⟩ := h.upgradeNode hg hbuffer hmem
    obtain ⟨h', hle', hsome'⟩ := ih h₁ (fun t ht hb => hle₁ t (hbuffer t ht hb)) hsub
    refine ⟨h', hle₁.trans hle', fun u hu hview => ?_⟩
    rcases List.mem_cons.1 hu with rfl | hu
    · exact hle' u (hsome₁ hview)
    · exact hsome' u hu hview

end Upgrade

/-! ## Pass 4 -/

/-- What holds of the backends from there on. -/
structure Settled (sched : Sched T B) (leafs nodes : List T) (ids : BackendIds T) : Prop where
  op : ∀ node ∈ nodes, (sched.tensor node).isViewOp = false → ∀ b, ids node = some b →
    b < sched.nBackends ∧ sched.supportsOp b node
  buft : ∀ t ∈ leafs ++ nodes, ∀ b buffer, ids t = some b → sched.bufferOf t = some buffer →
    sched.supportsBuft b buffer.buft
  follows : ∀ t v, t ∈ leafs ++ nodes → sched.Follows nodes t v → ids t = none ∨ ids t = ids v
  computed : ∀ node ∈ nodes, (sched.tensor node).isViewOp = false → (ids node).isSome
  buffers : ∀ t ∈ leafs ++ nodes, (sched.bufferOf t).isSome → (ids t).isSome
  roots : ∀ t ∈ leafs ++ nodes, (sched.tensor t).viewSrc = none → (ids t).isSome

omit [DecidableEq T] in
theorem Placed.settled (hg : sched.SchedGraph user leafs nodes) (h : sched.Placed leafs nodes ids)
    (hcomputed : ∀ node ∈ nodes, (sched.tensor node).isViewOp = false → (ids node).isSome)
    (hbuffers : ∀ t ∈ leafs ++ nodes, (sched.bufferOf t).isSome → (ids t).isSome)
    (hleafs : ∀ t ∈ leafs, (sched.tensor t).viewSrc = none → (ids t).isSome) :
    sched.Settled leafs nodes ids := by
  refine ⟨h.op, h.buft, fun t v _ hv => .inl (h.follows t v hv), hcomputed, hbuffers,
    fun t ht hroot => ?_⟩
  rcases List.mem_append.1 ht with hleaf | hnode
  · exact hleafs t hleaf hroot
  · refine hcomputed t hnode ?_
    by_contra hview
    simpa [hroot] using hg.viewOp t (by simpa using hview)

/-- A view gets the backend of what it is a view of. -/
theorem Settled.assign (hg : sched.SchedGraph user leafs nodes)
    (h : sched.Settled leafs nodes ids) (ht : t ∈ leafs ++ nodes)
    (hv : (sched.tensor t).viewSrc = some v) :
    sched.Settled leafs nodes (assign ids t (ids v)) ∧ IdsLE ids (assign ids t (ids v)) ∧
      (assign ids t (ids v) t).isSome := by
  obtain ⟨hmem, hroot⟩ := hg.view_mem t ht v hv
  unfold Sched.assign
  split_ifs with hnone
  · obtain ⟨b, hb⟩ := Option.isSome_iff_exists.1 (h.roots v hmem hroot)
    have hne : ∀ u, (ids u).isSome → u ≠ t := by
      rintro u hu rfl
      simp [hnone] at hu
    have hroot_ne : ∀ t' u, t' ∈ leafs ++ nodes → (sched.tensor t').viewSrc = some u → u ≠ t :=
      fun t' u ht' hu => hne u
        (h.roots u (hg.view_mem t' ht' u hu).1 (hg.view_mem t' ht' u hu).2)
    rw [hb]
    refine ⟨⟨fun node hnode hview b' hb' => ?_, fun t' ht' b' buffer hb' hbuffer => ?_,
      fun t' u ht' hu => ?_, fun node hnode hview => idsLE_update _ (h.computed node hnode hview),
      fun t' ht' hbuffer => idsLE_update _ (h.buffers t' ht' hbuffer),
      fun t' ht' hroot => idsLE_update _ (h.roots t' ht' hroot)⟩, idsLE_update, by simp⟩
    · rw [Function.update_of_ne (hne node (h.computed node hnode hview))] at hb'
      exact h.op node hnode hview b' hb'
    · rw [Function.update_of_ne (hne t' (h.buffers t' ht' (by simp [hbuffer])))] at hb'
      exact h.buft t' ht' b' buffer hb' hbuffer
    · rw [Function.update_of_ne (hroot_ne t' u ht' hu.1)]
      by_cases heq : t' = t
      · subst heq
        cases hv.symm.trans hu.1
        rw [Function.update_self, hb]
        exact .inr rfl
      · rw [Function.update_of_ne heq]
        exact h.follows t' u ht' hu
  · exact ⟨h, fun _ ht => ht, Option.isSome_iff_ne_none.2 hnone⟩

theorem Settled.assignSrc (node : T) (hg : sched.SchedGraph user leafs nodes)
    (h : sched.Settled leafs nodes ids) (ht : t ∈ leafs ++ nodes) :
    sched.Settled leafs nodes (sched.assignSrc node ids t) ∧
      IdsLE ids (sched.assignSrc node ids t) ∧ (sched.assignSrc node ids t t).isSome := by
  unfold Sched.assignSrc
  rcases hv : (sched.tensor t).viewSrc with _ | v
  · have hsome := h.roots t ht hv
    have hassign : Sched.assign ids t (ids node) = ids :=
      if_neg (Option.isSome_iff_ne_none.1 hsome)
    simp only [hassign]
    exact ⟨h, fun _ ht => ht, hsome⟩
  · exact h.assign hg ht hv

theorem Settled.assignSrcs (node : T) {todo : List T} (hg : sched.SchedGraph user leafs nodes)
    (h : sched.Settled leafs nodes ids) (hsub : todo ⊆ leafs ++ nodes) :
    sched.Settled leafs nodes (todo.foldl (sched.assignSrc node) ids) ∧
      IdsLE ids (todo.foldl (sched.assignSrc node) ids) ∧
      ∀ t ∈ todo, (todo.foldl (sched.assignSrc node) ids t).isSome := by
  induction todo generalizing ids with
  | nil => exact ⟨h, fun _ ht => ht, by simp⟩
  | cons t todo ih =>
    obtain ⟨ht, hsub⟩ := List.cons_subset.1 hsub
    obtain ⟨h₁, hle₁, hsome₁⟩ := h.assignSrc node hg ht
    obtain ⟨h', hle', hsome'⟩ := ih h₁ hsub
    refine ⟨h', hle₁.trans hle', fun u hu => ?_⟩
    rcases List.mem_cons.1 hu with rfl | hu
    · exact hle' u hsome₁
    · exact hsome' u hu

theorem Settled.assignNode (hg : sched.SchedGraph user leafs nodes)
    (h : sched.Settled leafs nodes ids) (hmem : node ∈ nodes) :
    sched.Settled leafs nodes (sched.assignSrcs ids node) ∧
      IdsLE ids (sched.assignSrcs ids node) ∧ (sched.assignSrcs ids node node).isSome ∧
      ∀ t ∈ (sched.tensor node).src, (sched.assignSrcs ids node t).isSome := by
  have hmem' : node ∈ leafs ++ nodes := List.mem_append_right _ hmem
  obtain ⟨ids₁, hids₁, h₁, hle₁, hsome₁⟩ : ∃ ids₁, sched.assignSrcs ids node =
      (sched.tensor node).src.foldl (sched.assignSrc node) ids₁ ∧
      sched.Settled leafs nodes ids₁ ∧ IdsLE ids ids₁ ∧ (ids₁ node).isSome := by
    rcases hv : (sched.tensor node).viewSrc with _ | v
    · exact ⟨ids, by simp [Sched.assignSrcs, hv], h, fun _ ht => ht, h.roots node hmem' hv⟩
    · exact ⟨Sched.assign ids node (ids v), by simp [Sched.assignSrcs, hv], h.assign hg hmem' hv⟩
  rw [hids₁]
  obtain ⟨h', hle', hsome'⟩ := h₁.assignSrcs node hg (hg.src_mem node hmem)
  exact ⟨h', hle₁.trans hle', hle' node hsome₁, hsome'⟩

theorem Settled.assignNodes {todo : List T} (hg : sched.SchedGraph user leafs nodes)
    (h : sched.Settled leafs nodes ids) (hsub : todo ⊆ nodes) :
    sched.Settled leafs nodes (todo.foldl sched.assignSrcs ids) ∧
      IdsLE ids (todo.foldl sched.assignSrcs ids) ∧
      ∀ node ∈ todo, (todo.foldl sched.assignSrcs ids node).isSome ∧
        ∀ t ∈ (sched.tensor node).src, (todo.foldl sched.assignSrcs ids t).isSome := by
  induction todo generalizing ids with
  | nil => exact ⟨h, fun _ ht => ht, by simp⟩
  | cons node todo ih =>
    obtain ⟨hmem, hsub⟩ := List.cons_subset.1 hsub
    obtain ⟨h₁, hle₁, hnode₁, hsrc₁⟩ := h.assignNode hg hmem
    obtain ⟨h', hle', hsome'⟩ := ih h₁ hsub
    refine ⟨h', hle₁.trans hle', fun u hu => ?_⟩
    rcases List.mem_cons.1 hu with rfl | hu
    · exact ⟨hle' _ hnode₁, fun t ht => hle' t (hsrc₁ t ht)⟩
    · exact hsome' u hu

/-- What holds of the backends that the passes give. -/
theorem assignBackends_spec [DecidableEq B] (hg : sched.SchedGraph user leafs nodes)
    (h : sched.assignBackends user leafs nodes = some ids) :
    sched.Settled leafs nodes ids ∧ ∀ node ∈ nodes, (ids node).isSome ∧
      ∀ t ∈ (sched.tensor node).src, (ids t).isSome := by
  obtain ⟨ids₁, hs, heq⟩ := Option.map_eq_some_iff.1 h
  have hstart : sched.Placed leafs nodes user :=
    ⟨fun node hnode _ => hg.user_op node hnode, fun t _ b buffer => hg.user_buft t b buffer,
      fun t v hv => (hg.follows t v hv).1⟩
  obtain ⟨h₁, hle₁, hsome₁⟩ := hstart.assignAll hg (List.Subset.refl _) hs
  have hbuffer₁ : ∀ t ∈ leafs ++ nodes, (sched.bufferOf t).isSome → (ids₁ t).isSome :=
    fun t ht hb => hsome₁ t ht (.inl hb)
  have hb : ∀ ids', IdsLE ids₁ ids' → ∀ t ∈ nodes, (sched.bufferOf t).isSome → (ids' t).isSome :=
    fun ids' hle t ht hb => hle t (hbuffer₁ t (List.mem_append_right _ ht) hb)
  obtain ⟨h₂, hle₂⟩ := h₁.expand true (hb _ fun _ ht => ht) (List.Subset.refl nodes)
  obtain ⟨h₃, hle₃⟩ := h₂.expand true (hb _ hle₂) (List.reverse_subset.2 (List.Subset.refl nodes))
  have hle₃ := hle₂.trans hle₃
  obtain ⟨h₄, hle₄⟩ := h₃.expand false (hb _ hle₃) (List.Subset.refl nodes)
  have hle₄ := hle₃.trans hle₄
  obtain ⟨h₅, hle₅⟩ := h₄.expand false (hb _ hle₄) (List.reverse_subset.2 (List.Subset.refl nodes))
  have hle₅ := hle₄.trans hle₅
  obtain ⟨h₆, hle₆, hcomputed⟩ := h₅.upgradeNodes hg (hb _ hle₅) (List.Subset.refl nodes)
  have hle₆ := hle₅.trans hle₆
  have hleafs : ∀ t ∈ leafs, (sched.tensor t).viewSrc = none → (ids₁ t).isSome := by
    intro t ht hroot
    rcases hg.leaf t ht hroot with hb | hinput | huser
    · exact hbuffer₁ t (List.mem_append_left _ ht) (by simpa [bufferOf, hroot] using hb)
    · exact hsome₁ t (List.mem_append_left _ ht) (.inr hinput)
    · exact hle₁ t huser
  obtain ⟨h', -, hsome⟩ := (h₆.settled hg hcomputed (fun t ht hb => hle₆ t (hbuffer₁ t ht hb))
    fun t ht hroot => hle₆ t (hleafs t ht hroot)).assignNodes hg (List.Subset.refl nodes)
  subst heq
  exact ⟨h', hsome⟩

end Sched

namespace Sched

variable {T B S V : Type} {sched : Sched T B} {user ids : BackendIds T} {leafs nodes : List T}
  {splits : List (SchedSplit T)} {srcs : List (List (SplitSrc T))} {node t : T} {b stale : ℕ}

/-! ## What a backend can read -/

theorem bufferOf_eq : sched.bufferOf t = (sched.tensor (sched.root t)).buffer := by
  rcases hv : (sched.tensor t).viewSrc with _ | v <;> simp [bufferOf, root, hv]

/-- A backend can read what is on it. -/
theorem Settled.supported (h : sched.Settled leafs nodes ids) (ht : t ∈ leafs ++ nodes)
    (hlt : b < sched.nBackends) (hids : ids t = some b) : sched.bufferSupported ids t b := by
  rcases hbuffer : sched.bufferOf t with _ | buffer
  · simpa [bufferSupported, hbuffer, hids] using sched.supports_own b hlt
  · simpa [bufferSupported, hbuffer] using h.buft t ht b buffer hids hbuffer

theorem Settled.needsCopy_iff (h : sched.Settled leafs nodes ids) (ht : t ∈ leafs ++ nodes)
    (hlt : b < sched.nBackends) :
    sched.needsCopy ids t b ↔ sched.bufferSupported ids t b = false := by
  unfold needsCopy
  rw [Bool.and_eq_true, decide_eq_true_eq, Bool.not_eq_true']
  refine ⟨And.right, fun hsupp => ⟨fun hids => ?_, hsupp⟩⟩
  rw [h.supported ht hlt hids] at hsupp
  cases hsupp

/-- Where only views of allocated tensors are written to, a node writes to no tensor that its
backend cannot read. -/
theorem Settled.writesReadable (hg : sched.SchedGraph user leafs nodes)
    (h : sched.Settled leafs nodes ids)
    (hown : ∀ node ∈ nodes, (sched.tensor node).isViewOp = false → sched.bufferOf node = none →
      (sched.tensor node).viewSrc = none) : sched.WritesReadable ids nodes := by
  intro node hnode hview b hb reader hreader t ht hroot
  have hmem := hg.src_mem reader hreader t ht
  have hlt := (h.op node hnode hview b hb).1
  have hsame : sched.bufferOf t = sched.bufferOf node := by rw [bufferOf_eq, bufferOf_eq, hroot]
  rcases hbuffer : sched.bufferOf node with _ | buffer
  · have hself : sched.root node = node := by simp [root, hown node hnode hview hbuffer]
    rw [hself] at hroot
    rcases hv : (sched.tensor t).viewSrc with _ | v
    · obtain rfl : t = node := by simpa [root, hv] using hroot
      exact h.supported hmem hlt hb
    · obtain rfl : v = node := by simpa [root, hv] using hroot
      have hfollows : sched.Follows nodes t v := by
        refine ⟨hv, hsame.trans hbuffer, ?_⟩
        by_contra hnot
        rw [not_or, not_not] at hnot
        have := hown t hnot.2 (by simpa using hnot.1) (hsame.trans hbuffer)
        rw [hv] at this
        cases this
      have hor : (ids t).or (ids v) = some b := by
        rcases h.follows t v hmem hfollows with hids | hids <;> simp [hids, hb]
      simpa [bufferSupported, hsame, hbuffer, hv, hor] using sched.supports_own b hlt
  · simpa [bufferSupported, hsame, hbuffer] using
      h.buft node (List.mem_append_right _ hnode) b buffer hb hbuffer

/-! ## The whole scheduler -/

section Whole

variable [DecidableEq T] [DecidableEq B]

/-- A backend with weights, and one with a cache that is written on it and read on the other. -/
def pairSched : Sched ℕ Bool where
  nBackends := 2
  nBackends_pos := Nat.two_pos
  nCopies := 1
  opOffload := false
  bufts b := b ≠ 0
  supportsBuft b buft := (b ≠ 0) = buft
  supports_own _ _ := by simp
  supportsOp _ _ := true
  offloadOp _ _ := false
  tensor t :=
    { isViewOp := t = 3 || t = 7 || t = 8
      isRope := false
      viewSrc := if t = 3 then some 2 else if t = 4 || t = 7 || t = 8 then some 6 else none
      buffer :=
        if t = 1 then some ⟨false, true, false⟩ else if t = 6 then some ⟨true, false, true⟩
        else none
      isInput := t = 0
      src :=
        if t = 2 then [0, 1] else if t = 3 then [2] else if t = 4 then [3, 7]
        else if t = 5 then [8, 1] else if t = 7 || t = 8 then [6] else [] }

theorem pairSched_graph : pairSched.SchedGraph (fun _ => none) [0, 1, 6] [2, 3, 7, 4, 8, 5] where
  lastOp := by simp [pairSched]
  user_op := by simp
  user_buft := by simp
  src_mem := by decide
  view_mem := by decide
  viewOp t ht := by
    have : (t = 3 ∨ t = 7) ∨ t = 8 := by simpa [pairSched] using ht
    rcases this with (rfl | rfl) | rfl <;> rfl
  leaf := by decide
  follows t v h := by
    have hview : (t = 3 ∨ t = 4) ∨ t = 7 ∨ t = 8 := by
      by_contra hnot
      have := h.1
      simp_all [pairSched]
    rcases hview with (rfl | rfl) | rfl | rfl
    · exact ⟨rfl, rfl, rfl, by decide⟩
    all_goals cases h.2.1
  writes node hnode hview hbuffer := by
    simp only [List.mem_cons, List.not_mem_nil, or_false] at hnode
    rcases hnode with rfl | rfl | rfl | rfl | rfl | rfl
    case inr.inr.inr.inl => exact ⟨7, by decide, rfl⟩
    all_goals first | exact absurd hbuffer (by decide) | cases hview

end Whole

/-! ## Room for the copies -/

section Room

variable [DecidableEq T] {st st' : Splitting T}

/-- There is room for one copy, or the node needs none that is not made. -/
def Room (sched : Sched T B) (ids : BackendIds T) (node : T) (st : Splitting T) : Prop :=
  st.inputs.length ≤ maxSplitInputs ∧ (st.inputs.length < maxSplitInputs ∨
    ∀ src ∈ (sched.tensor node).src, sched.needsCopy ids src st.backendId →
      st.copies src st.backendId)

/-- A node needs a copy of one tensor at most. -/
def NeedsOne (sched : Sched T B) (ids : BackendIds T) (nodes : List T) : Prop :=
  ∀ node ∈ nodes, (sched.tensor node).isViewOp = false → ∃ b, ids node = some b ∧
    (∀ src ∈ (sched.tensor node).src, (ids src).isSome) ∧
    ∀ s ∈ (sched.tensor node).src, ∀ t ∈ (sched.tensor node).src,
      sched.needsCopy ids s b → sched.needsCopy ids t b → s = t

theorem Room.visitSrc {src : T} (acc : List (SplitSrc T)) (hcopies : sched.nCopies ≤ 1)
    (h : sched.Room ids node st) (hsrc : src ∈ (sched.tensor node).src)
    (hids : (ids src).isSome)
    (hone : ∀ t ∈ (sched.tensor node).src, sched.needsCopy ids src st.backendId →
      sched.needsCopy ids t st.backendId → src = t) :
    ∃ st' acc', sched.visitSrc ids (st, acc) src = some (st', acc') ∧
      sched.Room ids node st' ∧ st'.backendId = st.backendId := by
  obtain ⟨b, hb⟩ := Option.isSome_iff_exists.1 hids
  have hinput : sched.addGraphInput st src b = some st := by
    simp [addGraphInput, Nat.not_lt.2 hcopies]
  simp only [Sched.visitSrc, hb, hinput, Option.bind_some]
  split_ifs with hneeds hcopy hlen
  · exact ⟨st, _, rfl, h, rfl⟩
  · refine ⟨_, _, rfl, ⟨?_, .inr fun t ht hneeds' => ?_⟩, rfl⟩
    · rw [List.length_append]
      exact hlen
    · obtain rfl := hone t ht hneeds hneeds'
      simp [Splitting.setCopy]
  · exact absurd (h.2.resolve_left hlen src hsrc hneeds) hcopy
  · exact ⟨st, _, rfl, h, rfl⟩

theorem Room.visitSrcs {todo : List T} (acc : List (SplitSrc T)) (hcopies : sched.nCopies ≤ 1)
    (h : sched.Room ids node st) (hsub : todo ⊆ (sched.tensor node).src)
    (hids : ∀ src ∈ (sched.tensor node).src, (ids src).isSome)
    (hone : ∀ s ∈ (sched.tensor node).src, ∀ t ∈ (sched.tensor node).src,
      sched.needsCopy ids s st.backendId → sched.needsCopy ids t st.backendId → s = t) :
    ∃ st' acc', todo.foldlM (sched.visitSrc ids) (st, acc) = some (st', acc') ∧
      sched.Room ids node st' := by
  induction todo generalizing st acc with
  | nil => exact ⟨st, acc, rfl, h⟩
  | cons src todo ih =>
    obtain ⟨hsrc, hsub⟩ := List.cons_subset.1 hsub
    obtain ⟨st₁, acc₁, hvisit, h₁, hb⟩ :=
      h.visitSrc acc hcopies hsrc (hids src hsrc) (hone src hsrc)
    rw [List.foldlM_cons, hvisit]
    exact ih acc₁ h₁ hsub (hb ▸ hone)

/-- A split that is full is ended before a node that needs another copy. -/
theorem splitNode_isSome {i : ℕ} (hcopies : sched.nCopies ≤ 1) (hone : sched.NeedsOne ids nodes)
    (hmem : node ∈ nodes) (hlen : st.inputs.length ≤ maxSplitInputs) :
    ∃ st', sched.splitNode ids st i node = some st' ∧ st'.inputs.length ≤ maxSplitInputs := by
  unfold Sched.splitNode
  split_ifs with hview
  · exact ⟨_, rfl, hlen⟩
  obtain ⟨b, hb, hids, hone⟩ := hone node hmem (by simpa using hview)
  simp only [hb]
  generalize hst₁ : (if b ≠ st.backendId || sched.needNewSplit ids st node then
    ({ st with splits := st.endSplit i, backendId := b, iStart := i, inputs := [] } :
      Splitting T) else st) = st₁
  obtain ⟨hroom, hback⟩ : sched.Room ids node st₁ ∧ st₁.backendId = b := by
    split_ifs at hst₁ with hnew <;> cases hst₁
    · exact ⟨⟨Nat.zero_le _, .inl (by simp [maxSplitInputs])⟩, rfl⟩
    · simp only [ne_eq, Bool.or_eq_true, decide_eq_true_eq, not_or, not_not] at hnew
      refine ⟨⟨hlen, ?_⟩, hnew.1.symm⟩
      rcases Nat.lt_or_eq_of_le hlen with hlt | hfull
      · exact .inl hlt
      · refine .inr fun src hsrc hneeds => ?_
        have hne : st.inputs ≠ [] := fun hnil => by simp [hnil, maxSplitInputs] at hfull
        have hnot := hnew.2
        simp only [needNewSplit, Bool.and_eq_true, List.any_eq_true, not_and, not_exists] at hnot
        by_contra hcopied
        rw [Bool.not_eq_true] at hcopied
        exact hnot (by simpa using hne) src hsrc (by simp [hfull, hneeds, hcopied])
  obtain ⟨st', acc', hfold, hroom'⟩ :=
    hroom.visitSrcs [] hcopies (List.Subset.refl _) hids (hback ▸ hone)
  rw [hfold]
  exact ⟨_, rfl, hroom'.1⟩

theorem splitNodes_isSome {todo : List T} {i : ℕ} (hcopies : sched.nCopies ≤ 1)
    (hone : sched.NeedsOne ids nodes) (hsub : todo ⊆ nodes)
    (hlen : st.inputs.length ≤ maxSplitInputs) : (sched.splitNodes ids i todo st).isSome := by
  induction todo generalizing i st with
  | nil => rfl
  | cons node todo ih =>
    obtain ⟨hmem, hsub⟩ := List.cons_subset.1 hsub
    obtain ⟨st', hnode, hlen'⟩ := splitNode_isSome (i := i) hcopies hone hmem hlen
    rw [splitNodes, hnode]
    exact ih hsub hlen'

/-- No assertion of pass 5 fails on a graph whose nodes need a copy of one tensor each at most. -/
theorem cutGraph_isSome (hcopies : sched.nCopies ≤ 1) (hone : sched.NeedsOne ids nodes) :
    (sched.cutGraph ids nodes stale).isSome := by
  unfold cutGraph firstBackend
  rcases hfirst : nodes.find? fun node => !(sched.tensor node).isViewOp with _ | node
  · simpa using splitNodes_isSome hcopies hone (List.Subset.refl nodes) (Nat.zero_le _)
  · have hview := List.find?_some hfirst
    obtain ⟨b, hb, -⟩ := hone node (List.mem_of_find?_eq_some hfirst) (by simpa using hview)
    simpa [hb] using splitNodes_isSome hcopies hone (List.Subset.refl nodes) (Nat.zero_le _)

theorem cutGraph_isSome_pair :
    ∃ ids, pairSched.assignBackends (fun _ => none) [0, 1, 6] [2, 3, 7, 4, 8, 5] = some ids ∧
      (pairSched.cutGraph ids [2, 3, 7, 4, 8, 5] 0).isSome := by
  refine ⟨_, rfl, cutGraph_isSome le_rfl fun node hnode hview => ?_⟩
  simp only [List.mem_cons, List.not_mem_nil, or_false] at hnode
  rcases hnode with rfl | rfl | rfl | rfl | rfl | rfl
  · exact ⟨0, rfl, by decide, by decide⟩
  · cases hview
  · cases hview
  · exact ⟨1, rfl, by decide, by decide⟩
  · cases hview
  · exact ⟨0, rfl, by decide, by decide⟩

end Room

end Sched

end LamaServer
