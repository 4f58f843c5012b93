import LamaServer.Proofs.KvCache

/-!
# Defragmentation moves cells with their rows

A cell is moved at most once, to a hole of a lower index, and no hole is filled twice. So the cells
the loop of `defrag_prepare` leaves come, with their meta data, from the cells whose rows the graph
copies to their place.
-/

namespace LamaServer

namespace Defrag

variable {nKv nUsed maxMoves : Nat} {cells₀ : Nat → KvCell}

/-- Cell `i` was moved. -/
def Moved (nKv : Nat) (ids : Nat → Nat) (i : Nat) : Prop := ids i ≠ i ∧ ids i ≠ nKv

/-- The cells moved so far, from the cells `cells₀` of the start to holes below `frontier`. -/
structure Inv (nKv : Nat) (cells₀ : Nat → KvCell) (frontier : Nat) (s : Defrag) : Prop where
  lt : ∀ i, Moved nKv s.ids i → i < nKv ∧ s.ids i < i
  inj : ∀ i j, Moved nKv s.ids i → Moved nKv s.ids j → s.ids i = s.ids j → i = j
  below : ∀ i, Moved nKv s.ids i → s.ids i < frontier
  moved : ∀ i, Moved nKv s.ids i → s.cells (s.ids i) = cells₀ i
  kept : ∀ d, (∀ i, Moved nKv s.ids i → s.ids i ≠ d) → ¬ Moved nKv s.ids d →
    s.cells d = cells₀ d
  left : ∀ d, (∀ i, Moved nKv s.ids i → s.ids i ≠ d) → Moved nKv s.ids d → s.cells d = {}
  counted : ∀ i, Moved nKv s.ids i → s.nMoves ≠ 0

theorem Inv.start (head : Nat) :
    Inv nKv cells₀ 0 { cells := cells₀, ids := fun _ => nKv, head := head } where
  lt _ h := absurd rfl h.2
  inj _ _ h := absurd rfl h.2
  below _ h := absurd rfl h.2
  moved _ h := absurd rfl h.2
  kept _ _ _ := rfl
  left _ _ h := absurd rfl h.2
  counted _ h := absurd rfl h.2

theorem Inv.mono {f f' : Nat} {s : Defrag} (h : Inv nKv cells₀ f s) (hf : f ≤ f') :
    Inv nKv cells₀ f' s :=
  { h with below := fun i hi => (h.below i hi).trans_le hf }

/-- A cell at the frontier or above it that is not empty was not touched. -/
theorem Inv.untouched {f i : Nat} {s : Defrag} (h : Inv nKv cells₀ f s) (hi : f ≤ i)
    (hne : (s.cells i).seqId ≠ ∅) : ¬ Moved nKv s.ids i ∧ s.cells i = cells₀ i := by
  have hdst : ∀ j, Moved nKv s.ids j → s.ids j ≠ i := fun j hj => by
    have := h.below j hj
    omega
  have hnot : ¬ Moved nKv s.ids i := fun hm => hne (by rw [h.left i hdst hm])
  exact ⟨hnot, h.kept i hdst hnot⟩

/-- A cell that is not empty is marked as one that stays. -/
theorem Inv.fix {i0 : Nat} {s : Defrag} (h : Inv nKv cells₀ i0 s) (hne : (s.cells i0).seqId ≠ ∅) :
    Inv nKv cells₀ (i0 + 1) { s with ids := Function.update s.ids i0 i0 } := by
  have hnot := (h.untouched le_rfl hne).1
  have hm : ∀ i, Moved nKv (Function.update s.ids i0 i0) i → Moved nKv s.ids i := by
    intro i hi
    by_cases h0 : i = i0
    · exact absurd (by simp [h0]) hi.1
    · simpa only [Moved, Function.update_of_ne h0] using hi
  have hne0 : ∀ i, Moved nKv s.ids i → i ≠ i0 := by
    rintro i hi rfl
    exact hnot hi
  have hm' : ∀ i, Moved nKv s.ids i → Moved nKv (Function.update s.ids i0 i0) i := fun i hi => by
    simpa only [Moved, Function.update_of_ne (hne0 i hi)] using hi
  have hids : ∀ i, Moved nKv s.ids i → Function.update s.ids i0 i0 i = s.ids i := fun i hi =>
    Function.update_of_ne (hne0 i hi) _ _
  refine ⟨fun i hi => ?_, fun i j hi hj hij => ?_, fun i hi => ?_, fun i hi => ?_,
    fun d hd hmv => ?_, fun d hd hmv => ?_, fun i hi => h.counted i (hm i hi)⟩
  · simpa only [hids i (hm i hi)] using h.lt i (hm i hi)
  · simp only [hids i (hm i hi), hids j (hm j hj)] at hij
    exact h.inj i j (hm i hi) (hm j hj) hij
  · simpa only [hids i (hm i hi)] using (h.below i (hm i hi)).trans (Nat.lt_succ_self i0)
  · simpa only [hids i (hm i hi)] using h.moved i (hm i hi)
  · exact h.kept d (fun i hi => hids i hi ▸ hd i (hm' i hi)) (mt (hm' d) hmv)
  · exact h.left d (fun i hi => hids i hi ▸ hd i (hm' i hi)) (hm d hmv)

/-- A cell above the frontier moves to the frontier. -/
theorem Inv.move {f i1 : Nat} {s : Defrag} {cont : Bool} (h : Inv nKv cells₀ f s)
    (nUsed : Nat) (hf : f < i1)
    (hkv : i1 < nKv) (hskip : ¬ s.skips nKv i1) (hcont : cont → s.nMoves ≠ 0) :
    Inv nKv cells₀ (f + 1) (s.move nUsed i1 f cont) := by
  obtain ⟨hne, hid⟩ := not_or.1 hskip
  obtain ⟨hnot, hcell⟩ := h.untouched hf.le hne
  have hself : Function.update s.ids i1 f i1 = f := Function.update_self ..
  have hother : ∀ i, i ≠ i1 → Function.update s.ids i1 f i = s.ids i := fun i hi =>
    Function.update_of_ne hi _ _
  have hm : ∀ i, Moved nKv (Function.update s.ids i1 f) i ↔ i = i1 ∨ Moved nKv s.ids i := by
    intro i
    by_cases hi : i = i1
    · subst hi
      simp only [Moved, hself, true_or, iff_true]
      omega
    · simp [Moved, hi]
  have hne1 : ∀ i, Moved nKv s.ids i → i ≠ i1 := by
    rintro i hi rfl
    exact hnot hi
  constructor
  case lt =>
    intro i hi
    rcases (hm i).1 hi with rfl | hi
    · exact ⟨hkv, by simpa [Defrag.move, hself] using hf⟩
    · simpa only [Defrag.move, hother i (hne1 i hi)] using h.lt i hi
  case inj =>
    intro i j hi hj hij
    simp only [Defrag.move] at hij
    rcases (hm i).1 hi with rfl | hi' <;> rcases (hm j).1 hj with rfl | hj'
    · rfl
    · have := h.below j hj'
      rw [hself, hother j (hne1 j hj')] at hij
      omega
    · have := h.below i hi'
      rw [hself, hother i (hne1 i hi')] at hij
      omega
    · rw [hother i (hne1 i hi'), hother j (hne1 j hj')] at hij
      exact h.inj i j hi' hj' hij
  case below =>
    intro i hi
    simp only [Defrag.move]
    rcases (hm i).1 hi with rfl | hi
    · rw [hself]
      exact Nat.lt_succ_self f
    · rw [hother i (hne1 i hi)]
      exact (h.below i hi).trans (Nat.lt_succ_self f)
  case moved =>
    intro i hi
    simp only [Defrag.move]
    rcases (hm i).1 hi with rfl | hi
    · rw [hself, Function.update_of_ne hf.ne, Function.update_self, hcell]
    · have hlt := h.below i hi
      rw [hother i (hne1 i hi), Function.update_of_ne (by omega), Function.update_of_ne (by omega)]
      exact h.moved i hi
  case kept =>
    intro d hd hmv
    simp only [Defrag.move] at hd ⊢
    have hmv := mt (hm d).2 hmv
    rw [not_or] at hmv
    have hdf : d ≠ f := fun hdf => hd i1 ((hm i1).2 (.inl rfl)) (by rw [hself, hdf])
    rw [Function.update_of_ne hmv.1, Function.update_of_ne hdf]
    refine h.kept d (fun i hi => ?_) hmv.2
    rw [← hother i (hne1 i hi)]
    exact hd i ((hm i).2 (.inr hi))
  case left =>
    intro d hd hmv
    simp only [Defrag.move] at hd ⊢
    rcases (hm d).1 hmv with rfl | hmv
    · exact Function.update_self ..
    · have hdf : d ≠ f := fun hdf => hd i1 ((hm i1).2 (.inl rfl)) (by rw [hself, hdf])
      rw [Function.update_of_ne (hne1 d hmv), Function.update_of_ne hdf]
      refine h.left d (fun i hi => ?_) hmv
      rw [← hother i (hne1 i hi)]
      exact hd i ((hm i).2 (.inr hi))
  case counted =>
    intro i hi
    simp only [Defrag.move]
    cases cont with
    | false => simp
    | true => simpa using hcont rfl

theorem Inv.fill {i0 nh : Nat} : ∀ {r i1 nf : Nat} {cont : Bool} {s : Defrag},
    Inv nKv cells₀ (i0 + nf) s → nf < nh → i0 + nh ≤ i1 → i1 + r ≤ nKv →
      (cont → s.nMoves ≠ 0) →
      Inv nKv cells₀ (i0 + nh) (fill nKv nUsed maxMoves i0 nh r i1 nf cont s).1
  | 0, _, nf, _, s, h, hnf, _, _, _ => h.mono (by omega)
  | r + 1, i1, nf, cont, s, h, hnf, hi1, hr, hcont => by
    simp only [Defrag.fill]
    split_ifs with hskip hmax hlast
    · exact h.mono (by omega)
    · exact Inv.fill h hnf (by omega) (by omega) (by simp)
    · exact (h.move nUsed (by omega) (by omega) hskip hcont).mono (by omega)
    · have hmove := h.move nUsed (by omega) (by omega) hskip hcont
      refine Inv.fill hmove (by omega) (by omega) (by omega) fun _ => ?_
      exact hmove.counted i1 (by simp only [Moved, Defrag.move, Function.update_self]; omega)

/-- The tail starts at a cell that can be moved. -/
theorem findTail_spec {s : Defrag} {i0 nh tail : Nat} : ∀ {i nf : Nat}, nf < nh →
    s.findTail nKv i0 nh i nf = (nh, tail) → i0 < tail ∧ tail ≤ i ∧ ¬ s.skips nKv tail
  | 0, nf, hnf, h => by
    simp only [findTail, Prod.mk.injEq] at h
    omega
  | i + 1, nf, hnf, h => by
    simp only [findTail] at h
    split_ifs at h with h1 h2 h3
    · simp only [Prod.mk.injEq] at h
      omega
    · obtain ⟨ha, hb, hc⟩ := findTail_spec hnf h
      exact ⟨ha, by omega, hc⟩
    · simp only [Prod.mk.injEq] at h
      obtain ⟨-, rfl⟩ := h
      exact ⟨by omega, le_rfl, h2⟩
    · obtain ⟨ha, hb, hc⟩ := findTail_spec (by omega) h
      exact ⟨ha, by omega, hc⟩

/-- A hole is empty, and the tail that fills it is beyond it. -/
theorem hole_spec {s : Defrag} {i0 nh tail : Nat} (hlt : i0 < nUsed)
    (hempty : (s.cells i0).seqId = ∅)
    (hnh : nh = Index.firstBelow (nUsed - i0) (fun j => (s.cells (i0 + j)).seqId ≠ ∅))
    (htail : s.findTail nKv i0 nh (nKv - 1) 0 = (nh, tail)) :
    0 < nh ∧ i0 + nh ≤ tail ∧ tail < nKv ∧ ∀ j < nh, (s.cells (i0 + j)).seqId = ∅ := by
  have hhole : ∀ j < nh, (s.cells (i0 + j)).seqId = ∅ := fun j hj => by
    simpa using Index.not_of_lt_firstBelow (p := fun j => (s.cells (i0 + j)).seqId ≠ ∅) (hnh ▸ hj)
  have hpos : 0 < nh := by
    by_contra h0
    have hz : Index.firstBelow (nUsed - i0) (fun j => (s.cells (i0 + j)).seqId ≠ ∅) = 0 := by omega
    have := Index.firstBelow_spec (n := nUsed - i0)
      (p := fun j => (s.cells (i0 + j)).seqId ≠ ∅) (by omega)
    rw [hz] at this
    simp [hempty] at this
  obtain ⟨hi0, hle, hskip⟩ := findTail_spec hpos htail
  refine ⟨hpos, ?_, by omega, hhole⟩
  by_contra hge
  have := hhole (tail - i0) (by omega)
  rw [show i0 + (tail - i0) = tail by omega] at this
  exact hskip (.inl this)

theorem Inv.loop : ∀ {r i0 : Nat} {s s' : Defrag}, Inv nKv cells₀ i0 s →
    loop nKv nUsed maxMoves r i0 s = some s' → ∃ f, Inv nKv cells₀ f s'
  | 0, i0, s, s', h, hl => by
    simp only [Defrag.loop, Option.some.injEq] at hl
    exact ⟨i0, hl ▸ h⟩
  | r + 1, i0, s, s', h, hl => by
    rcases loop_cases hl with ⟨-, rfl⟩ | ⟨-, hne, hl⟩ | ⟨hlt, hempty, nh, tail, filled, hnh, htail,
      rfl, hl⟩
    · exact ⟨i0, h⟩
    · exact (h.fix hne).loop hl
    · obtain ⟨hpos, hbeyond, hkv, -⟩ := hole_spec hlt hempty hnh htail
      have hfill : Inv nKv cells₀ (i0 + nh)
          (Defrag.fill nKv nUsed maxMoves i0 nh (nKv - tail) tail 0 false s).1 :=
        Inv.fill h hpos hbeyond (by omega) (by simp)
      rcases hl with rfl | hl
      · exact ⟨_, hfill⟩
      · exact hfill.loop hl

end Defrag

/-! ## The graph -/

section MoveRows

variable {α : Type} {nKv : Nat} {ids : Nat → Nat}

/-- Rows only move down, so that the row of a cell is still in place when its turn comes. -/
theorem foldl_moveRows (hlt : ∀ i, Defrag.Moved nKv ids i → i < nKv ∧ ids i < i)
    (hinj : ∀ i j, Defrag.Moved nKv ids i → Defrag.Moved nKv ids j → ids i = ids j → i = j)
    (rows : Nat → α) : ∀ n,
      let rows' := (List.range n).foldl
        (fun rows i => if ids i = i ∨ ids i = nKv then rows
          else Function.update rows (ids i) (rows i)) rows
      (∀ i < n, Defrag.Moved nKv ids i → rows' (ids i) = rows i) ∧
        ∀ d, (∀ i < n, Defrag.Moved nKv ids i → ids i ≠ d) → rows' d = rows d
  | 0 => by simp
  | n + 1 => by
    obtain ⟨hmoved, hkept⟩ := foldl_moveRows hlt hinj rows n
    have hrow : ∀ j, n ≤ j → ((List.range n).foldl
        (fun rows i => if ids i = i ∨ ids i = nKv then rows
          else Function.update rows (ids i) (rows i)) rows) j = rows j := by
      intro j hj
      refine hkept j fun i hi hm hij => ?_
      have := (hlt i hm).2
      omega
    simp only [List.range_succ, List.foldl_append, List.foldl_cons, List.foldl_nil]
    split_ifs with hstay
    · have hnot : ¬ Defrag.Moved nKv ids n := by
        rw [Defrag.Moved, ← not_or, not_not]
        exact hstay
      refine ⟨fun i hi hm => hmoved i ?_ hm, fun d hd => hkept d fun i hi => hd i (by omega)⟩
      rcases Nat.lt_succ_iff_lt_or_eq.1 hi with hi | rfl
      · exact hi
      · exact absurd hm hnot
    · have hn : Defrag.Moved nKv ids n := not_or.1 hstay
      constructor
      · intro i hi hm
        by_cases hin : i = n
        · subst hin
          rw [Function.update_self, hrow i le_rfl]
        · rw [Function.update_of_ne fun h => hin (hinj i n hm hn h)]
          exact hmoved i (by omega) hm
      · intro d hd
        rw [Function.update_of_ne (hd n (Nat.lt_succ_self n) hn).symm]
        exact hkept d fun i hi => hd i (by omega)

end MoveRows

/-- Every cell left by `defrag_prepare` that is not empty comes, with its rows, from one place. -/
theorem KvCache.defragPrepare_spec {m : KvParams} {size : Nat} {c : KvCache m size} {s : Defrag}
    (h : c.defragPrepare = some s) : ∃ src : Nat → Nat, (∀ i, i ≤ src i) ∧
      ∀ i, (s.cells i).seqId ≠ ∅ → s.cells i = c.cells (src i) ∧
        ∀ {α : Type} (rows : Nat → α),
          (if s.nMoves = 0 then rows else moveRows (cellMax c.cells size) s.ids rows) i =
            rows (src i) := by
  obtain ⟨f, hinv⟩ := (Defrag.Inv.start c.head).loop h
  have hrows {α : Type} (rows : Nat → α) := foldl_moveRows hinv.lt hinv.inj rows
    (cellMax c.cells size)
  classical
  refine ⟨fun i => if hi : ∃ j, Defrag.Moved (cellMax c.cells size) s.ids j ∧ s.ids j = i
    then hi.choose else i, fun i => ?_, fun i hne => ?_⟩
  · dsimp only
    split_ifs with hi
    · obtain ⟨hm, hids⟩ := hi.choose_spec
      exact hids.symm.le.trans (hinv.lt _ hm).2.le
    · exact le_rfl
  · dsimp only
    split_ifs with hi hmoves
    · exact absurd hmoves (hinv.counted _ hi.choose_spec.1)
    · obtain ⟨hm, hids⟩ := hi.choose_spec
      refine ⟨?_, fun rows => ?_⟩
      · rw [← hinv.moved _ hm, hids]
      · have := (hrows rows).1 _ (hinv.lt _ hm).1 hm
        rwa [hids] at this
    all_goals
      have hdst : ∀ j, Defrag.Moved (cellMax c.cells size) s.ids j → s.ids j ≠ i := fun j hj hij =>
        hi ⟨j, hj, hij⟩
      have hnot : ¬ Defrag.Moved (cellMax c.cells size) s.ids i := fun hm =>
        hne (by rw [hinv.left i hdst hm])
    · exact ⟨hinv.kept i hdst hnot, fun rows => rfl⟩
    · exact ⟨hinv.kept i hdst hnot, fun rows => (hrows rows).2 i fun j _ hj => hdst j hj⟩

end LamaServer
