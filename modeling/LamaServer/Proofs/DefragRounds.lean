import LamaServer.Proofs.KvAccount

/-!
# The rounds of a defragmentation

Where `used` counts the cells that are not empty, a hole below it always finds as many cells beyond
it. So the assertion of `defrag_prepare` holds, the cells that move and their places are apart, and
the holes are filled from below until the moves run out.
-/

namespace LamaServer

open Index (firstBelow)

namespace Defrag

variable {nKv nUsed maxMoves i0 nh : Nat} {cells₀ : Nat → KvCell}

/-- The cells below `n` that a hole can take. -/
def movable (s : Defrag) (nKv n : Nat) : Nat := Nat.count (fun j => ¬ s.skips nKv j) n

theorem movable_succ (s : Defrag) (nKv n : Nat) :
    s.movable nKv (n + 1) = s.movable nKv n + if s.skips nKv n then 0 else 1 := by
  rw [movable, Nat.count_succ, ← movable]
  split_ifs <;> simp_all

theorem movable_mono (s : Defrag) (nKv : Nat) {n n' : Nat} (h : n ≤ n') :
    s.movable nKv n ≤ s.movable nKv n' :=
  Nat.count_monotone _ h

/-- The scan from the end succeeds where enough cells are left. -/
theorem findTail_movable {s : Defrag} : ∀ {i nf : Nat}, nf < nh →
    s.movable nKv (i0 + 1) + nh ≤ s.movable nKv (i + 1) + nf →
      ∃ tail, s.findTail nKv i0 nh i nf = (nh, tail) ∧
        s.movable nKv tail + nh = s.movable nKv (i + 1) + nf
  | 0, nf, hnf, h => by
    have := s.movable_mono nKv (show 0 + 1 ≤ i0 + 1 by omega)
    omega
  | i + 1, nf, hnf, h => by
    have hsucc := s.movable_succ nKv (i + 1)
    simp only [findTail]
    split_ifs with hlow hskip hlast
    · have := s.movable_mono nKv (show i + 1 + 1 ≤ i0 + 1 by omega)
      omega
    · rw [if_pos hskip] at hsucc
      obtain ⟨tail, htail, hcount⟩ := findTail_movable (s := s) (i := i) hnf (by omega)
      exact ⟨tail, htail, by omega⟩
    · rw [if_neg hskip] at hsucc
      exact ⟨i + 1, by rw [hlast], by omega⟩
    · rw [if_neg hskip] at hsucc
      obtain ⟨tail, htail, hcount⟩ :=
        findTail_movable (s := s) (i := i) (show nf + 1 < nh by omega) (by omega)
      exact ⟨tail, htail, by omega⟩

theorem skips_move {s : Defrag} {i1 dst i : Nat} {cont : Bool} (h1 : i ≠ i1) (hd : i ≠ dst) :
    (s.move nUsed i1 dst cont).skips nKv i ↔ s.skips nKv i := by
  simp only [skips, move, Function.update_of_ne h1, Function.update_of_ne hd]

theorem count_movable_succ (s : Defrag) (i1 r : Nat) :
    Nat.count (fun j => ¬ s.skips nKv (i1 + j)) (r + 1) =
      Nat.count (fun j => ¬ s.skips nKv (i1 + 1 + j)) r + if s.skips nKv i1 then 0 else 1 := by
  have hshift : ∀ j, i1 + (j + 1) = i1 + 1 + j := fun j => by omega
  rw [Nat.count_succ', Index.count_congr fun j _ => by rw [hshift j]]
  by_cases h : s.skips nKv i1 <;> simp [h]

/-- With enough cells left, the hole is filled, unless the moves run out. -/
theorem fill_filled : ∀ {r i1 nf : Nat} {cont : Bool} {s : Defrag}, nf < nh → i0 + nh ≤ i1 →
    nh ≤ Nat.count (fun j => ¬ s.skips nKv (i1 + j)) r + nf →
    (∀ i < i0 + nf, (s.cells i).seqId ≠ ∅) →
      (fill nKv nUsed maxMoves i0 nh r i1 nf cont s).1.nMoves = maxMoves ∨
        (fill nKv nUsed maxMoves i0 nh r i1 nf cont s).2 = false ∧
          ∀ i < i0 + nh, ((fill nKv nUsed maxMoves i0 nh r i1 nf cont s).1.cells i).seqId ≠ ∅
  | 0, i1, nf, cont, s, hnf, _, hcount, _ => by
    rw [Nat.count_zero] at hcount
    omega
  | r + 1, i1, nf, cont, s, hnf, hi1, hcount, hlow => by
    rw [count_movable_succ] at hcount
    have hmoved : ∀ cont i, i < i0 + nf + 1 → ¬ s.skips nKv i1 →
        ((s.move nUsed i1 (i0 + nf) cont).cells i).seqId ≠ ∅ := by
      intro cont i hi hskip
      have hne : i ≠ i1 := by omega
      simp only [move, Function.update_of_ne hne]
      by_cases hdst : i = i0 + nf
      · rw [hdst, Function.update_self]
        exact (not_or.1 hskip).1
      · rw [Function.update_of_ne hdst]
        exact hlow i (by omega)
    simp only [fill]
    split_ifs with hskip hmax hlast
    · exact .inl hmax
    · rw [if_pos hskip] at hcount
      exact fill_filled hnf (by omega) (by omega) hlow
    · exact .inr ⟨rfl, fun i hi => hmoved cont i (by omega) hskip⟩
    · rw [if_neg hskip] at hcount
      refine fill_filled (by omega) (by omega) ?_ fun i hi => hmoved cont i (by omega) hskip
      rw [Index.count_congr fun j _ => (skips_move (by omega) (by omega)).not]
      omega

/-! ## The cells that move and their places -/

/-- Cells in use move from `nUsed` on or above, to cells below it that were empty. -/
structure Apart (nKv nUsed : Nat) (cells₀ : Nat → KvCell) (s : Defrag) : Prop where
  source : ∀ i, Moved nKv s.ids i → nUsed ≤ i ∧ (cells₀ i).seqId ≠ ∅
  dest : ∀ i, Moved nKv s.ids i → s.ids i < nUsed ∧ (cells₀ (s.ids i)).seqId = ∅

theorem moved_move {s : Defrag} {i1 dst i : Nat} {cont : Bool}
    (h : Moved nKv (s.move nUsed i1 dst cont).ids i) :
    i = i1 ∧ (s.move nUsed i1 dst cont).ids i = dst ∨
      Moved nKv s.ids i ∧ (s.move nUsed i1 dst cont).ids i = s.ids i := by
  by_cases hi : i = i1
  · subst hi
    exact .inl ⟨rfl, Function.update_self ..⟩
  · have hids : (s.move nUsed i1 dst cont).ids i = s.ids i := Function.update_of_ne hi _ _
    refine .inr ⟨?_, hids⟩
    simpa only [Moved, hids] using h

theorem Apart.fill : ∀ {r i1 nf : Nat} {cont : Bool} {s : Defrag},
    Inv nKv cells₀ (i0 + nf) s → Apart nKv nUsed cells₀ s → nf < nh → i0 + nh ≤ nUsed →
    nUsed ≤ i1 → i1 + r ≤ nKv → (cont → s.nMoves ≠ 0) →
    (∀ j < nh, (cells₀ (i0 + j)).seqId = ∅) →
      Apart nKv nUsed cells₀ (fill nKv nUsed maxMoves i0 nh r i1 nf cont s).1
  | 0, _, _, _, _, _, h, _, _, _, _, _, _ => h
  | r + 1, i1, nf, cont, s, hinv, h, hnf, hu, hi1, hr, hcont, hhole => by
    simp only [Defrag.fill]
    split_ifs with hskip hmax hlast
    · exact h
    · exact Apart.fill hinv h hnf hu (by omega) (by omega) (by simp) hhole
    all_goals
      have hmove : Apart nKv nUsed cells₀ (s.move nUsed i1 (i0 + nf) cont) := by
        have hne := (not_or.1 hskip).1
        have hcell := (hinv.untouched (by omega) hne).2
        refine ⟨fun i hi => ?_, fun i hi => ?_⟩
        · rcases moved_move hi with ⟨rfl, -⟩ | ⟨hi, -⟩
          · exact ⟨hi1, hcell ▸ hne⟩
          · exact h.source i hi
        · rcases moved_move hi with ⟨-, hids⟩ | ⟨hi, hids⟩
          · rw [hids]
            exact ⟨by omega, hhole nf hnf⟩
          · rw [hids]
            exact h.dest i hi
    · exact hmove
    · have hnext := hinv.move nUsed (by omega) (by omega) hskip hcont
      refine Apart.fill hnext hmove (by omega) hu (by omega) (by omega) (fun _ => ?_) hhole
      exact hnext.counted i1 (by simp only [Moved, Defrag.move, Function.update_self]; omega)

/-! ## Rounds -/

theorem fill_ids : ∀ {r i1 nf : Nat} {cont : Bool} {s : Defrag} {i : Nat}, nf < nh →
    i0 + nh ≤ i1 →
    (fill nKv nUsed maxMoves i0 nh r i1 nf cont s).1.ids i = i → s.ids i = i
  | 0, _, _, _, _, _, _, _, h => h
  | r + 1, i1, nf, cont, s, i, hnf, hi1, h => by
    simp only [fill] at h
    split_ifs at h with hskip hmax hlast
    · exact h
    · exact fill_ids hnf (by omega) h
    all_goals
      have hmove : (s.move nUsed i1 (i0 + nf) cont).ids i = i → s.ids i = i := by
        intro hi
        by_cases hi1 : i = i1
        · subst hi1
          simp only [move, Function.update_self] at hi
          omega
        · simpa only [move, Function.update_of_ne hi1] using hi
    · exact hmove h
    · exact hmove (fill_ids (by omega) (by omega) h)

/-- What holds before a round: the cells below `i0` are in use, and the others in use can move. -/
structure Round (nKv nUsed : Nat) (cells₀ : Nat → KvCell) (i0 : Nat) (s : Defrag) : Prop where
  inv : Inv nKv cells₀ i0 s
  apart : Apart nKv nUsed cells₀ s
  filled : ∀ i < i0, (s.cells i).seqId ≠ ∅
  stay : ∀ i < nKv, s.ids i = i → i < i0
  count : s.nonEmpty nKv = nUsed

variable {s : Defrag}

/-- A cell that is empty now and is no place of a moved cell was empty at the start. -/
theorem Round.hole (h : Round nKv nUsed cells₀ i0 s) {i : Nat} (hi : i0 ≤ i) (hu : i < nUsed)
    (he : (s.cells i).seqId = ∅) : (cells₀ i).seqId = ∅ := by
  have hdst : ∀ j, Moved nKv s.ids j → s.ids j ≠ i := fun j hj => by
    have := h.inv.below j hj
    omega
  have hnot : ¬ Moved nKv s.ids i := fun hm => by
    have := (h.apart.source i hm).1
    omega
  rw [← h.inv.kept i hdst hnot]
  exact he

theorem Round.skips_iff (h : Round nKv nUsed cells₀ i0 s) {i : Nat} (hi : i0 ≤ i) (hkv : i < nKv) :
    ¬ s.skips nKv i ↔ (s.cells i).seqId ≠ ∅ := by
  refine ⟨fun hskip => (not_or.1 hskip).1, fun hne => not_or.2 ⟨hne, not_not.2 ?_⟩⟩
  have hnot := (h.inv.untouched hi hne).1
  by_contra hid
  have := h.stay i hkv (by_contra fun hself => hnot ⟨hself, hid⟩)
  omega

/-- From `i0` on, the cells in use are those that can move. -/
theorem Round.movable_add (h : Round nKv nUsed cells₀ i0 s) {n : Nat} (hi : i0 ≤ n)
    (hkv : n ≤ nKv) : s.movable nKv n + i0 = s.movable nKv i0 + s.nonEmpty n := by
  obtain ⟨k, rfl⟩ := Nat.exists_eq_add_of_le hi
  have hlow : Nat.count (fun i => (s.cells i).seqId ≠ ∅) i0 = i0 :=
    Nat.count_of_forall fun i hi => h.filled i hi
  rw [movable, nonEmpty, Nat.count_add, Nat.count_add, hlow, ← movable,
    Index.count_congr fun j hj => h.skips_iff (i := i0 + j) (by omega) (by omega)]
  omega

/-- The hole finds as many cells to move, from `nUsed` on. -/
theorem Round.tail (h : Round nKv nUsed cells₀ i0 s) (hlt : i0 < nUsed) (hle : nUsed ≤ nKv)
    (hnh : nh = firstBelow (nUsed - i0) (fun j => (s.cells (i0 + j)).seqId ≠ ∅))
    (hempty : (s.cells i0).seqId = ∅) :
    ∃ tail, s.findTail nKv i0 nh (nKv - 1) 0 = (nh, tail) ∧ nUsed ≤ tail ∧ tail < nKv ∧
      nh = Nat.count (fun j => ¬ s.skips nKv (tail + j)) (nKv - tail) := by
  have hnu : nh ≤ nUsed - i0 := hnh ▸ Index.firstBelow_le
  have hpos : 0 < nh := by
    by_contra h0
    have hz : firstBelow (nUsed - i0) (fun j => (s.cells (i0 + j)).seqId ≠ ∅) = 0 := by omega
    have := Index.firstBelow_spec (n := nUsed - i0)
      (p := fun j => (s.cells (i0 + j)).seqId ≠ ∅) (by omega)
    rw [hz] at this
    simp [hempty] at this
  have hall := h.movable_add (hlt.le.trans hle) le_rfl
  rw [h.count] at hall
  have hsucc := s.movable_succ nKv i0
  rw [if_pos (.inl hempty)] at hsucc
  have hlast : nKv - 1 + 1 = nKv := by omega
  obtain ⟨tail, htail, hmov⟩ : ∃ tail, s.findTail nKv i0 nh (nKv - 1) 0 = (nh, tail) ∧
      s.movable nKv tail + nh = s.movable nKv (nKv - 1 + 1) + 0 :=
    findTail_movable hpos (by rw [hlast]; omega)
  rw [hlast] at hmov
  obtain ⟨-, hbeyond, htl, hhole⟩ := hole_spec hlt hempty hnh htail
  refine ⟨tail, htail, ?_, htl, ?_⟩
  · -- the cells in use below the tail are those below `i0` and some from `i0 + nh` on
    have hin := h.movable_add (n := tail) (by omega) htl.le
    have hgap := h.movable_add (n := i0 + nh) (by omega) (by omega)
    have hnone : s.movable nKv (i0 + nh) = s.movable nKv i0 := by
      rw [movable, Nat.count_add, ← movable,
        Nat.count_of_forall_not fun j hj => not_not.2 (.inl (hhole j hj)), Nat.add_zero]
    obtain ⟨k, rfl⟩ := Nat.exists_eq_add_of_le hbeyond
    have hk : s.movable nKv (i0 + nh + k) ≤ s.movable nKv (i0 + nh) + k := by
      rw [movable, Nat.count_add, ← movable]
      exact Nat.add_le_add_left (Nat.count_le _) _
    omega
  · have hsplit : s.movable nKv nKv = s.movable nKv tail +
        Nat.count (fun j => ¬ s.skips nKv (tail + j)) (nKv - tail) := by
      rw [movable, movable, ← Nat.count_add, Nat.add_sub_cancel' htl.le]
    omega

theorem Round.fix (h : Round nKv nUsed cells₀ i0 s) (hne : (s.cells i0).seqId ≠ ∅) :
    Round nKv nUsed cells₀ (i0 + 1) { s with ids := Function.update s.ids i0 i0 } := by
  have hm : ∀ i, Moved nKv (Function.update s.ids i0 i0) i →
      Moved nKv s.ids i ∧ Function.update s.ids i0 i0 i = s.ids i := by
    intro i hi
    by_cases h0 : i = i0
    · exact absurd (by simp [h0]) hi.1
    · simpa only [Moved, Function.update_of_ne h0, and_true] using hi
  refine ⟨h.inv.fix hne, ⟨fun i hi => h.apart.source i (hm i hi).1, fun i hi => ?_⟩, fun i hi => ?_,
    fun i hi hid => ?_, h.count⟩
  · simpa only [(hm i hi).2] using h.apart.dest i (hm i hi).1
  · rcases Nat.lt_succ_iff_lt_or_eq.1 hi with hi | rfl
    · exact h.filled i hi
    · exact hne
  · by_cases h0 : i = i0
    · omega
    · have := h.stay i hi (by simpa only [Function.update_of_ne h0] using hid)
      omega

/-- What `defrag_prepare` leaves. -/
structure Final (nKv nUsed maxMoves : Nat) (cells₀ : Nat → KvCell) (s : Defrag) : Prop where
  inv : ∃ f, Inv nKv cells₀ f s
  apart : Apart nKv nUsed cells₀ s
  count : s.nonEmpty nKv = nUsed
  filled : s.nMoves = maxMoves ∨ ∀ i < nUsed, (s.cells i).seqId ≠ ∅

/-- A hole is filled, and the next round starts behind it, unless the moves have run out. -/
theorem Round.fill (h : Round nKv nUsed cells₀ i0 s) {tail : Nat} (hpos : 0 < nh)
    (hnu : i0 + nh ≤ nUsed) (hu : nUsed ≤ tail) (htl : tail < nKv)
    (hhole : ∀ j < nh, (s.cells (i0 + j)).seqId = ∅)
    (hcount : nh = Nat.count (fun j => ¬ s.skips nKv (tail + j)) (nKv - tail))
    {filled : Defrag × Bool}
    (hfilled : Defrag.fill nKv nUsed maxMoves i0 nh (nKv - tail) tail 0 false s = filled) :
    Final nKv nUsed maxMoves cells₀ filled.1 ∧ filled.1.nMoves = maxMoves ∨
      Round nKv nUsed cells₀ (i0 + nh) filled.1 ∧ ¬ (filled.2 ∨ filled.1.nMoves = maxMoves) := by
  have hbeyond : i0 + nh ≤ tail := hnu.trans hu
  have hinv : Inv nKv cells₀ (i0 + nh) filled.1 :=
    hfilled ▸ h.inv.fill hpos hbeyond (by omega) (by simp)
  have hapart : Apart nKv nUsed cells₀ filled.1 :=
    hfilled ▸ Apart.fill h.inv h.apart hpos hnu hu (by omega) (by simp) fun j hj =>
      h.hole (by omega) (by omega) (hhole j hj)
  have hnon : filled.1.nonEmpty nKv = nUsed := by
    rw [← h.count, ← hfilled]
    exact fill_nonEmpty le_rfl (fun j _ hj => hhole j hj) hpos hbeyond (by omega)
  have hfull : filled.1.nMoves = maxMoves ∨
      filled.2 = false ∧ ∀ i < i0 + nh, (filled.1.cells i).seqId ≠ ∅ :=
    hfilled ▸ fill_filled hpos hbeyond hcount.le h.filled
  by_cases hmax : filled.1.nMoves = maxMoves
  · exact .inl ⟨⟨⟨_, hinv⟩, hapart, hnon, .inl hmax⟩, hmax⟩
  · obtain ⟨hstop, hlow⟩ := hfull.resolve_left hmax
    refine .inr ⟨⟨hinv, hapart, hlow, fun i hi hid => ?_, hnon⟩, by simp [hstop, hmax]⟩
    have := h.stay i hi (fill_ids hpos hbeyond (hfilled ▸ hid))
    omega

/-- The loop ends, however many rounds it is given, and its assertion holds. -/
theorem Round.loop (maxMoves : Nat) (hle : nUsed ≤ nKv) : ∀ {n i0 : Nat} {s : Defrag}, nUsed ≤ i0 + n →
    Round nKv nUsed cells₀ i0 s →
      ∃ s', (∀ r, nUsed ≤ i0 + r → Defrag.loop nKv nUsed maxMoves r i0 s = some s') ∧
        Final nKv nUsed maxMoves cells₀ s'
  | 0, i0, s, hn, h => by
    refine ⟨s, fun r _ => ?_, ⟨⟨_, h.inv⟩, h.apart, h.count, .inr fun i hi =>
      h.filled i (by omega)⟩⟩
    cases r with
    | zero => rfl
    | succ r => rw [Defrag.loop, if_pos (show nUsed ≤ i0 from hn)]
  | n + 1, i0, s, hn, h => by
    by_cases hlt : i0 < nUsed
    · have hrounds : ∀ r, nUsed ≤ i0 + r → ∃ k, r = k + 1 := fun r hr => ⟨r - 1, by omega⟩
      by_cases hempty : (s.cells i0).seqId = ∅
      · obtain ⟨tail, htail, hu, htl, hcount⟩ := h.tail hlt hle rfl hempty
        generalize hnh : firstBelow (nUsed - i0)
          (fun j => (s.cells (i0 + j)).seqId ≠ ∅) = nh at htail hcount
        generalize hfilled : Defrag.fill nKv nUsed maxMoves i0 nh (nKv - tail) tail 0 false s =
          filled
        obtain ⟨hpos, -, -, hhole⟩ := hole_spec hlt hempty hnh.symm htail
        have hnu : nh ≤ nUsed - i0 := hnh ▸ Index.firstBelow_le
        have hstep : ∀ r, Defrag.loop nKv nUsed maxMoves (r + 1) i0 s =
            if filled.2 ∨ filled.1.nMoves = maxMoves then some filled.1
            else Defrag.loop nKv nUsed maxMoves r (i0 + nh) filled.1 := by
          intro r
          rw [Defrag.loop, if_neg (not_le.2 hlt), if_neg (not_not.2 hempty)]
          simp only [hnh, htail, hfilled, ne_eq, not_true_eq_false, if_false]
        rcases h.fill hpos (by omega) hu htl hhole hcount hfilled with
          ⟨hfinal, hmax⟩ | ⟨hround, hgo⟩
        · refine ⟨filled.1, fun r hr => ?_, hfinal⟩
          obtain ⟨k, rfl⟩ := hrounds r hr
          rw [hstep, if_pos (.inr hmax)]
        · obtain ⟨s', hs', hfinal⟩ := hround.loop maxMoves hle (n := n) (by omega)
          refine ⟨s', fun r hr => ?_, hfinal⟩
          obtain ⟨k, rfl⟩ := hrounds r hr
          rw [hstep, if_neg hgo]
          exact hs' k (by omega)
      · obtain ⟨s', hs', hfinal⟩ := (h.fix hempty).loop maxMoves hle (n := n) (by omega)
        refine ⟨s', fun r hr => ?_, hfinal⟩
        obtain ⟨k, rfl⟩ := hrounds r hr
        rw [Defrag.loop, if_neg (not_le.2 hlt), if_pos hempty]
        exact hs' k (by omega)
    · exact h.loop maxMoves hle (n := n) (by omega)

end Defrag

end LamaServer
