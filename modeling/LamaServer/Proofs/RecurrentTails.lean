import Mathlib
import LamaServer.KvRecurrent

/-!
# The tails of the recurrent KV cache

The tail of a sequence is an inverse index that is kept in the cells it points into. `AtRest` says
that it is exact: a sequence is in the cell that its tail names and in no other, and `used` counts
the cells that are not empty. The operations on sequences keep it. What does not is taking all
sequences off at once, which leaves the tails behind, and moving a position below zero.
-/

namespace LamaServer

open Index (count_or count_congr)

variable {size : Nat} {c c' : RecurrentCache size} {fresh : Int → Prop}

namespace RecurrentCache

/-- The tails are exact but for the sequences in `fresh`, whose tails no cell may answer. -/
structure Linked (fresh : Int → Prop) (c : RecurrentCache size) : Prop where
  owns : ∀ i < size, ∀ t ∈ (c.cells i).seqId, 0 ≤ t ∧ t < size ∧ c.tail t = i
  listed : ∀ t : Int, 0 ≤ t → t < size → ¬ fresh t → 0 ≤ c.tail t →
    c.tail t < size ∧ t ∈ (c.cells (c.tail t).toNat).seqId
  low : ∀ t : Int, 0 ≤ t → t < size → -1 ≤ c.tail t
  posed : ∀ i < size, 0 ≤ (c.cells i).pos ↔ (c.cells i).seqId ≠ ∅

/-- What holds of a cache between two operations. -/
structure AtRest (c : RecurrentCache size) : Prop extends Linked (fun _ => False) c where
  used : c.used = Nat.count (fun i => (c.cells i).seqId ≠ ∅) size
  head : c.head < size

theorem Linked.mono {fresh' : Int → Prop} (h : c.Linked fresh) (hle : ∀ t, fresh t → fresh' t) :
    c.Linked fresh' :=
  ⟨h.owns, fun t h0 ht hn => h.listed t h0 ht fun hf => hn (hle t hf), h.low, h.posed⟩

/-- The state of a sequence: the row that it is in, and the position that it has come to. -/
def stateOf (c : RecurrentCache size) (t : Int) : Option (Int × Int) :=
  if 0 ≤ c.tail t then
    some ((c.cells (c.tail t).toNat).src, (c.cells (c.tail t).toNat).pos)
  else none

theorem stateOf_of_cell {t : Int} (hl : 0 ≤ c.tail t) (hl' : 0 ≤ c'.tail t)
    (hsrc : (c'.cells (c'.tail t).toNat).src = (c.cells (c.tail t).toNat).src)
    (hpos : (c'.cells (c'.tail t).toNat).pos = (c.cells (c.tail t).toNat).pos) :
    c'.stateOf t = c.stateOf t := by
  rw [stateOf, stateOf, if_pos hl, if_pos hl', hsrc, hpos]

theorem stateOf_of_neg {t : Int} (hl : c.tail t < 0) (hl' : c'.tail t < 0) :
    c'.stateOf t = c.stateOf t := by
  rw [stateOf, stateOf, if_neg (by omega), if_neg (by omega)]

theorem tail_nonneg_of_stateOf {t : Int} (h : c'.stateOf t = c.stateOf t) (hl : 0 ≤ c.tail t) :
    0 ≤ c'.tail t := by
  by_contra hl'
  rw [stateOf, stateOf, if_pos hl, if_neg hl'] at h
  simp at h

/-- The cell of a tail lists the sequence. -/
theorem Linked.mem_tail (h : c.Linked fun _ => False) {t : Int} (h0 : 0 ≤ t) (ht : t < size)
    (hl : 0 ≤ c.tail t) : ∃ i < size, c.tail t = (i : ℕ) ∧ t ∈ (c.cells i).seqId := by
  obtain ⟨hlt, hmem⟩ := h.listed t h0 ht not_false hl
  exact ⟨(c.tail t).toNat, by omega, by omega, hmem⟩

theorem Linked.not_mem_of_tail_neg (h : c.Linked fresh) {t : Int} (hl : c.tail t < 0) {i : ℕ}
    (hi : i < size) : t ∉ (c.cells i).seqId := by
  intro hm
  have := (h.owns i hi t hm).2.2
  omega

/-- A sequence is in one cell only. -/
theorem Linked.eq_of_mem (h : c.Linked fresh) {i j : ℕ} (hi : i < size) (hj : j < size) {t : Int}
    (hti : t ∈ (c.cells i).seqId) (htj : t ∈ (c.cells j).seqId) : i = j := by
  have h1 := (h.owns i hi t hti).2.2
  have h2 := (h.owns j hj t htj).2.2
  omega

/-- A sequence without a cell of its own leaves a cell empty. -/
theorem Linked.exists_empty (h : c.Linked fun _ => False) {t : Int} (h0 : 0 ≤ t) (ht : t < size)
    (hown : ¬ (0 ≤ c.tail t ∧ (c.cells (c.tail t).toNat).seqId.card = 1)) :
    ∃ i < size, (c.cells i).seqId = ∅ := by
  by_contra hall
  have hne : ∀ i < size, ∃ r, r ∈ (c.cells i).seqId := fun i hi =>
    Finset.nonempty_iff_ne_empty.2 fun he => hall ⟨i, hi, he⟩
  choose! r hr using hne
  -- as many sequences as cells: each sequence is the chosen one of a cell
  have himage : (Finset.range size).image r = Finset.Ico (0 : Int) size := by
    refine Finset.eq_of_subset_of_card_le (fun s hs => ?_) ?_
    · obtain ⟨i, hi, rfl⟩ := Finset.mem_image.1 hs
      obtain ⟨hs0, hslt, -⟩ := h.owns i (Finset.mem_range.1 hi) _ (hr i (Finset.mem_range.1 hi))
      exact Finset.mem_Ico.2 ⟨hs0, hslt⟩
    · rw [Int.card_Ico, Finset.card_image_of_injOn fun i hi j hj hij => ?_, Finset.card_range]
      · omega
      · have hi : i < size := by simpa using hi
        have hj : j < size := by simpa using hj
        exact h.eq_of_mem hi hj (hr i hi) (hij ▸ hr j hj)
  have hchosen (s : Int) (hs0 : 0 ≤ s) (hslt : s < size) : ∃ i < size, r i = s := by
    have hs : s ∈ (Finset.range size).image r := himage ▸ Finset.mem_Ico.2 ⟨hs0, hslt⟩
    simpa using hs
  obtain ⟨i, hi, rfl⟩ := hchosen t h0 ht
  have htl := (h.owns i hi _ (hr i hi)).2.2
  refine hown ⟨by omega, ?_⟩
  rw [htl, Int.toNat_natCast, Finset.card_eq_one]
  refine ⟨r i, Finset.eq_singleton_iff_unique_mem.2 ⟨hr i hi, fun s hs => ?_⟩⟩
  obtain ⟨hs0, hslt, -⟩ := h.owns i hi s hs
  obtain ⟨j, hj, rfl⟩ := hchosen s hs0 hslt
  rw [h.eq_of_mem hi hj hs (hr j hj)]

/-- The checks of the tails in `find_slot` report nothing. -/
theorem Linked.tailsVerified (h : c.Linked fun _ => False) : c.TailsVerified := by
  refine ⟨fun i hi j hj t hti htj => h.eq_of_mem hi hj hti htj, fun s hs => ?_⟩
  · unfold tailVerif
    have htail : c.tail s = (c.cells s).tail := by simp [tail]
    cases hf : (List.range size).reverse.find? fun i => (s : Int) ∈ (c.cells i).seqId with
    | some i =>
      have hi := List.mem_of_find?_eq_some hf
      have hm := List.find?_some hf
      simp only [List.mem_reverse, List.mem_range, decide_eq_true_eq] at hi hm
      simpa [htail] using (h.owns i hi s hm).2.2.symm
    | none =>
      rw [List.find?_eq_none] at hf
      have hneg : ¬ 0 ≤ c.tail s := fun hl => by
        obtain ⟨i, hi, -, hm⟩ := h.mem_tail (by omega) (by omega) hl
        exact hf i (by simpa using hi) (by simpa using hm)
      have := h.low s (by omega) (by omega)
      rw [← htail]
      show (-1 : Int) = c.tail s
      omega

/-! ## Taking sequences off -/

/-- Taking the sequences in `D` off all cells. -/
theorem AtRest.drop {D : Int → Prop} [DecidablePred D] (h : c.AtRest)
    (hids : ∀ i < size, (c'.cells i).seqId = (c.cells i).seqId.filter fun t => ¬ D t)
    (htail : ∀ t : Int, 0 ≤ t → t < size → c'.tail t = if D t then -1 else c.tail t)
    (hpos : ∀ i < size, 0 ≤ (c'.cells i).pos ↔ (c'.cells i).seqId ≠ ∅)
    (hused : c'.used = c.used -
      Nat.count (fun i => (c.cells i).seqId ≠ ∅ ∧ (c'.cells i).seqId = ∅) size)
    (hhead : c'.head ≤ c.head) : c'.AtRest where
  owns i hi t ht := by
    rw [hids i hi, Finset.mem_filter] at ht
    obtain ⟨h0, hlt, htl⟩ := h.owns i hi t ht.1
    exact ⟨h0, hlt, by rw [htail t h0 hlt, if_neg ht.2, htl]⟩
  listed t h0 ht _ hl := by
    rw [htail t h0 ht] at hl ⊢
    split at hl
    · omega
    · rename_i hD
      rw [if_neg hD]
      obtain ⟨hlt, hm⟩ := h.listed t h0 ht not_false hl
      refine ⟨hlt, ?_⟩
      rw [hids _ (by omega), Finset.mem_filter]
      exact ⟨hm, hD⟩
  low t h0 ht := by
    rw [htail t h0 ht]
    split
    · exact le_rfl
    · exact h.low t h0 ht
  posed := hpos
  used := by
    have hsub : ∀ i < size, (c'.cells i).seqId ≠ ∅ → (c.cells i).seqId ≠ ∅ := fun i hi hne he => by
      rw [hids i hi, he] at hne
      exact hne rfl
    have hcount := count_or (n := size) (p := fun i => (c.cells i).seqId ≠ ∅)
      (q := fun i => (c'.cells i).seqId ≠ ∅)
      (r := fun i => (c.cells i).seqId ≠ ∅ ∧ (c'.cells i).seqId = ∅)
      (fun i hi => by
        have := hsub i hi
        tauto)
      (fun i _ => by tauto)
    rw [hused, h.used, hcount]
    push_cast
    ring
  head := lt_of_le_of_lt hhead h.head

/-- Nothing changes that the tails and the count are about. -/
theorem AtRest.frame (h : c.AtRest) (hids : ∀ i, (c'.cells i).seqId = (c.cells i).seqId)
    (htail : ∀ t : Int, c'.tail t = c.tail t)
    (hpos : ∀ i < size, 0 ≤ (c'.cells i).pos ↔ 0 ≤ (c.cells i).pos) (hused : c'.used = c.used)
    (hhead : c'.head = c.head) : c'.AtRest := by
  refine h.drop (D := fun _ => False) (fun i _ => by simp [hids i]) (fun t _ _ => by simp [htail])
    (fun i hi => ?_) ?_ hhead.le
  · rw [hids, hpos i hi]
    exact h.posed i hi
  · rw [Nat.count_of_forall_not fun i _ => by simp [hids i], hused]
    simp

theorem sweep_head_le (body : Nat → RecurrentCell → RecurrentTouched) :
    (c.sweep body).head ≤ c.head := by
  unfold RecurrentCache.sweep
  dsimp only
  split <;> omega

/-- A loop that takes a sequence off the cells, or all but one. -/
theorem AtRest.sweep {D : Int → Prop} [DecidablePred D]
    {body : Nat → RecurrentCell → RecurrentTouched} (h : c.AtRest)
    (hids : ∀ i < size, (body i (c.cells i)).cell.seqId = (c.cells i).seqId.filter fun t => ¬ D t)
    (htail : ∀ t : Int, 0 ≤ t → t < size →
      (body t.toNat (c.cells t.toNat)).cell.tail = if D t then -1 else c.tail t)
    (hpos : ∀ i < size, 0 ≤ (body i (c.cells i)).cell.pos ↔ (body i (c.cells i)).cell.seqId ≠ ∅)
    (hunused : ∀ i < size, (body i (c.cells i)).unused = true ↔
      (c.cells i).seqId ≠ ∅ ∧ (body i (c.cells i)).cell.seqId = ∅) :
    (c.sweep body).AtRest :=
  h.drop hids htail hpos (by
    show c.used - (Nat.count _ size : Int) = _
    rw [count_congr hunused]
    rfl) (sweep_head_le body)

theorem AtRest.clear : c.clear.AtRest where
  owns i _ t ht := by simp [RecurrentCache.clear] at ht
  listed t _ _ _ hl := by simp [RecurrentCache.clear, tail] at hl
  low t _ _ := by simp [RecurrentCache.clear, tail]
  posed i _ := by simp [RecurrentCache.clear]
  used := by simp [RecurrentCache.clear]
  head := c.size_pos

theorem AtRest.seqKeep (h : c.AtRest) (seqId : Int) : (c.seqKeep seqId).AtRest := by
  have hkeep : ∀ i, ((RecurrentCell.keep seqId i (c.cells i)).cell.seqId =
      (c.cells i).seqId.filter fun t => ¬ t ≠ seqId) := fun i => by
    ext t
    unfold RecurrentCell.keep
    dsimp only
    split
    · rename_i hm
      simp only [Finset.mem_singleton, Finset.mem_filter, not_not]
      exact ⟨fun ht => ⟨ht ▸ hm, ht⟩, fun ht => ht.2⟩
    · rename_i hm
      simp only [RecurrentCell.emptied, Finset.notMem_empty, Finset.mem_filter, not_not, false_iff]
      rintro ⟨ht, rfl⟩
      exact hm ht
  refine h.sweep (D := fun t => t ≠ seqId) (fun i _ => hkeep i) (fun t h0 ht => ?_)
    (fun i hi => ?_) fun i hi => ?_
  · have htt : ((t.toNat : ℕ) : Int) = t := by omega
    have hcell : (RecurrentCell.keep seqId t.toNat (c.cells t.toNat)).cell.tail =
        if ((t.toNat : ℕ) : Int) ≠ seqId then -1 else (c.cells t.toNat).tail := by
      unfold RecurrentCell.keep
      dsimp only
      split <;> rfl
    rw [hcell, htt]
    rfl
  · unfold RecurrentCell.keep
    dsimp only
    split
    · rename_i hm
      simpa using (h.posed i hi).2 (Finset.ne_empty_of_mem hm)
    · simp [RecurrentCell.emptied]
  · have hp := h.posed i hi
    unfold RecurrentCell.keep
    dsimp only
    split
    · simp
    · simpa [RecurrentCell.emptied] using hp

theorem tail_setTail {t : Int} (ht : 0 ≤ t) {r : Int} (hr : 0 ≤ r) (v : Int) :
    (c.setTail t v).tail r = if r = t then v else c.tail r := by
  by_cases h : r = t
  · subst h
    simp [tail, setTail, modify]
  · have hne : r.toNat ≠ t.toNat := by omega
    simp [tail, setTail, modify, h, hne]

@[simp] theorem setTail_seqId (t v : Int) (i : ℕ) :
    ((c.setTail t v).cells i).seqId = (c.cells i).seqId := by
  by_cases h : i = t.toNat <;> simp [setTail, modify, h]

@[simp] theorem setTail_pos (t v : Int) (i : ℕ) :
    ((c.setTail t v).cells i).pos = (c.cells i).pos := by
  by_cases h : i = t.toNat <;> simp [setTail, modify, h]

@[simp] theorem setTail_src (t v : Int) (i : ℕ) :
    ((c.setTail t v).cells i).src = (c.cells i).src := by
  by_cases h : i = t.toNat <;> simp [setTail, modify, h]

theorem tail_modify {i : ℕ} {f : RecurrentCell → RecurrentCell}
    (hf : ∀ cell, (f cell).tail = cell.tail) (r : Int) : (c.modify i f).tail r = c.tail r := by
  by_cases h : r.toNat = i <;> simp [tail, modify, h, hf]

theorem modify_cells (i : ℕ) (f : RecurrentCell → RecurrentCell) (j : ℕ) :
    (c.modify i f).cells j = if j = i then f (c.cells i) else c.cells j := by
  by_cases h : j = i <;> simp [modify, h]

section Rm

variable {seqId q0 q1 : Int} {cell : RecurrentCell}

theorem rm_seqId (h0 : 0 ≤ seqId) : (RecurrentCell.rm seqId q0 q1 cell).cell.seqId =
    if q0 ≤ cell.pos ∧ cell.pos < q1 then cell.seqId.erase seqId else cell.seqId := by
  unfold RecurrentCell.rm
  have hneg : ¬ seqId < 0 := by omega
  by_cases hm : seqId ∈ cell.seqId
  · by_cases hp : q0 ≤ cell.pos ∧ cell.pos < q1
    · by_cases he : cell.seqId.erase seqId = ∅ <;> simp [hneg, hm, hp, he, RecurrentCell.emptied]
    · simp [hneg, hm, hp]
  · simp [hneg, hm]

theorem rm_tail : (RecurrentCell.rm seqId q0 q1 cell).cell.tail = cell.tail := by
  unfold RecurrentCell.rm
  split
  · split <;> rfl
  · rfl

theorem rm_pos (h0 : 0 ≤ seqId) (h : 0 ≤ cell.pos ↔ cell.seqId ≠ ∅) :
    0 ≤ (RecurrentCell.rm seqId q0 q1 cell).cell.pos ↔
      (RecurrentCell.rm seqId q0 q1 cell).cell.seqId ≠ ∅ := by
  unfold RecurrentCell.rm
  have hneg : ¬ seqId < 0 := by omega
  split
  · rename_i hp
    have hm := hp.2.2.resolve_left hneg
    split
    · simp [RecurrentCell.emptied]
    · rename_i he
      exact ⟨fun _ hn => he (.inr hn), fun _ => h.2 (Finset.ne_empty_of_mem hm)⟩
  · exact h

theorem rm_unused (h0 : 0 ≤ seqId) (h : 0 ≤ cell.pos ↔ cell.seqId ≠ ∅) :
    (RecurrentCell.rm seqId q0 q1 cell).unused = true ↔
      cell.seqId ≠ ∅ ∧ (RecurrentCell.rm seqId q0 q1 cell).cell.seqId = ∅ := by
  unfold RecurrentCell.rm
  have hneg : ¬ seqId < 0 := by omega
  split
  · split
    · simpa [RecurrentCell.emptied] using h
    · rename_i he
      simpa using fun _ hn => he (.inr hn)
  · simp

end Rm

/-- `seq_rm` of one sequence. -/
theorem AtRest.seqRm (h : c.AtRest) {seqId : Int} (h0 : 0 ≤ seqId) (p0 p1 : Int) :
    (c.seqRm seqId p0 p1).1.AtRest := by
  unfold RecurrentCache.seqRm
  generalize rangeStart p0 = q0
  generalize rangeEnd p1 = q1
  cases hr : c.rmTail seqId q0 q1 with
  | none => exact h
  | some c1 =>
    let hit := 0 ≤ c.tail seqId ∧ q0 ≤ (c.cells (c.tail seqId).toNat).pos ∧
      (c.cells (c.tail seqId).toNat).pos < q1
    have hc1 : seqId < size ∧ c1 = if hit then c.setTail seqId (-1) else c := by
      unfold rmTail at hr
      split at hr
      · simp at hr
      · rename_i hs
        refine ⟨by omega, ?_⟩
        dsimp only at hr
        split at hr
        · rename_i hl
          split at hr
          · simp at hr
          · rw [← Option.some.inj hr]
            simp [hit, hl]
        · rename_i hl
          rw [← Option.some.inj hr]
          simp [hit, hl]
    obtain ⟨hlt, hc1⟩ := hc1
    have hids1 (i : ℕ) : (c1.cells i).seqId = (c.cells i).seqId := by
      rw [hc1]
      split <;> simp
    have hpos1 (i : ℕ) : (c1.cells i).pos = (c.cells i).pos := by
      rw [hc1]
      split <;> simp
    have htail1 (t : Int) (ht : 0 ≤ t) :
        c1.tail t = if t = seqId ∧ hit then -1 else c.tail t := by
      rw [hc1]
      by_cases hh : hit
      · simp [hh, tail_setTail h0 ht]
      · simp [hh]
    have hused1 : c1.used = c.used ∧ c1.head = c.head := by
      rw [hc1]
      split <;> exact ⟨rfl, rfl⟩
    have hposed1 (i : ℕ) (hi : i < size) : 0 ≤ (c1.cells i).pos ↔ (c1.cells i).seqId ≠ ∅ := by
      rw [hids1, hpos1]
      exact h.posed i hi
    refine h.drop (D := fun t => t = seqId ∧ hit) (fun i hi => ?_) (fun t ht _ => ?_)
      (fun i hi => rm_pos h0 (hposed1 i hi)) ?_ ((sweep_head_le _).trans_eq hused1.2)
    · show (RecurrentCell.rm seqId q0 q1 (c1.cells i)).cell.seqId = _
      rw [rm_seqId h0, hids1, hpos1]
      ext t
      -- the cell that lists the sequence is the one that was looked at
      have hcell (hm : seqId ∈ (c.cells i).seqId) :
          hit ↔ q0 ≤ (c.cells i).pos ∧ (c.cells i).pos < q1 := by
        have htl := (h.owns i hi seqId hm).2.2
        simp [hit, htl]
      by_cases hts : t = seqId
      · subst hts
        by_cases hm : t ∈ (c.cells i).seqId
        · by_cases hh : hit
          · simp [hh, (hcell hm).1 hh]
          · simp [hh, mt (hcell hm).2 hh, hm]
        · split <;> simp [hm]
      · split <;> simp [hts]
    · show (RecurrentCell.rm seqId q0 q1 (c1.cells t.toNat)).cell.tail = _
      rw [rm_tail]
      exact htail1 t ht
    · show c1.used - (Nat.count _ size : Int) = _
      rw [hused1.1, count_congr fun i hi => rm_unused h0 (hposed1 i hi)]
      simp only [hids1]
      rfl

theorem left_seqId (seqId : Int) (cell : RecurrentCell) :
    (cell.left seqId).seqId = cell.seqId.erase seqId := by
  unfold RecurrentCell.left
  split
  · rename_i he
    exact he.symm
  · rfl

theorem left_tail (seqId : Int) (cell : RecurrentCell) : (cell.left seqId).tail = cell.tail := by
  unfold RecurrentCell.left
  split <;> rfl

/-- A cell that another sequence is left in stays as it is. -/
theorem left_of_mem {seqId t : Int} {cell : RecurrentCell} (ht : t ∈ cell.seqId) (hne : t ≠ seqId) :
    (cell.left seqId).src = cell.src ∧ (cell.left seqId).pos = cell.pos := by
  unfold RecurrentCell.left
  rw [if_neg (Finset.ne_empty_of_mem (Finset.mem_erase.2 ⟨hne, ht⟩))]
  exact ⟨rfl, rfl⟩

theorem left_pos {seqId : Int} {cell : RecurrentCell} (h : 0 ≤ cell.pos) :
    0 ≤ (cell.left seqId).pos ↔ (cell.left seqId).seqId ≠ ∅ := by
  rw [left_seqId]
  unfold RecurrentCell.left
  split
  · rename_i he
    simp [RecurrentCell.emptied, he]
  · rename_i he
    exact ⟨fun _ => he, fun _ => h⟩

/-- A sequence that leaves its cell is in none. -/
theorem AtRest.leave (h : c.AtRest) {seqId : Int} (h0 : 0 ≤ seqId) (hlt : seqId < size) :
    (c.leave seqId).AtRest ∧ (c.leave seqId).tail seqId < 0 ∧
      (∀ r : Int, 0 ≤ r → r ≠ seqId → (c.leave seqId).tail r = c.tail r) ∧
        ∀ r : Int, 0 ≤ r → r < size → r ≠ seqId → (c.leave seqId).stateOf r = c.stateOf r := by
  by_cases hl : 0 ≤ c.tail seqId
  · obtain ⟨a, ha, hta, hm⟩ := h.mem_tail h0 hlt hl
    let c1 := (c.modify a (·.left seqId)).setTail seqId (-1)
    have hleave : c.leave seqId = { c1 with
        used := c.used - if (c.cells a).seqId.erase seqId = ∅ then 1 else 0 } := by
      have haa : (c.tail seqId).toNat = a := by omega
      unfold RecurrentCache.leave
      rw [if_pos hl]
      simp only [haa]
      split <;> simp [c1, setTail, modify]
    have hids (i : ℕ) (hi : i < size) : (c1.cells i).seqId = (c.cells i).seqId.erase seqId := by
      rw [setTail_seqId, modify_cells]
      split
      · rename_i hia
        rw [left_seqId, hia]
      · rename_i hia
        exact (Finset.erase_eq_of_notMem fun hmi => hia (h.eq_of_mem hi ha hmi hm)).symm
    have htail (t : Int) (ht : 0 ≤ t) : c1.tail t = if t = seqId then -1 else c.tail t := by
      rw [tail_setTail h0 ht, tail_modify (left_tail seqId)]
    rw [hleave]
    refine ⟨h.drop (D := fun t => t = seqId) (fun i hi => ?_) (fun t ht _ => htail t ht)
      (fun i hi => ?_) ?_ le_rfl, ?_, fun r hr hne => ?_, fun r hr hrlt hne => ?_⟩
    · show (c1.cells i).seqId = _
      rw [hids i hi]
      ext t
      simp [and_comm]
    · show 0 ≤ (c1.cells i).pos ↔ (c1.cells i).seqId ≠ ∅
      rw [setTail_pos, setTail_seqId, modify_cells]
      split
      · exact left_pos ((h.posed a ha).2 (Finset.ne_empty_of_mem hm))
      · exact h.posed i hi
    · -- only the cell of the sequence can have become empty
      have hcount : Nat.count (fun i => (c.cells i).seqId ≠ ∅ ∧ (c1.cells i).seqId = ∅) size =
          if (c.cells a).seqId.erase seqId = ∅ then 1 else 0 := by
        split
        · rename_i he
          rw [← Index.count_window (n := size) (a := a) (w := 1) (by omega)]
          refine count_congr fun i hi => ⟨fun hi' => ?_, fun hia => ?_⟩
          · by_contra hne
            rw [hids i hi, Finset.erase_eq_of_notMem fun hmi => hne ?_] at hi'
            · exact hi'.1 hi'.2
            · have := h.eq_of_mem hi ha hmi hm
              omega
          · obtain rfl : i = a := by omega
            exact ⟨Finset.ne_empty_of_mem hm, by rw [hids i hi, he]⟩
        · rename_i he
          refine Nat.count_of_forall_not fun i hi hi' => ?_
          by_cases hmi : seqId ∈ (c.cells i).seqId
          · obtain rfl := h.eq_of_mem hi ha hmi hm
            rw [hids i hi] at hi'
            exact he hi'.2
          · rw [hids i hi, Finset.erase_eq_of_notMem hmi] at hi'
            exact hi'.1 hi'.2
      show c.used - (if _ then (1 : Int) else 0) = c.used - (Nat.count _ size : Int)
      rw [hcount]
      split <;> rfl
    · show c1.tail seqId < 0
      rw [htail seqId h0, if_pos rfl]
      omega
    · show c1.tail r = _
      rw [htail r hr, if_neg hne]
    · show c1.stateOf r = _
      have htr : c1.tail r = c.tail r := by rw [htail r hr, if_neg hne]
      by_cases hlr : 0 ≤ c.tail r
      · have hmr := (h.listed r hr hrlt not_false hlr).2
        have hcell : (c1.cells (c.tail r).toNat).src = (c.cells (c.tail r).toNat).src ∧
            (c1.cells (c.tail r).toNat).pos = (c.cells (c.tail r).toNat).pos := by
          rw [setTail_src, setTail_pos, modify_cells]
          split
          · rename_i hra
            rw [hra] at hmr ⊢
            exact left_of_mem hmr hne
          · exact ⟨rfl, rfl⟩
        exact stateOf_of_cell hlr (htr ▸ hlr) (htr ▸ hcell.1) (htr ▸ hcell.2)
      · exact stateOf_of_neg (by omega) (by omega)
  · have hleave : c.leave seqId = c := if_neg hl
    rw [hleave]
    exact ⟨h, by omega, fun _ _ _ => rfl, fun _ _ _ _ => rfl⟩

/-! ## The other operations on sequences -/

theorem AtRest.seqCp (h : c.AtRest) (src dst : Int) : (c.seqCp src dst).AtRest := by
  unfold RecurrentCache.seqCp
  split
  · exact h
  rename_i hne
  split
  swap
  · exact h
  rename_i hr
  obtain ⟨⟨hd0, hdlt⟩, hs0, hslt⟩ := hr
  obtain ⟨h1, hdst, -⟩ := h.leave hd0 hdlt
  generalize c.leave dst = c1 at h1 hdst
  dsimp only
  split
  swap
  · exact h1
  rename_i hl
  obtain ⟨a, ha, hta, hm⟩ := h1.mem_tail hs0 hslt hl
  rw [hta, Int.toNat_natCast]
  let c2 := (c1.modify a fun cell =>
    { cell with seqId := insert dst cell.seqId }).setTail dst (a : ℕ)
  have hids (i : ℕ) : (c2.cells i).seqId =
      if i = a then insert dst (c1.cells a).seqId else (c1.cells i).seqId := by
    rw [setTail_seqId, modify_cells]
    split <;> rfl
  have hpos (i : ℕ) : (c2.cells i).pos = (c1.cells i).pos := by
    rw [setTail_pos, modify_cells]
    split
    · rename_i hia
      rw [hia]
    · rfl
  have htail (t : Int) (ht : 0 ≤ t) : c2.tail t = if t = dst then (a : Int) else c1.tail t := by
    rw [tail_setTail hd0 ht]
    rw [tail_modify]
    exact fun _ => rfl
  have hne' (i : ℕ) (hi : i < size) : (c2.cells i).seqId ≠ ∅ ↔ (c1.cells i).seqId ≠ ∅ := by
    rw [hids]
    split
    · rename_i hia
      subst hia
      exact iff_of_true (Finset.insert_ne_empty _ _) (Finset.ne_empty_of_mem hm)
    · rfl
  change c2.AtRest
  constructor
  · constructor
    · intro i hi t ht
      rw [hids] at ht
      split at ht
      · rename_i hia
        subst hia
        rcases Finset.mem_insert.1 ht with rfl | ht
        · exact ⟨hd0, hdlt, by rw [htail t hd0, if_pos rfl]⟩
        · obtain ⟨h0, hlt, htl⟩ := h1.owns i hi t ht
          refine ⟨h0, hlt, ?_⟩
          rw [htail t h0]
          split <;> omega
      · obtain ⟨h0, hlt, htl⟩ := h1.owns i hi t ht
        refine ⟨h0, hlt, ?_⟩
        rw [htail t h0, if_neg, htl]
        rintro rfl
        omega
    · intro t h0 ht _ htl
      rw [htail t h0] at htl ⊢
      split at htl
      · rename_i htd
        rw [if_pos htd]
        refine ⟨by omega, ?_⟩
        rw [hids]
        simp [htd]
      · rename_i htd
        rw [if_neg htd]
        obtain ⟨hlt, hmem⟩ := h1.listed t h0 ht not_false htl
        refine ⟨hlt, ?_⟩
        rw [hids]
        split
        · rename_i hia
          exact Finset.mem_insert_of_mem (hia ▸ hmem)
        · exact hmem
    · intro t h0 ht
      rw [htail t h0]
      split
      · omega
      · exact h1.low t h0 ht
    · intro i hi
      rw [hpos, hne' i hi]
      exact h1.posed i hi
  · show c1.used = _
    rw [h1.used, count_congr fun i hi => (hne' i hi).symm]
  · exact h1.head

/-- Moving a position keeps everything as long as the position is none below zero. -/
theorem AtRest.moveSeq (h : c.AtRest) (seqId p0 p1 : Int) {f : Int → Int}
    (hf : 0 ≤ c.tail seqId → 0 ≤ (c.cells (c.tail seqId).toNat).pos →
      0 ≤ f (c.cells (c.tail seqId).toNat).pos) :
    (c.moveSeq seqId p0 p1 f).AtRest := by
  unfold RecurrentCache.moveSeq
  dsimp only
  split
  swap
  · exact h
  rename_i hc
  obtain ⟨⟨h0, hlt⟩, hl, hm, -⟩ := hc
  refine h.frame (fun i => ?_) (fun t => ?_) (fun i hi => ?_) rfl rfl
  · rw [modify_cells]
    split
    · rename_i hia
      rw [hia]
    · rfl
  · rw [tail_modify]
    exact fun _ => rfl
  · rw [modify_cells]
    split
    · rename_i hia
      have hpos := (h.posed i hi).2 (Finset.ne_empty_of_mem (hia ▸ hm))
      rw [hia] at hpos ⊢
      exact iff_of_true (hf hl hpos) hpos
    · rfl

end RecurrentCache

end LamaServer
