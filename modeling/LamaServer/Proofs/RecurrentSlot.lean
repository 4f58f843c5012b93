import Mathlib
import LamaServer.Lib.Transition
import LamaServer.Proofs.RecurrentTails

/-!
# The slots of the recurrent KV cache

`find_slot` gives each sequence of a ubatch a cell of its own and swaps these cells to the front of
a window. It keeps the tails exact, and each sequence its state, unless the ubatch has several
sequences of which one is new: a new sequence is in no cell until the end, so the swaps do not move
its tail. It does not run out of cells: a sequence that has none of its own leaves one empty.
-/

namespace LamaServer

open Transition

variable {size : Nat} {c c' : RecurrentCache size} {fresh : Int → Prop} {ub : Ubatch}

/-- The ubatches that a slot is found for without leaving a tail behind. -/
structure Ubatch.Suits (ub : Ubatch) (c : RecurrentCache size) : Prop where
  rows : ∀ s < ub.nSeqs, ub.seqId s ≠ []
  nodup : ∀ s < ub.nSeqs, (ub.seqId s).Nodup
  distinct : ∀ s < ub.nSeqs, ∀ s' < ub.nSeqs, ∀ t ∈ ub.seqId s, t ∈ ub.seqId s' → s = s'
  posed : ∀ s < ub.nSeqs, 0 ≤ ub.pos (ub.nSeqTokens * s + ub.nSeqTokens - 1)
  /-- A ubatch of several sequences has no new one. -/
  known : 1 < ub.nSeqs → ∀ s < ub.nSeqs, 0 ≤ c.tail (ub.firstId s)

/-- The sequences that a cache has room for. -/
def Ubatch.InRange (ub : Ubatch) (size : ℕ) : Prop :=
  ∀ s < ub.nSeqs, ∀ t ∈ ub.seqId s, 0 ≤ t ∧ t < (size : Int)

/-- The only sequence of a ubatch may be new. -/
def Ubatch.MayBeNew (ub : Ubatch) (t : Int) : Prop := ub.nSeqs = 1 ∧ t = ub.firstId 0

namespace RecurrentCache

theorem AtRest.withHead (h : c.AtRest) {head : ℕ} (hhead : head < size) :
    ({ c with head := head } : RecurrentCache size).AtRest :=
  ⟨⟨h.owns, h.listed, h.low, h.posed⟩, h.used, hhead⟩

/-- Everything fits if all ids are in range. -/
theorem clearShared_fits {ids : List (Int × ℕ)} (h : ∀ p ∈ ids, 0 ≤ p.1 ∧ p.1 < size) :
    (c.clearShared ids).2 = true := by
  induction ids generalizing c with
  | nil => rfl
  | cons p ids ih =>
    obtain ⟨t, j⟩ := p
    obtain ⟨h0, hlt⟩ : 0 ≤ t ∧ t < size := h (t, j) List.mem_cons_self
    unfold RecurrentCache.clearShared
    rw [if_neg (by omega)]
    exact ih fun p hp => h p (List.mem_cons_of_mem _ hp)

/-- The search comes to an empty cell that is among those that it looks at. -/
theorem nextEmpty_spec {r next : ℕ} (hn : next ≤ size)
    (h : ∃ j < r, (c.cells ((next + j) % size)).seqId = ∅) :
    c.nextEmpty r next < size ∧ (c.cells (c.nextEmpty r next)).seqId = ∅ := by
  induction r generalizing next with
  | zero =>
    obtain ⟨j, hj, -⟩ := h
    exact absurd hj (Nat.not_lt_zero j)
  | succ r ih =>
    rw [nextEmpty]
    obtain ⟨i, hi⟩ : ∃ i, i = if size ≤ next then next - size else next := ⟨_, rfl⟩
    rw [← hi]
    have hmod : next % size = i := by
      rw [hi]
      split
      · have hnext : next = size := by omega
        rw [hnext, Nat.sub_self, Nat.mod_self]
      · exact Nat.mod_eq_of_lt (by omega)
    have hlt : i < size := hmod ▸ Nat.mod_lt _ c.size_pos
    split
    · rename_i he
      exact ⟨hlt, he⟩
    · rename_i he
      obtain ⟨j, hj, hcell⟩ := h
      cases j with
      | zero =>
        rw [Nat.add_zero, hmod] at hcell
        exact absurd hcell he
      | succ j =>
        have hround : (i + 1 + j) % size = (next + (j + 1)) % size := by
          rw [← hmod, Nat.add_assoc, Nat.mod_add_mod, Nat.add_comm 1 j]
        exact ih (by omega) ⟨j, by omega, hround ▸ hcell⟩

/-- A search of `size` rounds looks at all cells. -/
theorem nextEmpty_of_exists {next : ℕ} (hn : next ≤ size)
    (h : ∃ i < size, (c.cells i).seqId = ∅) :
    c.nextEmpty size next < size ∧ (c.cells (c.nextEmpty size next)).seqId = ∅ := by
  obtain ⟨i, hi, he⟩ := h
  refine nextEmpty_spec hn ?_
  by_cases hle : next ≤ i
  · refine ⟨i - next, by omega, ?_⟩
    rwa [Nat.add_sub_cancel' hle, Nat.mod_eq_of_lt hi]
  · refine ⟨i + size - next, by omega, ?_⟩
    rwa [show next + (i + size - next) = i + size by omega, Nat.add_mod_right, Nat.mod_eq_of_lt hi]

/-- Sequences that become shared leave their cells; nothing else changes a tail. -/
theorem AtRest.clearShared (ids : List (Int × ℕ)) (h : c.AtRest) :
    (c.clearShared ids).1.AtRest ∧
      (∀ r : Int, 0 ≤ r → c.tail r < 0 → (c.clearShared ids).1.tail r < 0) ∧
      ((c.clearShared ids).2 = true →
        (∀ p ∈ ids, 0 ≤ p.1 ∧ p.1 < size) ∧
          (∀ p ∈ ids, 0 < p.2 → (c.clearShared ids).1.tail p.1 < 0) ∧
          ∀ r : Int, 0 ≤ r → r < size → (∀ p ∈ ids, 0 < p.2 → p.1 ≠ r) →
            (c.clearShared ids).1.tail r = c.tail r ∧
              (c.clearShared ids).1.stateOf r = c.stateOf r) := by
  induction ids generalizing c with
  | nil => exact ⟨h, fun _ _ hr => hr, fun _ => ⟨by simp, by simp, fun _ _ _ _ => ⟨rfl, rfl⟩⟩⟩
  | cons p ids ih =>
    obtain ⟨t, j⟩ := p
    unfold RecurrentCache.clearShared
    split
    · exact ⟨h, fun _ _ hr => hr, fun hf => by simp at hf⟩
    · rename_i hr
      have ht0 : 0 ≤ t := by omega
      have htlt : t < size := by omega
      have hleave := h.leave ht0 htlt
      -- the cache behind the first sequence
      generalize hc1 : (if 0 < j then c.leave t else c) = c1
      have h1 : c1.AtRest := by
        rw [← hc1]
        split
        · exact hleave.1
        · exact h
      have hkeep (r : Int) (hr0 : 0 ≤ r) (hne : 0 < j → t ≠ r) : c1.tail r = c.tail r := by
        rw [← hc1]
        split
        · rename_i hj
          exact hleave.2.2.1 r hr0 (hne hj).symm
        · rfl
      have hstate (r : Int) (hr0 : 0 ≤ r) (hrlt : r < size) (hne : 0 < j → t ≠ r) :
          c1.stateOf r = c.stateOf r := by
        rw [← hc1]
        split
        · rename_i hj
          exact hleave.2.2.2 r hr0 hrlt (hne hj).symm
        · rfl
      have hneg : 0 < j → c1.tail t < 0 := fun hj => by
        rw [← hc1, if_pos hj]
        exact hleave.2.1
      obtain ⟨hrest, hlow, hok⟩ := ih h1
      refine ⟨hrest, fun r hr0 hrl => hlow r hr0 ?_, fun hb => ?_⟩
      · by_cases hrt : 0 < j ∧ t = r
        · exact hrt.2 ▸ hneg hrt.1
        · rw [hkeep r hr0 fun hj htr => hrt ⟨hj, htr⟩]
          exact hrl
      · obtain ⟨hrange, hout, hsame⟩ := hok hb
        refine ⟨fun p hp => ?_, fun p hp hj => ?_, fun r hr0 hrlt hne => ?_⟩
        · rcases List.mem_cons.1 hp with rfl | hp
          · exact ⟨ht0, htlt⟩
          · exact hrange p hp
        · rcases List.mem_cons.1 hp with rfl | hp
          · exact hlow t ht0 (hneg hj)
          · exact hout p hp hj
        · obtain ⟨htl, hst⟩ := hsame r hr0 hrlt fun p hp => hne p (List.mem_cons_of_mem _ hp)
          have hne' : 0 < j → t ≠ r := fun hj => hne _ List.mem_cons_self hj
          exact ⟨htl.trans (hkeep r hr0 hne'), hst.trans (hstate r hr0 hrlt hne')⟩

/-- What becomes of a cache when a sequence gets a cell of its own. -/
structure Gives (fresh : Int → Prop) (c : RecurrentCache size) (id : Int)
    (c' : RecurrentCache size) : Prop where
  linked : c'.Linked fresh
  tail_nonneg : 0 ≤ c'.tail id
  tail_lt : c'.tail id < size
  alone : ∀ t ∈ (c'.cells (c'.tail id).toNat).seqId, t = id
  tail_ne : ∀ r : Int, 0 ≤ r → r ≠ id → c'.tail r = c.tail r
  subset : ∀ r : Int, 0 ≤ r → r < size → r ≠ id → 0 ≤ c.tail r →
    (c'.cells (c.tail r).toNat).seqId ⊆ (c.cells (c.tail r).toNat).seqId
  state : ∀ r : Int, 0 ≤ r → r < size → (r = id → 0 ≤ c.tail r) → c'.stateOf r = c.stateOf r

section Give

variable {id : Int} {a next : ℕ} (hta : c.tail id = (a : ℕ)) (hna : next ≠ a)

theorem giveCell_tail (h0 : 0 ≤ id) (next : ℕ) {t : Int} (ht : 0 ≤ t) :
    (c.giveCell id next).tail t = if t = id then (next : Int) else c.tail t := by
  unfold RecurrentCache.giveCell
  dsimp only
  rw [tail_setTail h0 ht]
  by_cases hl : 0 ≤ c.tail id
  · rw [if_pos hl, tail_modify, tail_modify] <;> exact fun _ => rfl
  · rw [if_neg hl]

include hta hna

theorem giveCell_seqId (he : (c.cells next).seqId = ∅) (i : ℕ) :
    ((c.giveCell id next).cells i).seqId = if i = a then (c.cells a).seqId.erase id
      else if i = next then {id} else (c.cells i).seqId := by
  unfold RecurrentCache.giveCell
  dsimp only
  rw [if_pos (by omega), setTail_seqId, modify_cells, hta, Int.toNat_natCast]
  split
  · rw [modify_cells, if_neg (Ne.symm hna)]
  · rw [modify_cells]
    split
    · simp [he]
    · rfl

theorem giveCell_row (i : ℕ) :
    ((c.giveCell id next).cells i).pos = (c.cells (if i = next then a else i)).pos ∧
      ((c.giveCell id next).cells i).src = (c.cells (if i = next then a else i)).src := by
  unfold RecurrentCache.giveCell
  dsimp only
  rw [if_pos (by omega), setTail_pos, setTail_src, modify_cells, hta, Int.toNat_natCast]
  split
  · rename_i hia
    rw [modify_cells, if_neg (Ne.symm hna), if_neg (hia ▸ Ne.symm hna), hia]
    exact ⟨rfl, rfl⟩
  · rw [modify_cells]
    split <;> exact ⟨rfl, rfl⟩

end Give

/-- A sequence that shares its cell gets a copy of its state. -/
theorem Linked.giveCell (h : c.Linked fun _ => False) {id : Int} (h0 : 0 ≤ id) (hlt : id < size)
    (hl : 0 ≤ c.tail id) (hcard : (c.cells (c.tail id).toNat).seqId.card ≠ 1) {next : ℕ}
    (hn : next < size) (he : (c.cells next).seqId = ∅) :
    Gives (fun _ => False) c id (c.giveCell id next) := by
  obtain ⟨a, ha, hta, hm⟩ := h.mem_tail h0 hlt hl
  have haa : (c.tail id).toNat = a := by omega
  rw [haa] at hcard
  have hna : next ≠ a := fun hna => by simp [← hna, he] at hm
  have hids := giveCell_seqId hta hna he
  have hrow := giveCell_row hta hna
  have htail (t : Int) (ht : 0 ≤ t) := giveCell_tail (c := c) h0 next ht
  -- a sequence with a tail is not in the empty cell
  have hnext (t : Int) (ht0 : 0 ≤ t) (ht : t < size) (htl : 0 ≤ c.tail t) :
      (c.tail t).toNat ≠ next := fun htn => by
    have := (h.listed t ht0 ht not_false htl).2
    rw [htn, he] at this
    simp at this
  generalize c.giveCell id next = c2 at hids hrow htail
  refine ⟨⟨fun i hi t ht => ?_, fun t ht0 ht _ htl => ?_, fun t ht0 ht => ?_, fun i hi => ?_⟩,
    ?_, ?_, fun t ht => ?_, fun r hr hne => ?_, fun r hr hrlt hne hrl => ?_,
    fun r hr hrlt hrid => ?_⟩
  · rw [hids] at ht
    split at ht
    · rename_i hia
      obtain ⟨hte, htm⟩ := Finset.mem_erase.1 ht
      obtain ⟨ht0, htlt, htl⟩ := h.owns a ha t htm
      exact ⟨ht0, htlt, by rw [htail t ht0, if_neg hte, htl, hia]⟩
    · rename_i hia
      split at ht
      · rename_i hin
        rw [Finset.mem_singleton.1 ht]
        exact ⟨h0, hlt, by rw [htail id h0, if_pos rfl, hin]⟩
      · obtain ⟨ht0, htlt, htl⟩ := h.owns i hi t ht
        refine ⟨ht0, htlt, ?_⟩
        rw [htail t ht0, if_neg, htl]
        rintro rfl
        omega
  · rw [htail t ht0] at htl ⊢
    split at htl
    · rename_i hte
      rw [if_pos hte]
      refine ⟨by omega, ?_⟩
      rw [hids, Int.toNat_natCast, if_neg hna, if_pos rfl, hte]
      simp
    · rename_i hte
      rw [if_neg hte]
      obtain ⟨htlt, htm⟩ := h.listed t ht0 ht not_false htl
      refine ⟨htlt, ?_⟩
      rw [hids]
      split
      · rename_i hia
        exact Finset.mem_erase.2 ⟨hte, hia ▸ htm⟩
      · rw [if_neg (hnext t ht0 ht htl)]
        exact htm
  · rw [htail t ht0]
    split
    · omega
    · exact h.low t ht0 ht
  · have hposa : 0 ≤ (c.cells a).pos := (h.posed a ha).2 (Finset.ne_empty_of_mem hm)
    rw [hids, (hrow i).1]
    by_cases hia : i = a
    · rw [if_pos hia, if_neg fun hin => hna (by omega), hia]
      refine iff_of_true hposa fun hempty => hcard ?_
      have := Finset.card_erase_of_mem hm
      have hpos := Finset.card_pos.2 ⟨id, hm⟩
      rw [hempty, Finset.card_empty] at this
      omega
    · rw [if_neg hia]
      split
      · exact iff_of_true hposa (Finset.singleton_ne_empty _)
      · exact h.posed i hi
  · rw [htail id h0, if_pos rfl]
    omega
  · rw [htail id h0, if_pos rfl]
    omega
  · rw [htail id h0, if_pos rfl, Int.toNat_natCast, hids, if_neg hna, if_pos rfl] at ht
    exact Finset.mem_singleton.1 ht
  · rw [htail r hr, if_neg hne]
  · rw [hids]
    split
    · rename_i hia
      rw [hia]
      exact Finset.erase_subset _ _
    · rw [if_neg (hnext r hr hrlt hrl)]
  · by_cases hrl : 0 ≤ c.tail r
    · by_cases hre : r = id
      · have htr : c2.tail r = next := by rw [htail r hr, if_pos hre]
        refine stateOf_of_cell hrl (by omega) ?_ ?_
        · rw [htr, Int.toNat_natCast, (hrow _).2, if_pos rfl, hre, haa]
        · rw [htr, Int.toNat_natCast, (hrow _).1, if_pos rfl, hre, haa]
      · have htr : c2.tail r = c.tail r := by rw [htail r hr, if_neg hre]
        refine stateOf_of_cell hrl (by omega) ?_ ?_
        · rw [htr, (hrow _).2, if_neg (hnext r hr hrlt hrl)]
        · rw [htr, (hrow _).1, if_neg (hnext r hr hrlt hrl)]
    · have hre : r ≠ id := fun hre => hrl (hrid hre)
      refine stateOf_of_neg (by omega) ?_
      rw [htail r hr, if_neg hre]
      omega

/-- A new sequence gets an empty cell, which does not list it yet. -/
theorem Linked.giveCell_new (h : c.Linked fun _ => False) {id : Int} (h0 : 0 ≤ id)
    (hl : c.tail id < 0) {next : ℕ} (hn : next < size) (he : (c.cells next).seqId = ∅) :
    Gives (fun t => t = id) c id (c.giveCell id next) := by
  have hgive : c.giveCell id next = c.setTail id next := by
    unfold RecurrentCache.giveCell
    dsimp only
    rw [if_neg (by omega)]
  have htail (t : Int) (ht : 0 ≤ t) :
      (c.setTail id next).tail t = if t = id then (next : Int) else c.tail t := tail_setTail h0 ht _
  rw [hgive]
  refine ⟨⟨fun i hi t ht => ?_, fun t ht0 ht hte htl => ?_, fun t ht0 ht => ?_, fun i hi => ?_⟩,
    ?_, ?_, fun t ht => ?_, fun r hr hne => ?_, fun r _ _ _ _ => ?_, fun r hr _ hrid => ?_⟩
  · rw [setTail_seqId] at ht
    obtain ⟨ht0, htlt, htl⟩ := h.owns i hi t ht
    refine ⟨ht0, htlt, ?_⟩
    rw [htail t ht0, if_neg, htl]
    rintro rfl
    omega
  · rw [htail t ht0, if_neg hte] at htl ⊢
    rw [setTail_seqId]
    exact h.listed t ht0 ht not_false htl
  · rw [htail t ht0]
    split
    · omega
    · exact h.low t ht0 ht
  · rw [setTail_seqId, setTail_pos]
    exact h.posed i hi
  · rw [htail id h0, if_pos rfl]
    omega
  · rw [htail id h0, if_pos rfl]
    omega
  · rw [htail id h0, if_pos rfl, Int.toNat_natCast, setTail_seqId, he] at ht
    simp at ht
  · rw [htail r hr, if_neg hne]
  · rw [setTail_seqId]
  · have hre : r ≠ id := by
      rintro rfl
      have := hrid rfl
      omega
    have htr : (c.setTail id next).tail r = c.tail r := by rw [htail r hr, if_neg hre]
    by_cases hrl : 0 ≤ c.tail r
    · exact stateOf_of_cell hrl (by omega) (by rw [htr, setTail_src]) (by rw [htr, setTail_pos])
    · exact stateOf_of_neg (by omega) (by omega)

/-- The sequence of a row has a cell of its own, not before `min`. -/
structure Holds (ub : Ubatch) (min : ℕ) (c : RecurrentCache size) (s : ℕ) : Prop where
  min_le : (min : Int) ≤ c.tail (ub.firstId s)
  tail_lt : c.tail (ub.firstId s) < size
  alone : ∀ t ∈ (c.cells (c.tail (ub.firstId s)).toNat).seqId, t = ub.firstId s

/-- What holds after `k` rounds of the loop that finds usable cells. -/
structure Taken (ub : Ubatch) (c : RecurrentCache size) (k : ℕ) (st : Taking size) : Prop where
  linked : st.cache.Linked fun t => 0 < k ∧ ub.MayBeNew t
  holds : ∀ s < k, st.cache.Holds ub st.min s
  others : ∀ s < ub.nSeqs, ∀ t ∈ (ub.seqId s).tail, st.cache.tail t < 0
  known : 1 < ub.nSeqs → ∀ s < ub.nSeqs, 0 ≤ st.cache.tail (ub.firstId s)
  start : k = 0 → st.min = size - 1
  single : k = 1 → (st.min : Int) = st.cache.tail (ub.firstId 0)
  min_lt : st.min < size
  max_lt : st.max < size
  le_max : ∀ s < k, st.cache.tail (ub.firstId s) ≤ st.max
  /-- The cell that was searched for is empty if there is an empty one. -/
  next : k < ub.nSeqs → (∃ i < size, (st.cache.cells i).seqId = ∅) →
    st.next < size ∧ (st.cache.cells st.next).seqId = ∅
  state : ∀ t : Int, 0 ≤ t → t < size → (ub.MayBeNew t → 0 ≤ c.tail t) →
    st.cache.stateOf t = c.stateOf t

end RecurrentCache

namespace Ubatch

theorem firstId_mem {s : ℕ} (h : ub.seqId s ≠ []) : ub.firstId s ∈ ub.seqId s := by
  obtain ⟨t, l, hl⟩ := List.exists_cons_of_ne_nil h
  simp [firstId, hl]

theorem eq_firstId_or_mem_tail {s : ℕ} {t : Int} (h : t ∈ ub.seqId s) :
    t = ub.firstId s ∨ t ∈ (ub.seqId s).tail := by
  cases hl : ub.seqId s with
  | nil => simp [hl] at h
  | cons t' l =>
    rw [hl] at h
    simpa [firstId, hl] using h

theorem firstId_notMem_tail {s : ℕ} (h : (ub.seqId s).Nodup) (hne : ub.seqId s ≠ []) :
    ub.firstId s ∉ (ub.seqId s).tail := by
  obtain ⟨t, l, hl⟩ := List.exists_cons_of_ne_nil hne
  rw [hl] at h
  simpa [firstId, hl] using (List.nodup_cons.1 h).1

/-- A ubatch that suits has a first sequence in each row. -/
theorem Suits.first_mem (hs : ub.Suits c) {s : ℕ} (hsn : s < ub.nSeqs) :
    ub.firstId s ∈ ub.seqId s :=
  firstId_mem (hs.rows s hsn)

theorem InRange.first (hr : ub.InRange size) (hs : ub.Suits c) {s : ℕ} (hsn : s < ub.nSeqs) :
    0 ≤ ub.firstId s ∧ ub.firstId s < size :=
  hr s hsn _ (hs.first_mem hsn)

end Ubatch

namespace RecurrentCache

theorem Taken.linked_all {k : ℕ} {st : Taking size} (h : Taken ub c k st) (hk : k < ub.nSeqs) :
    st.cache.Linked fun _ => False := h.linked.mono fun t ht => by
  have := ht.2.1
  omega

/-- What a round of the loop that finds usable cells does. -/
structure Takes (ub : Ubatch) (k : ℕ) (st st' : Taking size) : Prop where
  gives : Gives (fun t => 0 < k + 1 ∧ ub.MayBeNew t) st.cache (ub.firstId k) st'.cache
  min_eq : st'.min = min st.min (st'.cache.tail (ub.firstId k)).toNat
  max_eq : st'.max = max st.max (st'.cache.tail (ub.firstId k)).toNat
  next : st'.cache = st.cache ∧ st'.next = st.next ∨ st.next < size ∧
    (k + 1 < ub.nSeqs → st'.next = st'.cache.nextEmpty size (st.next + 1))

/-- No assertion fails in a round: a sequence that needs a cell leaves one empty. -/
theorem Taken.takes (hs : ub.Suits c) (hr : ub.InRange size) {k : ℕ} (hk : k < ub.nSeqs)
    {st : Taking size} (h : Taken ub c k st) :
    ∃ st', takeCell ub st k = some st' ∧ Takes ub k st st' := by
  have hlinked := h.linked_all hk
  obtain ⟨id, l, hrow⟩ := List.exists_cons_of_ne_nil (hs.rows k hk)
  obtain rfl : ub.firstId k = id := by simp [Ubatch.firstId, hrow]
  obtain ⟨h0, hlt⟩ := hr.first hs hk
  simp only [takeCell, hrow]
  rw [if_neg fun hfails => hfails.2 (hlinked.listed _ h0 hlt not_false hfails.1).2]
  split
  · rename_i hown
    obtain ⟨hlt', hm⟩ := hlinked.listed _ h0 hlt not_false hown.1
    refine ⟨_, rfl, ⟨hlinked.mono fun _ => False.elim, hown.1, hlt', fun t ht => ?_,
      fun _ _ _ => rfl, fun _ _ _ _ _ => subset_rfl, fun _ _ _ _ => rfl⟩, rfl, rfl,
      .inl ⟨rfl, rfl⟩⟩
    obtain ⟨u, hu⟩ := Finset.card_eq_one.1 hown.2
    rw [hu, Finset.mem_singleton] at ht hm
    rw [ht, hm]
  · rename_i hshared
    have hempty := h.next hk (hlinked.exists_empty h0 hlt hshared)
    rw [if_pos hempty]
    refine ⟨_, rfl, ?_, rfl, rfl, .inr ⟨hempty.1, fun hk1 => if_pos hk1⟩⟩
    by_cases hl : 0 ≤ st.cache.tail (ub.firstId k)
    · have hg := hlinked.giveCell h0 hlt hl (fun hc => hshared ⟨hl, hc⟩) hempty.1 hempty.2
      exact ⟨hg.linked.mono fun _ => False.elim, hg.2, hg.3, hg.4, hg.5, hg.6, hg.7⟩
    · -- only the only sequence of a ubatch is new
      have hone : ub.nSeqs = 1 := by
        by_contra hmany
        exact hl (h.known (by omega) k hk)
      have hk0 : k = 0 := by omega
      have hg := hlinked.giveCell_new h0 (by omega) hempty.1 hempty.2
      refine ⟨hg.linked.mono ?_, hg.2, hg.3, hg.4, hg.5, hg.6, hg.7⟩
      rintro t rfl
      exact ⟨by omega, hone, by rw [hk0]⟩

theorem Taken.step (hs : ub.Suits c) (hr : ub.InRange size) {k : ℕ} (hk : k < ub.nSeqs)
    {st : Taking size} (h : Taken ub c k st) :
    ∃ st', takeCell ub st k = some st' ∧ Taken ub c (k + 1) st' := by
  obtain ⟨st', hstep, hgives, hmin, hmax, hnext⟩ := h.takes hs hr hk
  have hl := hgives.tail_nonneg
  have hl' := hgives.tail_lt
  have hst := h.min_lt
  have hst' := h.max_lt
  -- the rows before this one keep their cells
  have hbefore (s : ℕ) (hsk : s < k) : ub.firstId s ≠ ub.firstId k ∧
      st'.cache.tail (ub.firstId s) = st.cache.tail (ub.firstId s) := by
    have hsn : s < ub.nSeqs := by omega
    have hne : ub.firstId s ≠ ub.firstId k := fun he => by
      have := hs.distinct s hsn k hk _ (he ▸ hs.first_mem hsn) (hs.first_mem hk)
      omega
    exact ⟨hne, hgives.tail_ne _ (hr.first hs hsn).1 hne⟩
  refine ⟨st', hstep, hgives.linked, fun s hsk => ?_, fun s hsn t ht => ?_,
    fun hmany s hsn => ?_, fun hk0 => by omega, fun hk1 => ?_, by omega, by omega,
    fun s hsk => ?_, fun hk1 hempty => ?_, fun t ht0 htlt hnew => ?_⟩
  · rcases Nat.lt_succ_iff_lt_or_eq.1 hsk with hsk | rfl
    · obtain ⟨hs0, hslt⟩ := hr.first hs (s := s) (by omega)
      have hold := h.holds s hsk
      have hle := hold.min_le
      have hlt := hold.tail_lt
      obtain ⟨hne, hsame⟩ := hbefore s hsk
      refine ⟨by omega, by omega, fun t ht => hold.alone t ?_⟩
      rw [hsame] at ht
      exact hgives.subset _ hs0 hslt hne (by omega) ht
    · exact ⟨by omega, hl', hgives.alone⟩
  · have htm := List.mem_of_mem_tail ht
    rw [hgives.tail_ne t (hr s hsn t htm).1 ?_]
    · exact h.others s hsn t ht
    · rintro rfl
      obtain rfl := hs.distinct s hsn k hk _ htm (hs.first_mem hk)
      exact Ubatch.firstId_notMem_tail (hs.nodup s hsn) (hs.rows s hsn) ht
  · by_cases he : ub.firstId s = ub.firstId k
    · rw [he]
      exact hl
    · rw [hgives.tail_ne _ (hr.first hs hsn).1 he]
      exact h.known hmany s hsn
  · obtain rfl : k = 0 := by omega
    have hstart := h.start rfl
    omega
  · rcases Nat.lt_succ_iff_lt_or_eq.1 hsk with hsk | rfl
    · rw [(hbefore s hsk).2]
      have := h.le_max s hsk
      omega
    · omega
  · rcases hnext with ⟨hcache, hsame⟩ | ⟨hlt, hsearch⟩
    · rw [hcache] at hempty ⊢
      rw [hsame]
      exact h.next hk hempty
    · rw [hsearch hk1]
      exact nextEmpty_of_exists (by omega) hempty
  · have hstate := h.state t ht0 htlt hnew
    rw [hgives.state t ht0 htlt fun hte => ?_, hstate]
    -- the sequence of this row had a tail, or it is the new one
    by_cases hmany : 1 < ub.nSeqs
    · rw [hte]
      exact h.known hmany k hk
    · obtain rfl : k = 0 := by omega
      exact tail_nonneg_of_stateOf hstate (hnew ⟨by omega, hte⟩)

theorem AtRest.takeCells (h : c.AtRest) (hs : ub.Suits c) (hr : ub.InRange size)
    (hothers : ∀ s < ub.nSeqs, ∀ t ∈ (ub.seqId s).tail, c.tail t < 0) :
    ∃ st, c.takeCells ub = some st ∧ Taken ub c ub.nSeqs st :=
  Index.exists_foldlM_range
    ⟨h.toLinked.mono fun _ => False.elim, by simp, hothers, hs.known, fun _ => rfl, by simp,
      Nat.sub_lt c.size_pos Nat.one_pos, c.size_pos, by simp,
      fun _ => nextEmpty_of_exists h.head.le, fun _ _ _ _ => rfl⟩
    fun _ hk _ hI => hI.step hs hr hk

/-- The rows have cells of their own; those of the first `k` are in order. -/
structure Gathered (ub : Ubatch) (min : ℕ) (c₀ : RecurrentCache size) (k : ℕ)
    (c : RecurrentCache size) : Prop where
  linked : c.Linked ub.MayBeNew
  holds : ∀ s < ub.nSeqs, c.Holds ub min s
  others : ∀ s < ub.nSeqs, ∀ t ∈ (ub.seqId s).tail, c.tail t < 0
  single : ub.nSeqs = 1 → c.tail (ub.firstId 0) = min
  placed : ∀ s < k, c.tail (ub.firstId s) = (s : Int) + min
  state : ∀ t : Int, 0 ≤ t → t < size → c.stateOf t = c₀.stateOf t

/-- What holds after `k` rounds of the loop that updates the positions: the rows behind have their
cells before them and are in no other. -/
structure Placed (ub : Ubatch) (min : ℕ) (c₀ : RecurrentCache size) (k : ℕ)
    (c : RecurrentCache size) : Prop where
  linked : c.Linked fun t => k = 0 ∧ ub.MayBeNew t
  alone : ∀ s, k ≤ s → s < ub.nSeqs → ∀ t ∈ (c.cells (s + min)).seqId, t = ub.firstId s
  tails : ∀ s, k ≤ s → s < ub.nSeqs → ∀ t ∈ ub.seqId s,
    c.tail t < 0 ∨ c.tail t = (s : Int) + min
  rows : ∀ s < k, (c.cells (s + min)).seqId = (ub.seqId s).toFinset ∧
    (c.cells (s + min)).pos = ub.pos (ub.nSeqTokens * s + ub.nSeqTokens - 1)
  src : ∀ i, (c.cells i).src = (c₀.cells i).src
  pos : ∀ i, (∀ s < k, i ≠ s + min) → (c.cells i).pos = (c₀.cells i).pos
  tail : ∀ t : Int, 0 ≤ t → (∀ s < k, t ∉ ub.seqId s) → c.tail t = c₀.tail t

theorem Gathered.placed_zero {min : ℕ} (h : Gathered ub min c' ub.nSeqs c) :
    Placed ub min c 0 c where
  linked := h.linked.mono fun _ hf => ⟨rfl, hf⟩
  alone s _ hsn t ht := by
    have := h.placed s hsn
    refine (h.holds s hsn).alone t ?_
    rwa [this, show ((s : Int) + min).toNat = s + min by omega]
  tails s _ hsn t ht := by
    rcases Ubatch.eq_firstId_or_mem_tail ht with rfl | ht
    · exact .inr (h.placed s hsn)
    · exact .inl (h.others s hsn t ht)
  rows s hs0 := absurd hs0 (Nat.not_lt_zero s)
  src _ := rfl
  pos _ _ := rfl
  tail _ _ _ := rfl

theorem Linked.of_many (h : c.Linked ub.MayBeNew) (hmany : 1 < ub.nSeqs) :
    c.Linked fun _ => False := h.mono fun _ hf => absurd hf.1 (by omega)

/-- A round of the loop that gathers swaps two cells. -/
theorem gatherRow_cells {min k dst src : ℕ} (hdst : dst = k + min)
    (hsrc : src = (c.tail (ub.firstId k)).toNat) (hne : dst ≠ src) (i : ℕ) :
    (gatherRow ub min c k).cells i = { c.cells (Equiv.swap dst src i) with
      tail := if (i : Int) ∈ (c.cells src).seqId then (dst : Int)
        else if (i : Int) ∈ (c.cells dst).seqId then (src : Int) else (c.cells i).tail } := by
  have hcontent (j : ℕ) : (if j = dst then c.cells src else if j = src then c.cells dst
      else c.cells j) = c.cells (Equiv.swap dst src j) := by
    rw [Equiv.swap_apply_def]
    split_ifs <;> rfl
  unfold gatherRow
  dsimp only
  rw [← hdst, ← hsrc, if_neg hne]
  simp only [hcontent, if_true, if_neg (Ne.symm hne)]

/-- Swapping two cells, with the tails of the sequences that they list. -/
theorem Linked.swap (h : c.Linked fun _ => False) {dst src : ℕ} (hd : dst < size) (hs : src < size)
    (hcells : ∀ i, c'.cells i = { c.cells (Equiv.swap dst src i) with
      tail := if (i : Int) ∈ (c.cells src).seqId then (dst : Int)
        else if (i : Int) ∈ (c.cells dst).seqId then (src : Int) else (c.cells i).tail }) :
    c'.Linked (fun _ => False) ∧
      ∀ t : Int, 0 ≤ t → t < size →
        (c'.tail t = if 0 ≤ c.tail t then ((Equiv.swap dst src (c.tail t).toNat : ℕ) : Int)
          else c.tail t) ∧ c'.stateOf t = c.stateOf t := by
  have hids (i : ℕ) : (c'.cells i).seqId = (c.cells (Equiv.swap dst src i)).seqId := by
    rw [hcells]
  have hpos (i : ℕ) : (c'.cells i).pos = (c.cells (Equiv.swap dst src i)).pos := by
    rw [hcells]
  have hrow (i : ℕ) : (c'.cells i).src = (c.cells (Equiv.swap dst src i)).src := by
    rw [hcells]
  have htail (t : Int) (ht : 0 ≤ t) : c'.tail t = if t ∈ (c.cells src).seqId then (dst : Int)
      else if t ∈ (c.cells dst).seqId then (src : Int) else c.tail t := by
    have htt : ((t.toNat : ℕ) : Int) = t := by omega
    rw [tail, hcells, htt]
    rfl
  have hlt (i : ℕ) (hi : i < size) : Equiv.swap dst src i < size := by
    rw [Equiv.swap_apply_def]
    split_ifs <;> assumption
  have hmoved (t : Int) (h0 : 0 ≤ t) (ht : t < size) :
      c'.tail t = if 0 ≤ c.tail t then ((Equiv.swap dst src (c.tail t).toNat : ℕ) : Int)
        else c.tail t := by
    rw [htail t h0]
    by_cases hl : 0 ≤ c.tail t
    · obtain ⟨a, ha, hta, hm⟩ := h.mem_tail h0 ht hl
      rw [if_pos hl, hta, Int.toNat_natCast]
      by_cases hsrc : t ∈ (c.cells src).seqId
      · obtain rfl := h.eq_of_mem hs ha hsrc hm
        rw [if_pos hsrc, Equiv.swap_apply_right]
      · rw [if_neg hsrc]
        by_cases hdst : t ∈ (c.cells dst).seqId
        · obtain rfl := h.eq_of_mem hd ha hdst hm
          rw [if_pos hdst, Equiv.swap_apply_left]
        · have had : a ≠ dst := fun had => hdst (had ▸ hm)
          have has : a ≠ src := fun has => hsrc (has ▸ hm)
          rw [if_neg hdst, Equiv.swap_apply_of_ne_of_ne had has]
    · have hl' : c.tail t < 0 := by omega
      rw [if_neg hl, if_neg (h.not_mem_of_tail_neg hl' hs), if_neg (h.not_mem_of_tail_neg hl' hd)]
  refine ⟨⟨fun i hi t ht => ?_, fun t h0 ht _ htl => ?_, fun t h0 ht => ?_, fun i hi => ?_⟩,
    fun t h0 ht => ⟨hmoved t h0 ht, ?_⟩⟩
  · rw [hids] at ht
    obtain ⟨h0, htlt, htl⟩ := h.owns _ (hlt i hi) t ht
    refine ⟨h0, htlt, ?_⟩
    rw [hmoved t h0 htlt, if_pos (by omega), htl, Int.toNat_natCast, Equiv.swap_apply_self]
  · by_cases hl : 0 ≤ c.tail t
    · obtain ⟨a, ha, hta, hm⟩ := h.mem_tail h0 ht hl
      rw [hmoved t h0 ht, if_pos hl, hta, Int.toNat_natCast]
      refine ⟨by exact_mod_cast hlt a ha, ?_⟩
      rw [Int.toNat_natCast, hids, Equiv.swap_apply_self]
      exact hm
    · rw [hmoved t h0 ht, if_neg hl] at htl
      exact absurd htl hl
  · rw [hmoved t h0 ht]
    split
    · omega
    · exact h.low t h0 ht
  · rw [hids, hpos]
    exact h.posed _ (hlt i hi)
  · have htl := hmoved t h0 ht
    by_cases hl : 0 ≤ c.tail t
    · rw [if_pos hl] at htl
      refine stateOf_of_cell hl (by omega) ?_ ?_
      · rw [htl, Int.toNat_natCast, hrow, Equiv.swap_apply_self]
      · rw [htl, Int.toNat_natCast, hpos, Equiv.swap_apply_self]
    · rw [if_neg hl] at htl
      exact stateOf_of_neg (by omega) (by omega)

section Place

variable (min k i : ℕ)

theorem placeRow_seqId : ((placeRow ub min c k).cells i).seqId =
    if i = k + min then (ub.seqId k).toFinset else (c.cells i).seqId := by
  unfold placeRow
  dsimp only
  split <;> rfl

theorem placeRow_pos : ((placeRow ub min c k).cells i).pos =
    if i = k + min then ub.pos (ub.nSeqTokens * k + ub.nSeqTokens - 1) else (c.cells i).pos := by
  unfold placeRow
  dsimp only
  split <;> rfl

theorem placeRow_src : ((placeRow ub min c k).cells i).src = (c.cells i).src := by
  unfold placeRow
  dsimp only
  split <;> rfl

theorem placeRow_tail {min k : ℕ} {t : Int} (ht : 0 ≤ t) : (placeRow ub min c k).tail t =
    if t ∈ ub.seqId k then (k : Int) + min else c.tail t := by
  have htt : ((t.toNat : ℕ) : Int) = t := by omega
  unfold placeRow RecurrentCache.tail
  dsimp only
  rw [htt]
  split <;> split <;> push_cast <;> rfl

end Place

section Gather

variable {min k : ℕ} {cu : RecurrentCache size} (hs : ub.Suits cu)
  (hr : ub.InRange size)
include hs hr

/-- The cells of two rows differ. -/
theorem Linked.row_inj (h : c.Linked ub.MayBeNew) (hholds : ∀ s < ub.nSeqs, c.Holds ub min s)
    {s s' : ℕ} (hsn : s < ub.nSeqs) (hsn' : s' < ub.nSeqs)
    (he : c.tail (ub.firstId s) = c.tail (ub.firstId s')) : s = s' := by
  by_cases hmany : 1 < ub.nSeqs
  · obtain ⟨h0, hlt⟩ := hr.first hs hsn
    have hl := (hholds s hsn).min_le
    obtain ⟨-, hm⟩ := (h.of_many hmany).listed _ h0 hlt not_false (by omega)
    rw [he] at hm
    have := (hholds s' hsn').alone _ hm
    exact hs.distinct s hsn s' hsn' _ (hs.first_mem hsn)
      (this ▸ hs.first_mem hsn')
  · omega

/-- The cells of the rows, which differ, are as many as fit. -/
theorem Linked.rows_le (h : c.Linked ub.MayBeNew) (hholds : ∀ s < ub.nSeqs, c.Holds ub min s)
    {m : ℕ} (hm : ∀ s < ub.nSeqs, c.tail (ub.firstId s) < m) : ub.nSeqs ≤ m - min := by
  have hcard : (Finset.range ub.nSeqs).card ≤ (Finset.Ico min m).card := by
    refine Finset.card_le_card_of_injOn (fun s => (c.tail (ub.firstId s)).toNat) (fun s hsn => ?_)
      fun s hsn s' hsn' he => ?_
    · have hsn : s < ub.nSeqs := by simpa using hsn
      have := (hholds s hsn).min_le
      have := hm s hsn
      simp only [Finset.coe_Ico, Set.mem_Ico]
      omega
    · have hsn : s < ub.nSeqs := by simpa using hsn
      have hsn' : s' < ub.nSeqs := by simpa using hsn'
      have := (hholds s hsn).min_le
      have := (hholds s' hsn').min_le
      exact h.row_inj hs hr hholds hsn hsn' (by dsimp only at he; omega)
  rwa [Finset.card_range, Nat.card_Ico] at hcard

/-- The rows fit behind `min`. -/
theorem Linked.window (h : c.Linked ub.MayBeNew) (hholds : ∀ s < ub.nSeqs, c.Holds ub min s) :
    ∀ s < ub.nSeqs, s + min < size := by
  have := h.rows_le hs hr hholds fun s hsn => (hholds s hsn).tail_lt
  intro s hsn
  omega

/-- A round of the loop that gathers. -/
theorem Gathered.step {c₀ : RecurrentCache size} (h : Gathered ub min c₀ k c)
    (hk : k < ub.nSeqs) : Gathered ub min c₀ (k + 1) (gatherRow ub min c k) := by
  have hwin := h.linked.window hs hr h.holds
  have hkh := h.holds k hk
  have hkmin := hkh.min_le
  have hklt := hkh.tail_lt
  obtain ⟨dst, hdst⟩ : ∃ dst, dst = k + min := ⟨_, rfl⟩
  obtain ⟨src, hsrc⟩ : ∃ src, src = (c.tail (ub.firstId k)).toNat := ⟨_, rfl⟩
  by_cases hne : dst = src
  · have hgather : gatherRow ub min c k = c := by
      unfold gatherRow
      dsimp only
      rw [if_pos (by omega)]
    rw [hgather]
    refine ⟨h.linked, h.holds, h.others, h.single, fun s hsk => ?_, h.state⟩
    rcases Nat.lt_succ_iff_lt_or_eq.1 hsk with hsk | rfl
    · exact h.placed s hsk
    · omega
  have hmany : 1 < ub.nSeqs := by
    by_contra hone
    obtain rfl : k = 0 := by omega
    have := h.single (by omega)
    omega
  have hl := h.linked.of_many hmany
  have hdlt : dst < size := hdst ▸ hwin k hk
  have hslt : src < size := by omega
  have hids (i : ℕ) : ((gatherRow ub min c k).cells i).seqId =
      (c.cells (Equiv.swap dst src i)).seqId := by
    rw [gatherRow_cells hdst hsrc hne]
  obtain ⟨hl', hmoved⟩ := hl.swap hdlt hslt (gatherRow_cells hdst hsrc hne)
  generalize gatherRow ub min c k = c' at hids hl' hmoved
  have hfirst (s : ℕ) (hsn : s < ub.nSeqs) := hr.first hs hsn
  have hswap (s : ℕ) (hsn : s < ub.nSeqs) : c'.tail (ub.firstId s) =
      ((Equiv.swap dst src (c.tail (ub.firstId s)).toNat : ℕ) : Int) := by
    have := (h.holds s hsn).min_le
    rw [(hmoved _ (hfirst s hsn).1 (hfirst s hsn).2).1, if_pos (by omega)]
  refine ⟨hl'.mono fun _ => False.elim, fun s hsn => ?_, fun s hsn t ht => ?_,
    fun hone => by omega, fun s hsk => ?_, fun t h0 ht => ?_⟩
  · have hold := h.holds s hsn
    have hmin := hold.min_le
    have hlt := hold.tail_lt
    have hbound : min ≤ Equiv.swap dst src (c.tail (ub.firstId s)).toNat ∧
        Equiv.swap dst src (c.tail (ub.firstId s)).toNat < size := by
      rw [Equiv.swap_apply_def]
      split_ifs <;> omega
    refine ⟨?_, ?_, fun t ht => hold.alone t ?_⟩
    · rw [hswap s hsn]
      exact_mod_cast hbound.1
    · rw [hswap s hsn]
      exact_mod_cast hbound.2
    · rwa [hswap s hsn, Int.toNat_natCast, hids, Equiv.swap_apply_self] at ht
  · have ht0 := hr s hsn t (List.mem_of_mem_tail ht)
    have htl := h.others s hsn t ht
    rw [(hmoved t ht0.1 ht0.2).1, if_neg (by omega)]
    exact htl
  · rcases Nat.lt_succ_iff_lt_or_eq.1 hsk with hsk | rfl
    · have hsn : s < ub.nSeqs := by omega
      have hps := h.placed s hsk
      -- a row that is in its place has another cell than this row
      have hne' : c.tail (ub.firstId s) ≠ c.tail (ub.firstId k) := fun he => by
        have := h.linked.row_inj hs hr h.holds hsn hk he
        omega
      rw [hswap s hsn, Equiv.swap_apply_of_ne_of_ne (by omega) (by omega)]
      omega
    · rw [hswap s hk, ← hsrc, Equiv.swap_apply_right, hdst]
      omega
  · rw [(hmoved t h0 ht).2, h.state t h0 ht]

/-- A round of the loop that updates the positions. -/
theorem Placed.step {c₀ : RecurrentCache size} (hwin : ∀ s < ub.nSeqs, s + min < size)
    (h : Placed ub min c₀ k c) (hk : k < ub.nSeqs) :
    Placed ub min c₀ (k + 1) (placeRow ub min c k) := by
  have hdlt := hwin k hk
  refine ⟨⟨fun i hi t ht => ?_, fun t h0 ht hnew htl => ?_, fun t h0 ht => ?_, fun i hi => ?_⟩,
    fun s hks hsn t ht => ?_, fun s hks hsn t ht => ?_, fun s hsk => ?_, fun i => ?_,
    fun i hik => ?_, fun t h0 ht => ?_⟩
  · rw [placeRow_seqId] at ht
    split at ht
    · rename_i hik
      have htm := List.mem_toFinset.1 ht
      obtain ⟨h0, htlt⟩ := hr k hk t htm
      refine ⟨h0, htlt, ?_⟩
      rw [placeRow_tail h0, if_pos htm, hik]
      push_cast
      rfl
    · rename_i hik
      obtain ⟨h0, htlt, htl⟩ := h.linked.owns i hi t ht
      refine ⟨h0, htlt, ?_⟩
      rw [placeRow_tail h0, if_neg fun htm => ?_, htl]
      have := h.tails k le_rfl hk t htm
      omega
  · rw [placeRow_tail h0] at htl ⊢
    split at htl
    · rename_i htm
      rw [if_pos htm]
      refine ⟨by omega, ?_⟩
      rw [placeRow_seqId, show ((k : Int) + min).toNat = k + min by omega, if_pos rfl]
      exact List.mem_toFinset.2 htm
    · rename_i htm
      rw [if_neg htm]
      -- a sequence that may still be new is in the first row
      have hold : ¬ (k = 0 ∧ ub.MayBeNew t) := by
        rintro ⟨rfl, -, rfl⟩
        exact htm (hs.first_mem hk)
      obtain ⟨htlt, hm⟩ := h.linked.listed t h0 ht hold htl
      refine ⟨htlt, ?_⟩
      rw [placeRow_seqId, if_neg fun htk => ?_]
      · exact hm
      · rw [htk] at hm
        exact htm (h.alone k le_rfl hk t hm ▸ hs.first_mem hk)
  · rw [placeRow_tail h0]
    split
    · omega
    · exact h.linked.low t h0 ht
  · rw [placeRow_seqId, placeRow_pos]
    split
    · refine iff_of_true (hs.posed k hk) ?_
      exact Finset.ne_empty_of_mem (List.mem_toFinset.2 (hs.first_mem hk))
    · exact h.linked.posed i hi
  · rw [placeRow_seqId, if_neg (by omega)] at ht
    exact h.alone s (by omega) hsn t ht
  · rw [placeRow_tail (hr s hsn t ht).1, if_neg fun htm => ?_]
    · exact h.tails s (by omega) hsn t ht
    · have := hs.distinct s hsn k hk t ht htm
      omega
  · rw [placeRow_seqId, placeRow_pos]
    rcases Nat.lt_succ_iff_lt_or_eq.1 hsk with hsk | rfl
    · rw [if_neg (by omega), if_neg (by omega)]
      exact h.rows s hsk
    · rw [if_pos rfl, if_pos rfl]
      exact ⟨rfl, rfl⟩
  · rw [placeRow_src, h.src]
  · rw [placeRow_pos, if_neg (hik k k.lt_succ_self)]
    exact h.pos i fun s hsk => hik s (by omega)
  · rw [placeRow_tail h0, if_neg (ht k k.lt_succ_self)]
    exact h.tail t h0 fun s hsk => ht s (by omega)

end Gather

/-- The ids behind the first of a row are those that `find_slot` takes off their cells. -/
theorem mem_rowIds {t : Int} {j : ℕ} :
    (t, j) ∈ ub.rowIds ↔ ∃ s < ub.nSeqs, (ub.seqId s)[j]? = some t := by
  simp [Ubatch.rowIds, List.mk_mem_zipIdx_iff_getElem?]

/-- What holds behind the loop that clears cells from sequences that become shared. -/
structure Entered (ub : Ubatch) (c e : RecurrentCache size) : Prop where
  atRest : e.AtRest
  inRange : ub.InRange size
  suits : ub.Suits e
  others : ∀ s < ub.nSeqs, ∀ t ∈ (ub.seqId s).tail, e.tail t < 0
  first : ∀ s < ub.nSeqs, e.tail (ub.firstId s) = c.tail (ub.firstId s) ∧
    e.stateOf (ub.firstId s) = c.stateOf (ub.firstId s)
  state : ∀ t : Int, 0 ≤ t → t < size → (∀ s < ub.nSeqs, t ∉ ub.seqId s) →
    e.stateOf t = c.stateOf t

theorem AtRest.enter (h : c.AtRest) (hs : ub.Suits c)
    (hin : (c.clearShared ub.rowIds).2 = true) : Entered ub c (c.clearShared ub.rowIds).1 := by
  obtain ⟨h1, -, hok⟩ := h.clearShared ub.rowIds
  obtain ⟨hrange, hout, hsame⟩ := hok hin
  have hr : ub.InRange size := fun s hsn t ht => by
    obtain ⟨j, hj⟩ := List.mem_iff_getElem?.1 ht
    exact hrange (t, j) (mem_rowIds.2 ⟨s, hsn, hj⟩)
  have hothers (s : ℕ) (hsn : s < ub.nSeqs) (t : Int) (ht : t ∈ (ub.seqId s).tail) :
      (c.clearShared ub.rowIds).1.tail t < 0 := by
    obtain ⟨j, hj⟩ := List.mem_iff_getElem?.1 ht
    rw [List.getElem?_tail] at hj
    exact hout (t, j + 1) (mem_rowIds.2 ⟨s, hsn, hj⟩) j.succ_pos
  -- the first of a row is none of those that left their cells
  have hfirst (s : ℕ) (hsn : s < ub.nSeqs) :
      (c.clearShared ub.rowIds).1.tail (ub.firstId s) = c.tail (ub.firstId s) ∧
        (c.clearShared ub.rowIds).1.stateOf (ub.firstId s) = c.stateOf (ub.firstId s) := by
    have hmem := hs.first_mem hsn
    refine hsame _ (hr s hsn _ hmem).1 (hr s hsn _ hmem).2 ?_
    rintro ⟨t, j⟩ hp hj rfl
    obtain ⟨s', hsn', hj'⟩ := mem_rowIds.1 hp
    obtain rfl := hs.distinct s hsn s' hsn' _ hmem (List.mem_of_getElem? hj')
    refine Ubatch.firstId_notMem_tail (hs.nodup s hsn) (hs.rows s hsn) ?_
    obtain ⟨j, rfl⟩ := Nat.exists_eq_succ_of_ne_zero hj.ne'
    rw [← List.getElem?_tail] at hj'
    exact List.mem_of_getElem? hj'
  refine ⟨h1, hr, ⟨hs.rows, hs.nodup, hs.distinct, hs.posed, fun hmany s hsn => ?_⟩, hothers,
    hfirst, fun t h0 hlt hnot => (hsame t h0 hlt ?_).2⟩
  · rw [(hfirst s hsn).1]
    exact hs.known hmany s hsn
  · rintro ⟨t', j⟩ hp hj rfl
    obtain ⟨s', hsn', hj'⟩ := mem_rowIds.1 hp
    exact hnot s' hsn' (List.mem_of_getElem? hj')

/-- What a slot is that was found: the rows of the ubatch have the cells from `head` on, each with
the state that its first sequence had, and the other sequences have kept theirs. -/
structure Found (ub : Ubatch) (c c' : RecurrentCache size) : Prop where
  fits : ∀ s < ub.nSeqs, s + c'.head < size
  rows : ∀ s < ub.nSeqs, (c'.cells (s + c'.head)).seqId = (ub.seqId s).toFinset ∧
    (c'.cells (s + c'.head)).pos = ub.pos (ub.nSeqTokens * s + ub.nSeqTokens - 1)
  src : ∀ s < ub.nSeqs, 0 ≤ c.tail (ub.firstId s) →
    (c'.cells (s + c'.head)).src = (c.cells (c.tail (ub.firstId s)).toNat).src
  others : ∀ t : Int, 0 ≤ t → t < size → (∀ s < ub.nSeqs, t ∉ ub.seqId s) →
    c'.stateOf t = c.stateOf t

/-- The last loop leaves the states where they are, but for the sequences of the ubatch. -/
theorem Placed.stateOf_eq {min : ℕ} {g : RecurrentCache size} (h : Placed ub min g ub.nSeqs c)
    (hg : Gathered ub min c' ub.nSeqs g) (hrows : ∀ s < ub.nSeqs, ub.seqId s ≠ []) {t : Int}
    (h0 : 0 ≤ t) (hlt : t < size) (hnot : ∀ s < ub.nSeqs, t ∉ ub.seqId s) :
    c.stateOf t = g.stateOf t := by
  have hnew : ¬ ub.MayBeNew t := by
    rintro ⟨hone, rfl⟩
    exact hnot 0 (by omega) (Ubatch.firstId_mem (hrows 0 (by omega)))
  have htl := h.tail t h0 hnot
  by_cases hl : 0 ≤ g.tail t
  · have hm := (hg.linked.listed t h0 hlt hnew hl).2
    have hcell : ∀ s < ub.nSeqs, (g.tail t).toNat ≠ s + min := fun s hsn he => by
      have := hg.placed_zero.alone s (Nat.zero_le s) hsn t (he ▸ hm)
      exact hnot s hsn (this ▸ Ubatch.firstId_mem (hrows s hsn))
    refine stateOf_of_cell hl (htl ▸ hl) ?_ ?_
    · rw [htl, h.src]
    · rw [htl, h.pos _ hcell]
  · exact stateOf_of_neg (by omega) (by omega)

/-- `find_slot` of an admitted ubatch: no assertion fails, and a slot is found exactly if everything
fits. -/
theorem AtRest.findSlot (h : c.AtRest) (hs : ub.Suits c) : ∃ c' found,
    c.findSlot ub = some (c', found) ∧ c'.AtRest ∧ (found = true ↔ ub.InRange size) ∧
      (found = true → Found ub c c') := by
  unfold RecurrentCache.findSlot
  dsimp only
  have hhead : (if (c.used + 2 * ub.nTokens) % 2 ^ 32 < c.head then 0 else c.head) < size := by
    split
    · exact c.size_pos
    · exact h.head
  generalize (if (c.used + 2 * ub.nTokens) % 2 ^ 32 < c.head then 0 else c.head) = head at hhead ⊢
  split
  swap
  · rename_i hin
    refine ⟨_, _, rfl, ((h.withHead hhead).clearShared ub.rowIds).1,
      iff_of_false hin fun hr => hin (clearShared_fits ?_), fun hf => absurd hf hin⟩
    rintro ⟨t, j⟩ hp
    obtain ⟨s, hsn, hj⟩ := mem_rowIds.1 hp
    exact hr s hsn t (List.mem_of_getElem? hj)
  rename_i hin
  obtain ⟨h1, hr, hs1, hothers, hfirst, hkept⟩ :=
    (h.withHead hhead).enter ⟨hs.rows, hs.nodup, hs.distinct, hs.posed, hs.known⟩ hin
  obtain ⟨st, htake, htaken⟩ := h1.takeCells hs1 hr hothers
  rw [htake]
  have hlinked' : st.cache.Linked ub.MayBeNew := htaken.linked.mono fun _ hf => hf.2
  have hn : ub.nSeqs ≤ (((st.max : Int) - st.min + 1) % 2 ^ 32).toNat := by
    have hrows := hlinked'.rows_le (m := st.max + 1) hs1 hr htaken.holds fun s hsn => by
      have := htaken.le_max s hsn
      omega
    have := htaken.max_lt
    have := c.size_lt
    omega
  have hgathered := Index.foldl_range_invariant (I := Gathered ub st.min st.cache)
    (f := gatherRow ub st.min)
    ⟨hlinked', htaken.holds, htaken.others,
      fun hone => (htaken.single hone).symm, by simp, fun _ _ _ => rfl⟩
    fun k hk x hx => hx.step hs1 hr hk
  refine ⟨_, _, rfl, ?_⟩
  have hwin := hgathered.linked.window hs hr hgathered.holds
  generalize (List.range ub.nSeqs).foldl (gatherRow ub st.min) st.cache = g at hgathered ⊢
  have hplaced := Index.foldl_range_invariant (I := Placed ub st.min g) (f := placeRow ub st.min)
    hgathered.placed_zero fun k hk x hx => hx.step hs hr hwin hk
  have hlinked : Linked (fun _ => False) _ := hplaced.linked.mono fun t ht => by
    have := ht.2.1
    omega
  refine ⟨⟨⟨hlinked.owns, hlinked.listed, hlinked.low, hlinked.posed⟩, rfl, htaken.min_lt⟩,
    iff_of_true (decide_eq_true hn) hr, fun _ => ⟨hwin, hplaced.rows, fun s hsn hl => ?_,
      fun t h0 hlt hnot => ?_⟩⟩
  · -- the state that the first sequence of a row had has gone with it
    have hmem := hr.first hs hsn
    have hstate : g.stateOf (ub.firstId s) = c.stateOf (ub.firstId s) := by
      rw [hgathered.state _ hmem.1 hmem.2, htaken.state _ hmem.1 hmem.2 fun _ => ?_]
      · exact (hfirst s hsn).2
      · rw [(hfirst s hsn).1]
        exact hl
    have htl := hgathered.placed s hsn
    rw [stateOf, stateOf, if_pos hl, if_pos (by omega), htl, Option.some.injEq] at hstate
    have hcell : ((s : Int) + st.min).toNat = s + st.min := by omega
    rw [hcell] at hstate
    exact (hplaced.src _).trans (Prod.mk.inj hstate).1
  · calc _ = g.stateOf t := hplaced.stateOf_eq hgathered hs.rows h0 hlt hnot
      _ = _ := hgathered.state t h0 hlt
      _ = _ := htaken.state t h0 hlt fun hnew =>
        absurd (hnew.2 ▸ Ubatch.firstId_mem (hs.rows 0 (by have := hnew.1; omega)))
          (hnot 0 (by have := hnew.1; omega))
      _ = c.stateOf t := hkept t h0 hlt hnot

theorem AtRest.setInputs (h : c.AtRest) : c.setInputs.AtRest := by
  have hcells (i : ℕ) : (c.setInputs.cells i).seqId = (c.cells i).seqId ∧
      (c.setInputs.cells i).pos = (c.cells i).pos ∧
        (c.setInputs.cells i).tail = (c.cells i).tail := by
    unfold RecurrentCache.setInputs
    dsimp only
    split <;> simp
  exact h.frame (fun i => (hcells i).1) (fun t => (hcells t.toNat).2.2)
    (fun i _ => by rw [(hcells i).2.1]) rfl rfl

/-! ## Runs -/

end RecurrentCache

/-- The operations on a recurrent cache; `setInputs` comes between the search for a slot and the
graph. -/
inductive RecurrentOp
  | clear
  | seqRm (seqId p0 p1 : Int)
  | seqCp (src dst : Int)
  | seqKeep (seqId : Int)
  | seqAdd (seqId p0 p1 delta : Int)
  | seqDiv (seqId p0 p1 d : Int)
  | findSlot (ub : Ubatch)
  | setInputs

namespace RecurrentCache

def run (c : RecurrentCache size) : RecurrentOp → Option (RecurrentCache size)
  | .clear => some c.clear
  | .seqRm seqId p0 p1 => some (c.seqRm seqId p0 p1).1
  | .seqCp src dst => some (c.seqCp src dst)
  | .seqKeep seqId => some (c.seqKeep seqId)
  | .seqAdd seqId p0 p1 delta => some (c.seqAdd seqId p0 p1 delta)
  | .seqDiv seqId p0 p1 d => some (c.seqDiv seqId p0 p1 d)
  | .findSlot ub => (c.findSlot ub).map Prod.fst
  | .setInputs => some c.setInputs

/-- What the operations ask for: one sequence is removed at a time, no position is moved below
zero, and a ubatch of several sequences has no new one. -/
def Admits (c : RecurrentCache size) : RecurrentOp → Prop
  | .seqRm seqId _ _ => 0 ≤ seqId
  | .seqAdd seqId _ _ delta => 0 ≤ (c.cells (c.tail seqId).toNat).pos →
      0 ≤ (c.cells (c.tail seqId).toNat).pos + delta
  | .seqDiv _ _ _ d => 0 < d
  | .findSlot ub => ub.Suits c
  | _ => True

instance (ub : Ubatch) (c : RecurrentCache size) : Decidable (ub.Suits c) :=
  decidable_of_iff ((∀ s < ub.nSeqs, ub.seqId s ≠ []) ∧ (∀ s < ub.nSeqs, (ub.seqId s).Nodup) ∧
    (∀ s < ub.nSeqs, ∀ s' < ub.nSeqs, ∀ t ∈ ub.seqId s, t ∈ ub.seqId s' → s = s') ∧
    (∀ s < ub.nSeqs, 0 ≤ ub.pos (ub.nSeqTokens * s + ub.nSeqTokens - 1)) ∧
    (1 < ub.nSeqs → ∀ s < ub.nSeqs, 0 ≤ c.tail (ub.firstId s)))
    ⟨fun h => ⟨h.1, h.2.1, h.2.2.1, h.2.2.2.1, h.2.2.2.2⟩,
      fun h => ⟨h.rows, h.nodup, h.distinct, h.posed, h.known⟩⟩

instance (c : RecurrentCache size) : ∀ op, Decidable (c.Admits op)
  | .clear | .seqCp .. | .seqKeep .. | .setInputs => inferInstanceAs (Decidable True)
  | .seqRm seqId _ _ => inferInstanceAs (Decidable (0 ≤ seqId))
  | .seqAdd seqId _ _ delta =>
    inferInstanceAs (Decidable (0 ≤ (c.cells (c.tail seqId).toNat).pos →
      0 ≤ (c.cells (c.tail seqId).toNat).pos + delta))
  | .seqDiv _ _ _ d => inferInstanceAs (Decidable (0 < d))
  | .findSlot ub => inferInstanceAs (Decidable (ub.Suits c))

theorem AtRest.run (h : c.AtRest) {op : RecurrentOp} (hop : c.Admits op)
    (hrun : c.run op = some c') : c'.AtRest := by
  cases op with
  | clear => exact Option.some.inj hrun ▸ .clear
  | seqRm seqId p0 p1 => exact Option.some.inj hrun ▸ h.seqRm hop p0 p1
  | seqCp src dst => exact Option.some.inj hrun ▸ h.seqCp src dst
  | seqKeep seqId => exact Option.some.inj hrun ▸ h.seqKeep seqId
  | seqAdd seqId p0 p1 delta =>
    obtain rfl := Option.some.inj hrun
    unfold RecurrentCache.seqAdd
    split
    · exact h
    · exact h.moveSeq seqId p0 p1 fun _ hp => hop hp
  | seqDiv seqId p0 p1 d =>
    obtain rfl := Option.some.inj hrun
    unfold RecurrentCache.seqDiv
    split
    · exact h
    · exact h.moveSeq seqId p0 p1 fun _ hp => Int.tdiv_nonneg hp (le_of_lt hop)
  | findSlot ub =>
    obtain ⟨c1, found, hfind, hrest, -⟩ := h.findSlot hop
    simp only [RecurrentCache.run, hfind, Option.map_some, Option.some.injEq] at hrun
    exact hrun ▸ hrest
  | setInputs => exact Option.some.inj hrun ▸ h.setInputs

end RecurrentCache

/-- In every run from an empty cache whose operations are admitted, a sequence is in the cell that
its tail names and in no other, the checks in `find_slot` report nothing, and `used` counts the
cells that are not empty. -/
theorem RecurrentCache.tails_of_run {ops : List RecurrentOp}
    (h : Run (Guarded Admits fun c op c' => c.run op = some c') c.clear ops c') :
    (∀ t : Int, 0 ≤ t → t < size → ∀ i < size, c'.tail t = (i : ℕ) ↔ t ∈ (c'.cells i).seqId) ∧
      c'.TailsVerified ∧ c'.used = Nat.count (fun i => (c'.cells i).seqId ≠ ∅) size := by
  have hrest : c'.AtRest := h.invariant (fun _ _ _ hc hstep => hc.run hstep.1 hstep.2) .clear
  refine ⟨fun t h0 ht i hi => ⟨fun htl => ?_, fun hm => (hrest.owns i hi t hm).2.2⟩,
    hrest.tailsVerified, hrest.used⟩
  have := (hrest.listed t h0 ht not_false (by omega)).2
  rwa [htl, Int.toNat_natCast] at this

/-- A ubatch of one token for each of the rows, at a position. -/
def Ubatch.tokens (pos : Int) (rows : List (List Int)) : Ubatch where
  nSeqs := rows.length
  nSeqTokens := 1
  pos _ := pos
  seqId s := rows[s]?.getD []

theorem RecurrentCache.tails_of_run_swapped : ∃ c : RecurrentCache 2,
    c.tail 1 = 0 ∧ c.tail 0 = 1 ∧ c.TailsVerified := by
  have hsome : ((exec (fun c op => if Admits c op then c.run op else none)
      (RecurrentCache.clear (⟨by decide, by decide, 0, 0, 0, fun _ => {}, []⟩ : RecurrentCache 2))
      [.findSlot (.tokens 0 [[0]]), .setInputs, .findSlot (.tokens 0 [[1]]), .setInputs,
        .findSlot (.tokens 1 [[1], [0]])]).map fun c => (c.tail 1, c.tail 0)) = some (0, 1) := by
    decide
  obtain ⟨c, hc, htails⟩ := Option.map_eq_some_iff.1 hsome
  have h := tails_of_run (guarded_run_of_exec hc)
  rw [Prod.mk.injEq] at htails
  exact ⟨c, htails.1, htails.2, h.2.1⟩

/-- In every run from an empty cache whose operations are admitted, `find_slot` fails no assertion
for an admitted ubatch, and finds a slot exactly if everything fits. -/
theorem RecurrentCache.fits_of_run {ops : List RecurrentOp} {c₀ : RecurrentCache size}
    (h : Run (Guarded Admits fun c op c' => c.run op = some c') c₀.clear ops c) (hs : ub.Suits c) :
    ∃ c' found, c.findSlot ub = some (c', found) ∧ (found = true ↔ ub.InRange size) := by
  have hrest : c.AtRest := h.invariant (fun _ _ _ hc hstep => hc.run hstep.1 hstep.2) .clear
  obtain ⟨c', found, hfind, -, hfits, -⟩ := hrest.findSlot hs
  exact ⟨c', found, hfind, hfits⟩

theorem RecurrentCache.fits_of_run_shared : ∃ c : RecurrentCache 2, c.tail 0 = c.tail 1 ∧
    ∃ c', c.findSlot (.tokens 1 [[1], [0]]) = some (c', true) := by
  have hsome : ((exec (fun c op => if Admits c op then c.run op else none)
      (RecurrentCache.clear (⟨by decide, by decide, 0, 0, 0, fun _ => {}, []⟩ : RecurrentCache 2))
      [.findSlot (.tokens 0 [[0]]), .setInputs, .seqCp 0 1]).map fun c =>
        (c.tail 0 - c.tail 1, decide ((Ubatch.tokens 1 [[1], [0]]).Suits c))) =
          some (0, true) := by
    decide
  obtain ⟨c, hc, htails⟩ := Option.map_eq_some_iff.1 hsome
  rw [Prod.mk.injEq, decide_eq_true_eq] at htails
  obtain ⟨c', found, hfind, hfits⟩ := fits_of_run (guarded_run_of_exec hc) htails.2
  obtain rfl := hfits.2 (by unfold Ubatch.InRange; decide)
  exact ⟨c, by omega, c', hfind⟩

/-- In every run from an empty cache whose operations are admitted, a slot that is found for an
admitted ubatch has the state of each sequence in the cell of its row, and no other sequence is
affected. -/
theorem RecurrentCache.found_of_run {ops : List RecurrentOp} {c₀ : RecurrentCache size}
    (h : Run (Guarded Admits fun c op c' => c.run op = some c') c₀.clear ops c) (hs : ub.Suits c)
    (hfind : c.findSlot ub = some (c', true)) : Found ub c c' := by
  have hrest : c.AtRest := h.invariant (fun _ _ _ hc hstep => hc.run hstep.1 hstep.2) .clear
  obtain ⟨c1, found, hfind', -, -, hfound⟩ := hrest.findSlot hs
  obtain ⟨rfl, rfl⟩ := Prod.mk.inj (Option.some.inj (hfind'.symm.trans hfind))
  exact hfound rfl

theorem RecurrentCache.found_of_run_swapped : ∃ c c' : RecurrentCache 2,
    c.findSlot (.tokens 1 [[1], [0]]) = some (c', true) ∧ Found (.tokens 1 [[1], [0]]) c c' := by
  have hsome : ((exec (fun c op => if Admits c op then c.run op else none)
      (RecurrentCache.clear (⟨by decide, by decide, 0, 0, 0, fun _ => {}, []⟩ : RecurrentCache 2))
      [.findSlot (.tokens 0 [[0]]), .setInputs, .findSlot (.tokens 0 [[1]]),
        .setInputs]).bind fun c => if (Ubatch.tokens 1 [[1], [0]]).Suits c then
          (c.findSlot (.tokens 1 [[1], [0]])).map Prod.snd else none) = some true := by
    decide
  obtain ⟨c, hc, hfound⟩ := Option.bind_eq_some_iff.1 hsome
  obtain ⟨hs, hfound⟩ := Option.ite_none_right_eq_some.1 hfound
  obtain ⟨⟨c', found⟩, hfind, rfl⟩ := Option.map_eq_some_iff.1 hfound
  exact ⟨c, c', hfind, found_of_run (guarded_run_of_exec hc) hs hfind⟩

/-- Beside sequence 0, the new sequence 2 gets the state of sequence 0. -/
example : ((exec (fun c op => c.run op)
    (⟨by decide, by decide, 0, 0, 0, fun _ => {}, []⟩ : RecurrentCache 3)
    [.findSlot (.tokens 0 [[1]]), .setInputs, .findSlot (.tokens 0 [[2]]), .setInputs,
      .findSlot (.tokens 0 [[0]]), .setInputs, .seqRm 2 (-1) (-1)]).bind fun c =>
    (c.findSlot (.tokens 1 [[0], [2]])).map fun r => (c.stateOf 0, r.1.stateOf 2)) =
      some (some (2, 0), some (2, 1)) := by
  decide

end LamaServer
