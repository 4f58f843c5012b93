import Mathlib.Data.List.Rotate
import Mathlib.Data.Nat.ModEq
import Mathlib.Tactic.Basic

/-!
# Ring buffers

A list of slots that is read from a head round to a tail. Equal head and tail mean that it is empty,
so a ring that is written at the tail must grow when the tail meets the head: `contents_pushGrow`.
-/

/-- Slots, and the positions in them from which to read and at which to write. -/
structure RingBuffer (α : Type*) where
  slots : List α
  head : Nat
  tail : Nat
  head_lt : head < slots.length
  tail_lt : tail < slots.length

namespace RingBuffer

variable {α : Type*} (r : RingBuffer α) (f : α → α) (fresh : α)

/-- The number of slots from the head round to the tail. -/
def count : Nat := (r.tail + r.slots.length - r.head) % r.slots.length

/-- What is in the slots from the head round to the tail. -/
def contents : List α := (r.slots.rotate r.head).take r.count

/-- Writes the slot at the tail, and moves the tail on. -/
def push : RingBuffer α where
  slots := r.slots.modify r.tail f
  head := r.head
  tail := (r.tail + 1) % r.slots.length
  head_lt := by simpa using r.head_lt
  tail_lt := by
    rw [List.length_modify]
    exact Nat.mod_lt _ (Nat.zero_lt_of_lt r.tail_lt)

/-- The slot to read next. -/
def front : α := r.slots.get ⟨r.head, r.head_lt⟩

/-- The slot to write next. -/
def back : α := r.slots.get ⟨r.tail, r.tail_lt⟩

/-- Moves the head on. -/
def advance : RingBuffer α where
  slots := r.slots
  head := (r.head + 1) % r.slots.length
  tail := r.tail
  head_lt := Nat.mod_lt _ (Nat.zero_lt_of_lt r.head_lt)
  tail_lt := r.tail_lt

/-- The first of the contents, and the rest. -/
def pop : Option (α × RingBuffer α) :=
  if r.head = r.tail then none else some (r.front, r.advance)

/-- Reads a slot and moves the head on until the head meets the tail, at most `k` times. -/
def drain : Nat → RingBuffer α → List α
  | 0, _ => []
  | k + 1, r => r.front :: if r.advance.head = r.advance.tail then [] else drain k r.advance

theorem length_drain_le : ∀ (k : Nat) (r : RingBuffer α), (drain k r).length ≤ k
  | 0, _ => le_rfl
  | k + 1, r => by
    have ih := length_drain_le k r.advance
    unfold drain
    split_ifs <;> simp [ih]

/-- Twice the slots, with what was in the old ones at the front. -/
def grow : RingBuffer α where
  slots := drain r.slots.length r ++
    List.replicate (2 * r.slots.length - (drain r.slots.length r).length) fresh
  head := 0
  tail := (drain r.slots.length r).length
  head_lt := by
    have := length_drain_le r.slots.length r
    have := r.head_lt
    simp only [List.length_append, List.length_replicate]
    omega
  tail_lt := by
    have := length_drain_le r.slots.length r
    have := r.head_lt
    simp only [List.length_append, List.length_replicate]
    omega

/-- Writes at the tail, and grows when that leaves no free slot. -/
def pushGrow : RingBuffer α := if (r.push f).tail = (r.push f).head then (r.push f).grow fresh else r.push f

section Positions

theorem count_lt : r.count < r.slots.length := Nat.mod_lt _ (Nat.zero_lt_of_lt r.head_lt)

theorem length_contents : r.contents.length = r.count := by
  rw [contents, List.length_take, List.length_rotate, Nat.min_eq_left r.count_lt.le]

theorem tail_eq : r.tail = (r.head + r.count) % r.slots.length := by
  have hh := r.head_lt
  have ht := r.tail_lt
  rw [count, Nat.add_mod_mod, Nat.add_sub_cancel' (by omega), Nat.add_mod_right,
    Nat.mod_eq_of_lt ht]

/-- Positions from the head on are different before they come round. -/
theorem add_mod_inj {h i j n : Nat} (hi : i < n) (hj : j < n) :
    (h + i) % n = (h + j) % n ↔ i = j := by
  constructor
  · intro heq
    have := Nat.ModEq.add_left_cancel' h heq
    rwa [Nat.ModEq, Nat.mod_eq_of_lt hi, Nat.mod_eq_of_lt hj] at this
  · rintro rfl
    rfl

theorem count_eq_iff {k : Nat} (hk : k < r.slots.length) :
    r.count = k ↔ r.tail = (r.head + k) % r.slots.length := by
  rw [tail_eq, add_mod_inj r.count_lt hk]

theorem head_eq_tail_iff : r.head = r.tail ↔ r.count = 0 := by
  have hh := r.head_lt
  rw [count_eq_iff r (Nat.zero_lt_of_lt hh), Nat.add_zero, Nat.mod_eq_of_lt hh, eq_comm]

end Positions

section Contents

theorem take_rotate_succ {l : List α} {h k : Nat} (hh : h < l.length) (hk : k < l.length) :
    (l.rotate h).take (k + 1) = l[h] :: (l.rotate ((h + 1) % l.length)).take k := by
  have hlen : (l.rotate h).length = l.length := List.length_rotate ..
  have hhead := List.head?_rotate hh
  rw [List.rotate_mod, ← List.rotate_rotate]
  rcases hl : l.rotate h with _ | ⟨x, xs⟩
  · rw [hl] at hlen
    simp only [List.length_nil] at hlen
    omega
  · rw [hl, List.head?_cons, List.getElem?_eq_getElem hh] at hhead
    rw [hl, List.length_cons] at hlen
    rw [← Option.some.inj hhead, List.take_succ_cons, List.rotate_cons_succ, List.rotate_zero,
      List.take_append_of_le_length (by omega)]

theorem rotate_modify {l : List α} {h k : Nat} (hk : k < l.length) :
    (l.modify ((h + k) % l.length) f).rotate h = (l.rotate h).modify k f := by
  refine List.ext_getElem (by simp) fun i hi _ => ?_
  have hi' : i < l.length := by simpa using hi
  rw [List.getElem_rotate, List.getElem_modify, List.getElem_modify, List.getElem_rotate]
  simp only [List.length_modify, Nat.add_comm i h, add_mod_inj hk hi']

theorem push_slots_rotate :
    (r.push f).slots.rotate r.head = (r.slots.rotate r.head).modify r.count f := by
  change (r.slots.modify r.tail f).rotate r.head = _
  rw [tail_eq]
  exact rotate_modify f r.count_lt

theorem take_push :
    ((r.push f).slots.rotate r.head).take (r.count + 1) = r.contents ++ [f r.back] := by
  have hlt : r.count < (r.slots.rotate r.head).length := by
    rw [List.length_rotate]
    exact r.count_lt
  have hback : (r.slots.rotate r.head)[r.count] = r.back := by
    simp only [List.getElem_rotate, back, List.get_eq_getElem, Nat.add_comm r.count]
    congr 1
    exact r.tail_eq.symm
  rw [push_slots_rotate, List.take_succ_eq_append_getElem (by simpa using r.count_lt), contents,
    List.getElem_modify_eq, hback, List.take_modify, List.modify_eq_self (by simp)]

/-- What is written is what comes last, if a slot stays free. -/
theorem contents_push (h : r.count + 1 < r.slots.length) :
    (r.push f).contents = r.contents ++ [f r.back] := by
  have hcount : (r.push f).count = r.count + 1 := by
    rw [count_eq_iff]
    · change (r.tail + 1) % r.slots.length = (r.head + (r.count + 1)) % (r.slots.modify _ _).length
      rw [tail_eq, List.length_modify, Nat.mod_add_mod, Nat.add_assoc]
    · exact h.trans_eq (List.length_modify ..).symm
  rw [contents, hcount]
  exact r.take_push f

/-- Writing the last free slot empties the ring. -/
theorem push_full (h : r.count + 1 = r.slots.length) : (r.push f).head = (r.push f).tail := by
  change r.head = (r.tail + 1) % r.slots.length
  rw [tail_eq, Nat.mod_add_mod, Nat.add_assoc, h, Nat.add_mod_right, Nat.mod_eq_of_lt r.head_lt]

theorem contents_eq_nil (h : r.head = r.tail) : r.contents = [] := by
  rw [contents, r.head_eq_tail_iff.1 h, List.take_zero]

theorem take_advance {k : Nat} (hk : k < r.slots.length) :
    (r.slots.rotate r.head).take (k + 1) = r.front :: (r.slots.rotate r.advance.head).take k :=
  take_rotate_succ r.head_lt hk

theorem count_advance (h : r.head ≠ r.tail) : r.count = r.advance.count + 1 := by
  have hpos : r.count ≠ 0 := fun h0 => h (r.head_eq_tail_iff.2 h0)
  obtain ⟨k, hk⟩ := Nat.exists_eq_succ_of_ne_zero hpos
  have hlt := r.count_lt
  rw [hk, Nat.succ_inj, eq_comm, count_eq_iff]
  · change r.tail = ((r.head + 1) % r.slots.length + k) % r.slots.length
    rw [tail_eq, hk, Nat.mod_add_mod, Nat.succ_eq_add_one, Nat.add_assoc, Nat.add_comm 1]
  · change k < r.slots.length
    omega

/-- What is read is what comes first. -/
theorem contents_pop (h : r.head ≠ r.tail) : r.contents = r.front :: r.advance.contents := by
  have hlt := r.count_lt
  have hcount := r.count_advance h
  rw [contents, hcount, take_advance _ (by omega)]
  rfl

/-- The slots from the head on until the tail comes round. -/
theorem drain_eq : ∀ {k : Nat} (r : RingBuffer α), k < r.slots.length →
    r.tail = (r.head + (k + 1)) % r.slots.length →
      drain (k + 1) r = (r.slots.rotate r.head).take (k + 1)
  | 0, r, hk, htail => by
    have hmeet : r.advance.head = r.advance.tail := htail.symm
    rw [drain, if_pos hmeet, take_advance _ hk, List.take_zero]
  | k + 1, r, hk, htail => by
    have htail' : r.advance.tail = (r.advance.head + (k + 1)) % r.advance.slots.length := by
      change r.tail = ((r.head + 1) % r.slots.length + (k + 1)) % r.slots.length
      have hsum : r.head + 1 + (k + 1) = r.head + (k + 1 + 1) := by omega
      rw [htail, Nat.mod_add_mod, hsum]
    have hmeet : r.advance.head ≠ r.advance.tail := by
      intro hmeet
      rw [htail', ← Nat.mod_eq_of_lt r.advance.head_lt, Nat.mod_add_mod] at hmeet
      have h0 := (add_mod_inj (h := r.advance.head) (Nat.zero_lt_of_lt hk) hk).1 hmeet
      omega
    rw [drain, if_neg hmeet, drain_eq r.advance (Nat.lt_of_succ_lt hk) htail', take_advance _ hk]
    rfl

theorem drain_of_meet (h : r.head = r.tail) :
    drain r.slots.length r = r.slots.rotate r.head := by
  have hlt := r.head_lt
  obtain ⟨k, hk⟩ := Nat.exists_eq_succ_of_ne_zero (Nat.ne_zero_of_lt hlt)
  have htail : r.tail = (r.head + (k + 1)) % r.slots.length := by
    rw [← Nat.succ_eq_add_one, ← hk, Nat.add_mod_right, Nat.mod_eq_of_lt hlt, h]
  rw [hk, Nat.succ_eq_add_one, drain_eq r (by omega) htail, List.take_of_length_le]
  rw [List.length_rotate, hk]

theorem contents_grow (h : r.head = r.tail) : (r.grow fresh).contents = r.slots.rotate r.head := by
  have hlen : (r.slots.rotate r.head).length = r.slots.length := List.length_rotate ..
  have hcount : (r.grow fresh).count = r.slots.length := by
    have hlt := r.head_lt
    unfold count grow
    simp only [drain_of_meet _ h, List.length_append, List.length_replicate, hlen]
    have hdouble : r.slots.length + (2 * r.slots.length - r.slots.length) =
      2 * r.slots.length := by omega
    rw [hdouble, Nat.sub_zero, Nat.add_mod_right, Nat.mod_eq_of_lt (by omega)]
  rw [contents, hcount, grow]
  simp only [drain_of_meet _ h, List.rotate_zero]
  exact List.take_left' hlen

/-- A write that grows when it must loses nothing. -/
theorem contents_pushGrow : (r.pushGrow f fresh).contents = r.contents ++ [f r.back] := by
  have hlt := r.count_lt
  unfold pushGrow
  split_ifs with h
  · have hfull : r.count + 1 = r.slots.length := by
      by_contra hne
      have hfull := r.contents_push f (by omega)
      rw [contents_eq_nil _ h.symm] at hfull
      simp at hfull
    have htake := r.take_push f
    rw [contents_grow _ _ h.symm, ← htake, hfull, List.take_of_length_le]
    · rfl
    · rw [List.length_rotate]
      exact (List.length_modify ..).le
  · refine r.contents_push f ?_
    have hne : r.count + 1 ≠ r.slots.length := fun hfull => h (r.push_full f hfull).symm
    omega

end Contents

end RingBuffer
