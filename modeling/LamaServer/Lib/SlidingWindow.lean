import Mathlib.Data.Int.Basic
import Mathlib.Data.List.DropRight
import Mathlib.Logic.Function.Basic
import LamaServer.Lib.RingBuffer

/-!
# Sliding windows

A ring that counts what is in it and writes over its oldest entry when it is full keeps the last
entries of what is pushed: a window that slides. How often an entry occurs in the window can be kept
beside it, entry by entry: `Counts.up` and `Counts.down`.
-/

/-- A ring of a fixed capacity. `data` has no more than `capacity` entries. -/
structure SizedRing (α : Type*) where
  capacity : Nat
  sz : Nat := 0
  first : Nat := 0
  pos : Nat := 0
  data : Nat → α
  sz_le : sz ≤ capacity
  first_lt : 0 < capacity → first < capacity
  pos_eq : pos = (first + sz) % capacity

namespace SizedRing

variable {α : Type*} (r : SizedRing α)

/-- The entries, from the oldest on. -/
def toList : List α := (List.range r.sz).map fun i => r.data ((r.first + i) % r.capacity)

def new (capacity : Nat) (value : α) : SizedRing α where
  capacity := capacity
  data := fun _ => value
  sz_le := Nat.zero_le _
  first_lt := id
  pos_eq := (Nat.zero_mod _).symm

def front : Option α := if r.sz = 0 then none else some (r.data r.first)

/-- The entry so many places before the last one. -/
def rat (i : Nat) : Option α :=
  if i ≥ r.sz then none else some (r.data ((r.first + r.sz - i - 1) % r.capacity))

/-- Writes at the end, and over the oldest entry of a full ring. -/
def pushBack (h : 0 < r.capacity) (value : α) : SizedRing α where
  capacity := r.capacity
  sz := if r.sz = r.capacity then r.sz else r.sz + 1
  first := if r.sz = r.capacity then (r.first + 1) % r.capacity else r.first
  pos := (r.pos + 1) % r.capacity
  data := Function.update r.data r.pos value
  sz_le := by
    have hle := r.sz_le
    split_ifs <;> omega
  first_lt := fun _ => by
    split_ifs
    · exact Nat.mod_lt _ h
    · exact r.first_lt h
  pos_eq := by
    rw [r.pos_eq, Nat.mod_add_mod]
    split_ifs
    · rw [Nat.mod_add_mod, Nat.add_right_comm]
    · rw [Nat.add_assoc]

/-- Forgets the entries, but not what is written in their places. -/
def clear : SizedRing α where
  capacity := r.capacity
  data := r.data
  sz_le := Nat.zero_le _
  first_lt := id
  pos_eq := (Nat.zero_mod _).symm

/-- Moves on from the oldest entry. -/
def popFront (h : r.sz ≠ 0) : SizedRing α where
  capacity := r.capacity
  sz := r.sz - 1
  first := (r.first + 1) % r.capacity
  pos := r.pos
  data := r.data
  sz_le := (Nat.sub_le _ _).trans r.sz_le
  first_lt := fun hpos => Nat.mod_lt _ hpos
  pos_eq := by
    rw [r.pos_eq, Nat.mod_add_mod, Nat.add_assoc, Nat.add_sub_cancel' (Nat.pos_of_ne_zero h)]

theorem sz_pushBack (h : 0 < r.capacity) (value : α) : (r.pushBack h value).sz =
    if r.sz = r.capacity then r.sz else r.sz + 1 := rfl

theorem first_pushBack (h : 0 < r.capacity) (value : α) : (r.pushBack h value).first =
    if r.sz = r.capacity then (r.first + 1) % r.capacity else r.first := rfl

theorem sz_popFront (h : r.sz ≠ 0) : (r.popFront h).sz = r.sz - 1 := rfl

theorem first_popFront (h : r.sz ≠ 0) :
    (r.popFront h).first = (r.first + 1) % r.capacity := rfl

@[simp] theorem length_toList : r.toList.length = r.sz := by simp [toList]

@[simp] theorem toList_new (capacity : Nat) (value : α) : (new capacity value).toList = [] := rfl

@[simp] theorem toList_clear : r.clear.toList = [] := rfl

theorem pos_lt (h : 0 < r.capacity) : r.pos < r.capacity := by
  rw [r.pos_eq]
  exact Nat.mod_lt _ h

theorem toList_eq_nil : r.toList = [] ↔ r.sz = 0 := by
  rw [← List.length_eq_zero_iff, length_toList]

theorem front_eq_head? (h : 0 < r.capacity) : r.front = r.toList.head? := by
  rw [front, toList]
  rcases r.sz with _ | n
  · rfl
  · rw [if_neg (Nat.succ_ne_zero n), List.range_succ_eq_map, List.map_cons, List.head?_cons,
      Nat.add_zero, Nat.mod_eq_of_lt (r.first_lt h)]

theorem rat_eq (i : Nat) : r.rat i = r.toList.reverse[i]? := by
  unfold rat toList
  split_ifs with h
  · rw [List.getElem?_eq_none (by simpa using h)]
  · rw [List.getElem?_reverse (by simpa using h), List.getElem?_map, List.length_map,
      List.length_range, List.getElem?_range (by omega), Option.map_some,
      show r.first + r.sz - i - 1 = r.first + (r.sz - 1 - i) by omega]

theorem toList_popFront (h : r.sz ≠ 0) : (r.popFront h).toList = r.toList.tail := by
  obtain ⟨n, hn⟩ := Nat.exists_eq_succ_of_ne_zero h
  have hsz : (r.popFront h).sz = n := by
    rw [sz_popFront, hn, Nat.succ_sub_one]
  have hplace : ∀ i, ((r.popFront h).first + i) % r.capacity = (r.first + (i + 1)) % r.capacity :=
    fun i => by rw [first_popFront, Nat.mod_add_mod, Nat.add_assoc, Nat.add_comm 1]
  rw [toList, toList, hsz, hn, List.range_succ_eq_map, List.map_cons, List.tail_cons, List.map_map]
  exact List.map_congr_left fun i _ => congrArg r.data (hplace i)

/-- Only the place behind the entries is written, which is that of the oldest one when the ring is
full. -/
theorem data_pushBack (h : 0 < r.capacity) (value : α) {i : Nat} (hi : i < r.capacity)
    (hne : i ≠ r.sz % r.capacity) : (r.pushBack h value).data ((r.first + i) % r.capacity) =
      r.data ((r.first + i) % r.capacity) := by
  refine Function.update_of_ne ?_ _ _
  rw [r.pos_eq, ← Nat.add_mod_mod r.first r.sz, Ne,
    RingBuffer.add_mod_inj hi (Nat.mod_lt _ h)]
  exact hne

theorem data_pushBack_pos (h : 0 < r.capacity) (value : α) :
    (r.pushBack h value).data ((r.first + r.sz) % r.capacity) = value := by
  rw [← r.pos_eq]
  exact Function.update_self ..

theorem toList_pushBack (h : 0 < r.capacity) (value : α) :
    (r.pushBack h value).toList =
      (if r.sz = r.capacity then r.toList.tail else r.toList) ++ [value] := by
  have hlast := r.data_pushBack_pos h value
  by_cases hfull : r.sz = r.capacity
  · obtain ⟨n, hn⟩ := Nat.exists_eq_succ_of_ne_zero (Nat.ne_of_gt h)
    have hsz : (r.pushBack h value).sz = n + 1 := by
      rw [sz_pushBack, if_pos hfull, hfull, hn]
    have hplace : ∀ i, ((r.pushBack h value).first + i) % r.capacity =
        (r.first + (i + 1)) % r.capacity := fun i => by
      rw [first_pushBack, if_pos hfull, Nat.mod_add_mod, Nat.add_assoc, Nat.add_comm 1]
    rw [if_pos hfull, toList, hsz, List.range_succ, List.map_append, List.map_singleton]
    congr 1
    · rw [toList, hfull, hn, List.range_succ_eq_map, List.map_cons, List.tail_cons, List.map_map]
      refine List.map_congr_left fun i hi => ?_
      have hi := List.mem_range.1 hi
      rw [← hn]
      refine (congrArg _ (hplace i)).trans (r.data_pushBack h value (by omega) ?_)
      rw [hfull, Nat.mod_self]
      exact Nat.succ_ne_zero i
    · refine congrArg (fun a => [a]) ((congrArg _ (hplace n)).trans ?_)
      rwa [show n + 1 = r.sz from (hfull.trans hn).symm]
  · have hlt : r.sz < r.capacity := Nat.lt_of_le_of_ne r.sz_le hfull
    have hsz : (r.pushBack h value).sz = r.sz + 1 := by
      rw [sz_pushBack, if_neg hfull]
    have hfirst : (r.pushBack h value).first = r.first := by
      rw [first_pushBack, if_neg hfull]
    rw [if_neg hfull, toList, hsz, hfirst, List.range_succ, List.map_append, List.map_singleton]
    congr 1
    · refine List.map_congr_left fun i hi => r.data_pushBack h value ?_ ?_
      · exact (List.mem_range.1 hi).trans hlt
      · rw [Nat.mod_eq_of_lt hlt]
        exact (List.mem_range.1 hi).ne
    · exact congrArg (fun a => [a]) hlast

end SizedRing

/-! ## The last entries -/

section Window

variable {α : Type*} {l w : List α} {a b : α} {n : Nat}

/-- One more entry slides the window on. -/
theorem rtake_concat (hn : 0 < n) : (l ++ [a]).rtake n =
    (if (l.rtake n).length = n then (l.rtake n).tail else l.rtake n) ++ [a] := by
  obtain ⟨n, rfl⟩ := Nat.exists_eq_succ_of_ne_zero (Nat.ne_of_gt hn)
  have hlen : (l.rtake (n + 1)).length = min (n + 1) l.length := by
    rw [List.rtake, List.length_drop]
    omega
  rw [List.rtake_concat_succ, hlen]
  congr 1
  split_ifs with hfull
  · rw [List.rtake, List.rtake, List.tail_drop]
    congr 1
    omega
  · rw [List.rtake, List.rtake, Nat.sub_eq_zero_of_le (by omega : l.length ≤ n),
      Nat.sub_eq_zero_of_le (by omega : l.length ≤ n + 1)]

variable [DecidableEq α]

/-- The map has how often each entry occurs, and nothing for what does not occur. -/
def Counts (m : α → Option Int) (w : List α) : Prop :=
  ∀ a, m a = if a ∈ w then some (w.count a : Int) else none

theorem Counts.nil : Counts (fun _ : α => none) [] := fun _ => rfl

/-- `m[a]++`, where what is missing is 0. -/
def countUp (m : α → Option Int) (a : α) : α → Option Int :=
  Function.update m a (some ((m a).getD 0 + 1))

/-- `m[a]--`, and `m.erase(a)` where that leaves 0. -/
def countDown (m : α → Option Int) (a : α) : α → Option Int :=
  Function.update m a (if (m a).getD 0 - 1 = 0 then none else some ((m a).getD 0 - 1))

variable {m : α → Option Int}

theorem Counts.getD (h : Counts m w) (a : α) : (m a).getD 0 = w.count a := by
  rw [h a]
  split_ifs with hmem
  · rfl
  · rw [List.count_eq_zero_of_not_mem hmem]
    rfl

theorem Counts.up (h : Counts m w) (a : α) : Counts (countUp m a) (w ++ [a]) := by
  intro b
  rw [countUp]
  by_cases hb : b = a
  · rw [hb, Function.update_self, h.getD, if_pos (List.mem_append_right _ List.mem_cons_self),
      List.count_append, List.count_singleton_self]
    rfl
  · rw [Function.update_of_ne hb, h b]
    simp [hb, List.count_append, Ne.symm hb]

theorem Counts.down (h : Counts m (a :: w)) : Counts (countDown m a) w := by
  intro b
  have hcount : (m a).getD 0 - 1 = w.count a := by
    rw [h.getD, List.count_cons_self]
    omega
  rw [countDown]
  by_cases hb : b = a
  · rw [hb, Function.update_self, hcount]
    by_cases hmem : a ∈ w
    · have hpos := List.count_pos_iff.2 hmem
      rw [if_pos hmem, if_neg (by omega)]
    · have hzero := List.count_eq_zero_of_not_mem hmem
      rw [if_neg hmem, if_pos (by omega)]
  · rw [Function.update_of_ne hb, h b, List.count_cons_of_ne (Ne.symm hb)]
    simp [hb]

end Window
