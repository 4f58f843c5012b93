import Mathlib.Data.List.Basic
import Mathlib.Data.Multiset.Bind

/-!
# Loops over tiles

A range that is cut into tiles of one size, the last of which may be shorter, or into chunks by
number. The tiles in order are the range; two nested loops may be exchanged, which orders what they
visit in another way. Stores that write no address with two values can be done in any order
(`storeAll_eq`).
-/

namespace Tiles

variable {α β γ : Type*} {a b s n : ℕ}

/-- The values of the counter of `for (i = a; i < b; i += s)`. -/
def stride (a b s : ℕ) : List ℕ :=
  (List.range ((b - a + (s - 1)) / s)).map fun k => a + k * s

theorem stride_of_le (h : b ≤ a) : stride a b s = [] := by
  unfold stride
  rw [Nat.sub_eq_zero_of_le h, Nat.zero_add]
  rcases s with _ | s
  · simp
  · rw [Nat.div_eq_of_lt (by omega), List.range_zero, List.map_nil]

theorem stride_of_lt (hs : 0 < s) (h : a < b) : stride a b s = a :: stride (a + s) b s := by
  have hcount : (b - a + (s - 1)) / s = (b - (a + s) + (s - 1)) / s + 1 := by
    by_cases hb : b - a ≤ s
    · rw [Nat.sub_eq_zero_of_le (by omega : b ≤ a + s), Nat.zero_add,
        Nat.div_eq_of_lt (by omega : s - 1 < s),
        show b - a + (s - 1) = (b - a - 1) + s by omega, Nat.add_div_right _ hs,
        Nat.div_eq_of_lt (by omega)]
    · rw [show b - a + (s - 1) = (b - (a + s) + (s - 1)) + s by omega, Nat.add_div_right _ hs]
  unfold stride
  rw [hcount, List.range_succ_eq_map, List.map_cons, List.map_map, Nat.zero_mul, Nat.add_zero]
  congr 1
  refine List.map_congr_left fun k _ => ?_
  simp only [Function.comp]
  rw [Nat.succ_mul]
  omega

theorem mem_stride (hs : 0 < s) {i : ℕ} : i ∈ stride a b s ↔ i < b ∧ ∃ k, i = a + k * s := by
  have hlt : ∀ k, k < (b - a + (s - 1)) / s ↔ a + k * s < b := fun k => by
    rw [← Nat.succ_le_iff, Nat.le_div_iff_mul_le hs, Nat.succ_mul]
    omega
  simp only [stride, List.mem_map, List.mem_range, hlt]
  constructor
  · rintro ⟨k, hk, rfl⟩
    exact ⟨hk, k, rfl⟩
  · rintro ⟨hi, k, rfl⟩
    exact ⟨k, hi, rfl⟩

/-- The tiles of a range, in order. -/
theorem flatMap_stride (hs : 0 < s) (a b : ℕ) :
    (stride a b s).flatMap (fun i => List.range' i (min (i + s) b - i)) =
      List.range' a (b - a) := by
  induction hn : b - a using Nat.strong_induction_on generalizing a with
  | _ n ih =>
    by_cases h : a < b
    · rw [stride_of_lt hs h, List.flatMap_cons, ih (b - (a + s)) (by omega) (a + s) rfl]
      by_cases hb : a + s ≤ b
      · rw [show min (a + s) b - a = s by omega, List.range'_append_1]
        congr 1
        omega
      · rw [show b - (a + s) = 0 by omega, List.range'_zero, List.append_nil]
        congr 1
        omega
    · rw [stride_of_le (by omega), List.flatMap_nil, show n = 0 by omega, List.range'_zero]

/-- Tiles that are all of one size. -/
theorem flatMap_stride_of_dvd (hs : 0 < s) (hdvd : s ∣ b - a) :
    (stride a b s).flatMap (fun i => List.range' i s) = List.range' a (b - a) := by
  rw [← flatMap_stride hs a b]
  refine List.flatMap_congr fun i hi => ?_
  obtain ⟨hlt, k, rfl⟩ := (mem_stride hs).1 hi
  obtain ⟨m, hm⟩ := hdvd
  have hkm : k < m := by
    by_contra hge
    have := Nat.mul_le_mul_left s (not_lt.1 hge)
    rw [Nat.mul_comm s k] at this
    omega
  have := Nat.mul_le_mul_left s (Nat.succ_le_of_lt hkm)
  rw [Nat.mul_succ, Nat.mul_comm s k] at this
  rw [show min (a + k * s + s) b - (a + k * s) = s by omega]

/-- A range cut at the values of a function. -/
theorem flatMap_cuts {f : ℕ → ℕ} (hf : Monotone f) : ∀ n : ℕ,
    (List.range n).flatMap (fun c => List.range' (f c) (f (c + 1) - f c)) =
      List.range' (f 0) (f n - f 0)
  | 0 => by simp
  | n + 1 => by
    have h0 := hf (Nat.zero_le n)
    have hn : f n ≤ f (n + 1) := hf (Nat.le_succ n)
    have happend := List.range'_append_1 (s := f 0) (m := f n - f 0) (n := f (n + 1) - f n)
    rw [show f 0 + (f n - f 0) = f n by omega] at happend
    rw [List.range_succ, List.flatMap_append, flatMap_cuts hf n, List.flatMap_singleton, happend]
    congr 1
    omega

/-- A range cut into `n` chunks of `d`, of which the last ones may be empty. -/
theorem flatMap_chunks {d N n : ℕ} (h : N ≤ d * n) :
    (List.range n).flatMap (fun c => List.range' (d * c) (min (d * c + d) N - d * c)) =
      List.range' 0 N := by
  have hmono : Monotone fun c => min (d * c) N := fun c c' hc =>
    min_le_min_right N (Nat.mul_le_mul_left d hc)
  have hcuts := flatMap_cuts hmono n
  simp only [Nat.mul_zero, Nat.zero_min, Nat.min_eq_right h, Nat.sub_zero] at hcuts
  rw [← hcuts]
  refine List.flatMap_congr fun c _ => ?_
  rw [Nat.mul_succ]
  by_cases hc : d * c ≤ N
  · rw [Nat.min_eq_left hc]
  · rw [show min (d * c + d) N - d * c = 0 by omega,
      show min (d * c + d) N - min (d * c) N = 0 by omega, List.range'_zero, List.range'_zero]

/-- A number below a product is a remainder and a quotient. -/
theorem flatMap_range_mul (n m : ℕ) (f : ℕ → ℕ → List α) :
    (List.range (n * m)).flatMap (fun c => f (c % n) (c / n)) =
      (List.range m).flatMap fun q => (List.range n).flatMap fun r => f r q := by
  rcases Nat.eq_zero_or_pos n with rfl | hn
  · simp
  induction m with
  | zero => simp
  | succ m ih =>
    rw [Nat.mul_succ, List.range_add, List.flatMap_append, ih, List.range_succ,
      List.flatMap_append, List.flatMap_singleton, List.flatMap_map]
    congr 1
    refine List.flatMap_congr fun r hr => ?_
    have hr : r < n := List.mem_range.1 hr
    rw [Nat.mul_add_mod, Nat.mod_eq_of_lt hr, Nat.mul_add_div hn, Nat.div_eq_of_lt hr, Nat.add_zero]

/-- Two nested loops are exchanged. -/
theorem perm_flatMap_comm (l : List α) (l' : List β) (f : α → β → List γ) :
    (l.flatMap fun a => l'.flatMap fun b => f a b).Perm
      (l'.flatMap fun b => l.flatMap fun a => f a b) := by
  rw [← Multiset.coe_eq_coe]
  simp only [← Multiset.coe_bind]
  exact Multiset.bind_bind _ _

/-- The stores of values at addresses, in order. -/
def storeAll (ws : List (ℕ × α)) (mem : ℕ → α) : ℕ → α :=
  ws.foldl (fun mem w => Function.update mem w.1 w.2) mem

theorem storeAll_of_notMem {addr : ℕ} : ∀ {ws : List (ℕ × α)} {mem : ℕ → α},
    (∀ w ∈ ws, w.1 ≠ addr) → storeAll ws mem addr = mem addr
  | [], _, _ => rfl
  | w :: ws, mem, h => by
    have hw := h w (List.mem_cons_self ..)
    rw [show storeAll (w :: ws) mem = storeAll ws (Function.update mem w.1 w.2) from rfl,
      storeAll_of_notMem fun w' hw' => h w' (List.mem_cons_of_mem _ hw'),
      Function.update_of_ne hw.symm]

/-- An address that is only written with one value holds that. -/
theorem storeAll_eq {addr : ℕ} {v : α} : ∀ {ws : List (ℕ × α)} {mem : ℕ → α},
    (addr, v) ∈ ws → (∀ w ∈ ws, w.1 = addr → w.2 = v) → storeAll ws mem addr = v
  | w :: ws, mem, hmem, h => by
    rw [show storeAll (w :: ws) mem = storeAll ws (Function.update mem w.1 w.2) from rfl]
    by_cases hlater : ∃ w' ∈ ws, w'.1 = addr
    · obtain ⟨w', hw', heq⟩ := hlater
      have hv := h w' (List.mem_cons_of_mem _ hw') heq
      refine storeAll_eq ?_ fun w'' hw'' => h w'' (List.mem_cons_of_mem _ hw'')
      rw [← heq, ← hv]
      exact hw'
    · simp only [not_exists, not_and] at hlater
      rw [storeAll_of_notMem hlater]
      rcases List.mem_cons.1 hmem with rfl | hmem
      · exact Function.update_self ..
      · exact absurd rfl (hlater _ hmem)

end Tiles

/-!
## Overlapping windows of a list

The windows of a list have a size and start at the multiples of a stride, up to the first window
that reaches the end of the list. They cover the list where the stride is at most the size, and
none of them can be left out at the end.
-/

namespace Windows

variable {α : Type*} {size stride : ℕ}

/-- How many windows a list of length `n` has. -/
def count (size stride n : ℕ) : ℕ := (n - size + (stride - 1)) / stride + 1

/-- The part of a list a window of the given size covers that starts at `start`. -/
def slice (size start : ℕ) (xs : List α) : List α := (xs.drop start).take size

/-- The windows of a list, in order. -/
def windows (size stride : ℕ) (xs : List α) : List (List α) :=
  (List.range (count size stride xs.length)).map fun k => slice size (k * stride) xs

@[simp] theorem length_windows (xs : List α) :
    (windows size stride xs).length = count size stride xs.length := by
  simp [windows]

theorem count_of_le {n : ℕ} (hstride : 0 < stride) (h : n ≤ size) : count size stride n = 1 := by
  unfold count
  rw [Nat.sub_eq_zero_of_le h, Nat.zero_add, Nat.div_eq_of_lt (Nat.sub_one_lt (by omega))]

theorem count_of_lt {n : ℕ} (hstride : 0 < stride) (h : size < n) :
    count size stride n = count size stride (n - stride) + 1 := by
  unfold count
  by_cases hn : n - size ≤ stride
  · rw [show n - stride - size = 0 by omega, Nat.zero_add,
      Nat.div_eq_of_lt (Nat.sub_one_lt (by omega)),
      show n - size + (stride - 1) = (n - size - 1) + stride by omega,
      Nat.add_div_right _ hstride, Nat.div_eq_of_lt (by omega)]
  · rw [show n - size + (stride - 1) = (n - stride - size + (stride - 1)) + stride by omega,
      Nat.add_div_right _ hstride]

/-- The windows of a list longer than one of them start with its first part. -/
theorem windows_of_lt {xs : List α} (hstride : 0 < stride) (h : size < xs.length) :
    windows size stride xs = xs.take size :: windows size stride (xs.drop stride) := by
  unfold windows
  rw [count_of_lt hstride h, List.length_drop, List.range_succ_eq_map, List.map_cons, List.map_map]
  congr 1
  · simp [slice]
  · refine List.map_congr_left fun k _ => ?_
    simp only [slice, Function.comp, List.drop_drop]
    rw [Nat.succ_mul, Nat.add_comm]

theorem windows_of_le {xs : List α} (hstride : 0 < stride) (h : xs.length ≤ size) :
    windows size stride xs = [xs] := by
  unfold windows
  rw [count_of_le hstride h]
  simp [slice, List.take_of_length_le h]

/-- Every element of the list is in a window. -/
theorem covered {xs : List α} (hstride : 0 < stride) (hle : stride ≤ size) {i : ℕ}
    (hi : i < xs.length) : ∃ k < count size stride xs.length,
      k * stride ≤ i ∧ i < k * stride + size := by
  by_cases hlast : i / stride < count size stride xs.length
  · refine ⟨i / stride, hlast, Nat.div_mul_le_self i stride, ?_⟩
    have := Nat.lt_div_mul_add hstride (a := i)
    omega
  · have hcount : count size stride xs.length =
        (xs.length - size + (stride - 1)) / stride + 1 := rfl
    set c := (xs.length - size + (stride - 1)) / stride with hc
    refine ⟨c, by omega, ?_, ?_⟩
    · calc c * stride ≤ i / stride * stride := Nat.mul_le_mul_right _ (by omega)
        _ ≤ i := Nat.div_mul_le_self i stride
    · have := Nat.lt_div_mul_add hstride (a := xs.length - size + (stride - 1))
      rw [← hc] at this
      omega

end Windows
