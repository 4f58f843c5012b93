import Mathlib.Data.List.Basic
import Mathlib.Data.List.Range
import Mathlib.Data.Nat.Count

/-!
# Loops over an index range

What a loop over the indices below a bound finds first, how many indices it counts, what its rounds
keep, and what a list holds after one of its entries is replaced.
-/

namespace Index

variable {n : ℕ}

/-- The first index below `n` with `p`, or `n`. -/
def firstBelow (n : ℕ) (p : ℕ → Bool) : ℕ := ((List.range n).find? p).getD n

variable {p : ℕ → Bool}

theorem firstBelow_le : firstBelow n p ≤ n := by
  unfold firstBelow
  cases h : (List.range n).find? p with
  | none => simp
  | some i => simpa using (List.mem_range.1 (List.mem_of_find?_eq_some h)).le

theorem firstBelow_spec (h : firstBelow n p < n) : p (firstBelow n p) := by
  unfold firstBelow at h ⊢
  cases hf : (List.range n).find? p with
  | none => simp [hf] at h
  | some i => simpa using List.find?_some hf

theorem not_of_lt_firstBelow {i : ℕ} (h : i < firstBelow n p) : ¬ p i := by
  unfold firstBelow at h
  cases hf : (List.range n).find? p with
  | none =>
    rw [hf, Option.getD_none] at h
    simpa using List.find?_eq_none.1 hf i (List.mem_range.2 h)
  | some j =>
    rw [hf, Option.getD_some] at h
    simpa using (List.find?_range_eq_some.1 hf).2.2 i h

/-- Indices of two kinds that exclude each other are counted apart. -/
theorem count_or {p q r : ℕ → Prop} [DecidablePred p] [DecidablePred q] [DecidablePred r]
    (h : ∀ i < n, p i ↔ q i ∨ r i) (hd : ∀ i < n, ¬ (q i ∧ r i)) :
    Nat.count p n = Nat.count q n + Nat.count r n := by
  induction n with
  | zero => simp
  | succ n ih =>
    have hn := h n (Nat.lt_succ_self n)
    have hdn := hd n (Nat.lt_succ_self n)
    rw [Nat.count_succ, Nat.count_succ, Nat.count_succ, ih (fun i hi => h i (by omega))
      (fun i hi => hd i (by omega))]
    by_cases hq : q n
    · have hr : ¬ r n := fun hr => hdn ⟨hq, hr⟩
      simp only [hn, hq, hr, or_false, if_true, if_false]
      omega
    · simp only [hn, hq, false_or, if_false]
      omega

theorem count_congr {p q : ℕ → Prop} [DecidablePred p] [DecidablePred q]
    (h : ∀ i < n, p i ↔ q i) : Nat.count p n = Nat.count q n := by
  have := count_or (r := fun _ => False) (fun i hi => by simpa using h i hi) (by simp)
  simpa using this

theorem count_of_below {p : ℕ → Prop} [DecidablePred p] {n' : ℕ} (hn : n ≤ n')
    (h : ∀ i, p i → i < n) : Nat.count p n' = Nat.count p n := by
  obtain ⟨k, rfl⟩ := Nat.exists_eq_add_of_le hn
  have hnone : Nat.count (fun j => p (n + j)) k = 0 := Nat.count_of_forall_not fun j _ hj => by
    have := h _ hj
    omega
  rw [Nat.count_add, hnone, Nat.add_zero]

/-- A window of indices has its length. -/
theorem count_window {a w : ℕ} (h : a + w ≤ n) :
    Nat.count (fun i => a ≤ i ∧ i < a + w) n = w := by
  obtain ⟨b, rfl⟩ := Nat.exists_eq_add_of_le h
  rw [Nat.count_add, Nat.count_add, Nat.count_of_forall_not fun i hi => by omega,
    Nat.count_of_forall fun i hi => by omega, Nat.count_of_forall_not fun i hi => by omega]
  omega

/-- An index that is given up for another one below the bound does not change the count. -/
theorem count_move {p q : ℕ → Prop} [DecidablePred p] [DecidablePred q] {a b : ℕ} (ha : a < n)
    (hb : b < n) (hp : p a) (hnp : ¬ p b) (h : ∀ i, q i ↔ p i ∧ i ≠ a ∨ i = b) :
    Nat.count q n = Nat.count p n := by
  have hone {d : ℕ} (hd : d < n) : Nat.count (· = d) n = 1 := by
    rw [← count_window (n := n) (a := d) (w := 1) (by omega)]
    exact count_congr fun i _ => by omega
  have hq := count_or (n := n) (q := fun i => p i ∧ i ≠ a) (r := (· = b)) (fun i _ => h i)
    fun i _ ⟨hi, hib⟩ => hnp (hib ▸ hi.1)
  have hpa : ∀ i < n, p i ↔ (p i ∧ i ≠ a) ∨ i = a := fun i _ => by
    by_cases hia : i = a <;> simp [hia, hp]
  rw [hq, count_or (r := (· = a)) hpa fun i _ ⟨hi, hia⟩ => hi.2 hia, hone ha, hone hb]

/-- A loop that changes each entry of a table once. -/
theorem foldl_update {ι : Type*} [DecidableEq ι] {β : ι → Type*} (g : ∀ a, β a → β a) :
    ∀ {as : List ι} (f : ∀ a, β a), as.Nodup →
      as.foldl (fun f a => Function.update f a (g a (f a))) f =
        fun a => if a ∈ as then g a (f a) else f a
  | [], f, _ => by simp
  | a :: as, f, h => by
    rw [List.nodup_cons] at h
    rw [List.foldl_cons, foldl_update g _ h.2]
    funext b
    by_cases hb : b = a
    · subst hb
      simp [h.1]
    · simp [hb]

section Loops

variable {β : Type*} {I : ℕ → β → Prop} {b : β}

/-- What every round of a loop over a range keeps holds at its end. -/
theorem foldl_range_invariant {f : β → ℕ → β} (h0 : I 0 b)
    (hstep : ∀ k < n, ∀ x, I k x → I (k + 1) (f x k)) : I n ((List.range n).foldl f b) := by
  induction n with
  | zero => exact h0
  | succ n ih =>
    rw [List.range_succ, List.foldl_append]
    exact hstep n n.lt_succ_self _ (ih fun k hk => hstep k (by omega))

/-- The same of a loop that may stop without a result, but does not. -/
theorem exists_foldlM_range {f : β → ℕ → Option β} (h0 : I 0 b)
    (hstep : ∀ k < n, ∀ x, I k x → ∃ y, f x k = some y ∧ I (k + 1) y) :
    ∃ b', (List.range n).foldlM f b = some b' ∧ I n b' := by
  induction n with
  | zero => exact ⟨b, rfl, h0⟩
  | succ n ih =>
    obtain ⟨x, hx, hI⟩ := ih fun k hk => hstep k (by omega)
    obtain ⟨y, hy, hI'⟩ := hstep n n.lt_succ_self x hI
    refine ⟨y, ?_, hI'⟩
    rw [List.range_succ, List.foldlM_append, hx]
    simpa using hy

end Loops

section Lists

variable {α : Type*} {l : List α} {i j : Nat} {x y z : α}

theorem getElem?_set_iff (hi : l[i]? = some x) :
    (l.set i y)[j]? = some z ↔ j = i ∧ z = y ∨ j ≠ i ∧ l[j]? = some z := by
  have hlt : i < l.length := (List.getElem?_eq_some_iff.1 hi).1
  rw [List.getElem?_set]
  split_ifs with hij
  · simp [hij, eq_comm]
  · simp [Ne.symm hij]

theorem getElem?_concat_iff :
    (l ++ [x])[j]? = some z ↔ j = l.length ∧ z = x ∨ l[j]? = some z := by
  rw [List.getElem?_append]
  split_ifs with hj
  · simp [hj.ne]
  · rw [List.getElem?_singleton, List.getElem?_eq_none (not_lt.1 hj)]
    simp only [Option.ite_none_right_eq_some, Option.some.injEq, reduceCtorEq, or_false]
    exact and_congr (by omega) eq_comm

theorem mem_set_cases (hi : l[i]? = some x) (h : z ∈ l.set i y) :
    z = y ∨ ∃ j, j ≠ i ∧ l[j]? = some z := by
  obtain ⟨j, hj⟩ := List.mem_iff_getElem?.1 h
  rcases (getElem?_set_iff hi).1 hj with ⟨-, rfl⟩ | hj
  · exact .inl rfl
  · exact .inr ⟨j, hj⟩

theorem mem_set_self (hi : l[i]? = some x) : y ∈ l.set i y :=
  List.mem_of_getElem? ((getElem?_set_iff hi).2 (.inl ⟨rfl, rfl⟩))

theorem mem_set_of_ne (hi : l[i]? = some x) (hj : l[j]? = some z) (hne : j ≠ i) : z ∈ l.set i y :=
  List.mem_of_getElem? ((getElem?_set_iff hi).2 (.inr ⟨hne, hj⟩))

theorem set_self (hi : l[i]? = some x) : l.set i x = l := by
  refine List.ext_getElem? fun j => Option.ext fun z => (getElem?_set_iff hi).trans ?_
  by_cases hj : j = i
  · simp [hj, hi, eq_comm]
  · simp [hj]

end Lists

end Index
