import Mathlib.Logic.Equiv.Basic
import Mathlib.Algebra.Group.End
import Mathlib.Data.List.Nodup
import Mathlib.Data.List.Perm.Subperm

/-!
# Selection sort

A selection sort that swaps the entries of several arrays at once, by the keys in one of them. Every
array ends up permuted in the same way.
-/

namespace SelectionSort

variable {σ : Type*}

/-- The inner loop: the index of the least key among `m` and the `r` indices from `j` on. -/
def minIndex (key : ℕ → ℕ) : ℕ → ℕ → ℕ → ℕ
  | 0, _, m => m
  | r + 1, j, m => minIndex key r (j + 1) (if key j < key m then j else m)

/-- The outer loop over the indices from `i` on; the first argument counts the rounds. -/
def sort (key : σ → ℕ → ℕ) (swap : ℕ → ℕ → σ → σ) (n : ℕ) : ℕ → ℕ → σ → σ
  | 0, _, s => s
  | r + 1, i, s =>
    let m := minIndex (key s) (n - (i + 1)) (i + 1) i
    sort key swap n r (i + 1) (if m = i then s else swap i m s)

def swapAt {β : Type*} (i j : ℕ) (f : ℕ → β) : ℕ → β := fun p => f (Equiv.swap i j p)

theorem minIndex_spec (key : ℕ → ℕ) {i : ℕ} : ∀ {r j m : ℕ}, i ≤ m → m < j →
    (∀ k, i ≤ k → k < j → key m ≤ key k) →
      i ≤ minIndex key r j m ∧ minIndex key r j m < j + r ∧
        ∀ k, i ≤ k → k < j + r → key (minIndex key r j m) ≤ key k
  | 0, j, m, hi, hj, hmin => ⟨hi, hj, hmin⟩
  | r + 1, j, m, hi, hj, hmin => by
    have hnext : ∀ k, i ≤ k → k < j + 1 → key (if key j < key m then j else m) ≤ key k := by
      intro k hik hkj
      rcases Nat.lt_succ_iff_lt_or_eq.1 hkj with hk | rfl
      · split_ifs with hlt
        · exact hlt.le.trans (hmin k hik hk)
        · exact hmin k hik hk
      · split_ifs with hlt
        · exact le_rfl
        · exact not_lt.1 hlt
    obtain ⟨hlo, hhi, hle⟩ := minIndex_spec key (r := r) (j := j + 1)
      (m := if key j < key m then j else m) (by split_ifs <;> omega) (by split_ifs <;> omega) hnext
    rw [minIndex]
    exact ⟨hlo, by omega, fun k hik hk => hle k hik (by omega)⟩

/-- `τ` moves indices below `n` only. -/
def Below (n : ℕ) (τ : Equiv.Perm ℕ) : Prop := ∀ p, n ≤ p → τ p = p

theorem Below.lt {n p : ℕ} {τ : Equiv.Perm ℕ} (h : Below n τ) (hp : p < n) : τ p < n := by
  by_contra hge
  have hfix := τ.injective (h (τ p) (not_lt.1 hge))
  omega

theorem Below.mul_swap {n i j : ℕ} {τ : Equiv.Perm ℕ} (h : Below n τ) (hi : i < n) (hj : j < n) :
    Below n (τ * Equiv.swap i j) := by
  intro p hp
  rw [Equiv.Perm.mul_apply, Equiv.swap_apply_of_ne_of_ne (by omega) (by omega), h p hp]

theorem Below.map_range {n : ℕ} {τ : Equiv.Perm ℕ} (h : Below n τ) :
    ((List.range n).map τ).Perm (List.range n) := by
  have hnodup : ((List.range n).map τ).Nodup :=
    List.Nodup.map τ.injective List.nodup_range
  refine (hnodup.subperm fun p hp => ?_).perm_of_length_le (by simp)
  obtain ⟨q, hq, rfl⟩ := List.mem_map.1 hp
  exact List.mem_range.2 (h.lt (List.mem_range.1 hq))

/-- The first `i` keys are in order, and none of the others is less. -/
def SortedTo (key : ℕ → ℕ) (n i : ℕ) : Prop :=
  ∀ a b, a < b → a < i → b < n → key a ≤ key b

/-- One permutation of the indices sorts the keys and moves all the rest. -/
theorem sort_spec (key : σ → ℕ → ℕ) (swap : ℕ → ℕ → σ → σ) (Acts : Equiv.Perm ℕ → σ → Prop)
    {key₀ : ℕ → ℕ} {n : ℕ} (hkey : ∀ τ s, Acts τ s → key s = key₀ ∘ τ)
    (hswap : ∀ τ s i j, i < n → j < n → Acts τ s → Acts (τ * Equiv.swap i j) (swap i j s)) :
    ∀ {r i : ℕ} {s : σ} {τ : Equiv.Perm ℕ}, i + r + 1 = n → Below n τ → Acts τ s →
      SortedTo (key s) n i →
      ∃ τ', Below n τ' ∧ Acts τ' (sort key swap n r i s) ∧
        SortedTo (key (sort key swap n r i s)) n n
  | 0, i, s, τ, hi, hτ, hs, hsorted =>
    ⟨τ, hτ, hs, fun a b hab _ hb => hsorted a b hab (by omega) hb⟩
  | r + 1, i, s, τ, hi, hτ, hs, hsorted => by
    obtain ⟨hlo, hhi, hmin⟩ := minIndex_spec (key s) (i := i) (r := n - (i + 1)) (j := i + 1)
      (m := i) le_rfl (by omega) fun k hik hk => by rw [show k = i by omega]
    generalize hm : minIndex (key s) (n - (i + 1)) (i + 1) i = m at hlo hhi hmin
    rw [sort]
    simp only [hm]
    split_ifs with h0
    · refine sort_spec key swap Acts hkey hswap (by omega) hτ hs fun a b hab ha hb => ?_
      rcases Nat.lt_succ_iff_lt_or_eq.1 ha with ha | rfl
      · exact hsorted a b hab ha hb
      · rw [h0] at hmin
        exact hmin b hab.le (by omega)
    · have hact := hswap τ s i m (by omega) (by omega) hs
      refine sort_spec key swap Acts hkey hswap (by omega) (hτ.mul_swap (by omega) (by omega)) hact ?_
      have hk : key (swap i m s) = key s ∘ Equiv.swap i m := by
        rw [hkey _ _ hact, hkey _ _ hs]
        rfl
      rw [hk]
      intro a b hab ha hb
      simp only [Function.comp_apply]
      rcases Nat.lt_succ_iff_lt_or_eq.1 ha with ha | rfl
      · rw [Equiv.swap_apply_of_ne_of_ne (by omega) (by omega)]
        by_cases hbi : b = i
        · rw [hbi, Equiv.swap_apply_left]
          exact hsorted a m (by omega) ha (by omega)
        · by_cases hbm : b = m
          · rw [hbm, Equiv.swap_apply_right]
            exact hsorted a i (by omega) ha (by omega)
          · rw [Equiv.swap_apply_of_ne_of_ne hbi hbm]
            exact hsorted a b hab ha hb
      · rw [Equiv.swap_apply_left]
        by_cases hbm : b = m
        · rw [hbm, Equiv.swap_apply_right]
          exact hmin a le_rfl (by omega)
        · rw [Equiv.swap_apply_of_ne_of_ne (by omega) hbm]
          exact hmin b hab.le (by omega)

end SelectionSort
