import Mathlib.Data.Nat.Bitwise
import Mathlib.Order.Basic

/-!
# Alignment

Numbers rounded up to a multiple, and the mask that does it when the multiple is a power of two.
-/

namespace Align

/-- The least multiple of `a` that is not below `x`. -/
def roundUp (x a : Nat) : Nat := (x + a - 1) / a * a

variable {x a : Nat}

theorem dvd_roundUp : a ∣ roundUp x a := Nat.dvd_mul_left ..

theorem le_roundUp (ha : 0 < a) : x ≤ roundUp x a := by
  have h := Nat.lt_div_mul_add (a := x + a - 1) ha
  unfold roundUp
  omega

theorem roundUp_lt (ha : 0 < a) : roundUp x a < x + a := by
  have h := Nat.div_mul_le_self (x + a - 1) a
  unfold roundUp
  omega

theorem roundUp_of_dvd (ha : 0 < a) (h : a ∣ x) : roundUp x a = x := by
  obtain ⟨k, rfl⟩ := h
  unfold roundUp
  rw [Nat.add_sub_assoc ha, Nat.mul_add_div ha, Nat.div_eq_of_lt (by omega), Nat.add_zero,
    Nat.mul_comm]

theorem roundUp_add_of_dvd (ha : 0 < a) {k : Nat} (h : a ∣ k) :
    roundUp (k + x) a = k + roundUp x a := by
  obtain ⟨k, rfl⟩ := h
  unfold roundUp
  rw [Nat.add_assoc, Nat.add_sub_assoc (by omega), Nat.mul_add_div ha, Nat.add_mul,
    Nat.mul_comm k a]

theorem roundUp_le_mul (ha : 0 < a) {k : Nat} : roundUp x a ≤ k * a ↔ x ≤ k * a := by
  refine ⟨(le_roundUp ha).trans, fun h => ?_⟩
  have hlt := (roundUp_lt (x := x) ha).trans_le (Nat.add_le_add_right h a)
  rw [roundUp, ← Nat.succ_mul] at hlt
  exact Nat.mul_le_mul_right a (Nat.le_of_lt_succ (Nat.lt_of_mul_lt_mul_right hlt))

/-- What is missing to a multiple, and nothing at a multiple. -/
theorem add_sub_mod_mod (ha : 0 < a) : x + (a - x % a) % a = roundUp x a := by
  have hr := Nat.mod_lt x ha
  have hx := Nat.div_add_mod x a
  rcases Nat.eq_zero_or_pos (x % a) with h0 | hpos
  · rw [h0, Nat.sub_zero, Nat.mod_self, Nat.add_zero, roundUp_of_dvd ha (Nat.dvd_of_mod_eq_zero h0)]
  · have hsum : x + (a - x % a) = a * (x / a + 1) := by
      rw [Nat.mul_add]
      omega
    have hlast : x + a - 1 = x % a - 1 + a * (x / a + 1) := by
      rw [← hsum]
      omega
    have hmod : (a - x % a) % a = a - x % a := Nat.mod_eq_of_lt (by omega)
    have hdiv : (x % a - 1) / a = 0 := Nat.div_eq_of_lt (by omega)
    rw [hmod, hsum, roundUp, hlast, Nat.add_mul_div_left _ _ ha, hdiv, Nat.zero_add, Nat.mul_comm]

/-- The mask of the bits from the `k`th on. -/
theorem and_two_pow_sub {y k w : Nat} (hy : y < 2 ^ w) (hk : k ≤ w) :
    y &&& (2 ^ w - 2 ^ k) = y / 2 ^ k * 2 ^ k := by
  have hpow : 2 ^ k ≤ 2 ^ w := Nat.pow_le_pow_right (by omega) hk
  have hpos : 0 < 2 ^ k := Nat.two_pow_pos k
  have hmask : 2 ^ w - 2 ^ k = 2 ^ w - (2 ^ k - 1 + 1) := by omega
  refine Nat.eq_of_testBit_eq fun i => ?_
  rw [Nat.testBit_and, hmask, Nat.testBit_two_pow_sub_succ (by omega), Nat.testBit_two_pow_sub_one,
    Nat.testBit_mul_two_pow, Nat.testBit_div_two_pow]
  by_cases hi : k ≤ i
  · by_cases hw : i < w
    · simp [hi, hw]
    · have hbit : y.testBit i = false :=
        Nat.testBit_lt_two_pow (hy.trans_le (Nat.pow_le_pow_right (by omega) (not_lt.1 hw)))
      simp [hi, hbit]
  · simp [hi]
    omega

end Align
