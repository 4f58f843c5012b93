import Mathlib.Algebra.Order.Ring.Nat
import Mathlib.Data.Nat.Digits.Lemmas
import Mathlib.Tactic.Linarith
import Mathlib.Tactic.Ring

/-!
# Decimal numerals

Digits from the highest one on, and the number that they stand for. Numerals of one length compare
digit by digit; without superfluous zeros in front a longer numeral is the greater one, and every
number has exactly one numeral.
-/

namespace Decimal

abbrev Digit := Fin 10

scoped instance neZero_ten : NeZero 10 := ⟨by decide⟩

def value : List Digit → ℕ
  | [] => 0
  | d :: ds => d * 10 ^ ds.length + value ds

/-- The numeral of a number. -/
def ofNat (n : ℕ) : List Digit :=
  if n = 0 then [0] else (Nat.digits 10 n).reverse.map (Fin.ofNat 10)

def zeros (n : ℕ) : List Digit := List.replicate n 0

def nines (n : ℕ) : List Digit := List.replicate n 9

/-- There is no superfluous zero in front. -/
def Canonical (ds : List Digit) : Prop := ds ≠ [] ∧ (ds.head? = some 0 → ds.length = 1)

variable {a b d : Digit} {s t ds : List Digit}

@[simp] theorem value_nil : value [] = 0 := rfl

theorem value_cons (d : Digit) (ds : List Digit) :
    value (d :: ds) = d * 10 ^ ds.length + value ds := rfl

@[simp] theorem length_zeros (n : ℕ) : (zeros n).length = n := List.length_replicate

@[simp] theorem length_nines (n : ℕ) : (nines n).length = n := List.length_replicate

theorem value_lt : ∀ ds : List Digit, value ds < 10 ^ ds.length
  | [] => Nat.one_pos
  | d :: ds => by
    have ih := value_lt ds
    have hd : (d : ℕ) + 1 ≤ 10 := d.isLt
    calc (d : ℕ) * 10 ^ ds.length + value ds < ((d : ℕ) + 1) * 10 ^ ds.length := by
          rw [Nat.add_mul, Nat.one_mul]
          exact Nat.add_lt_add_left ih _
      _ ≤ 10 * 10 ^ ds.length := Nat.mul_le_mul_right _ hd
      _ = 10 ^ (ds.length + 1) := by rw [Nat.pow_succ, Nat.mul_comm]

@[simp] theorem value_zeros : ∀ n, value (zeros n) = 0
  | 0 => rfl
  | n + 1 => by
    have ih := value_zeros n
    simp only [zeros, List.replicate_succ, value_cons] at ih ⊢
    simpa using ih

theorem value_nines : ∀ n, value (nines n) + 1 = 10 ^ n
  | 0 => rfl
  | n + 1 => by
    have ih := value_nines n
    simp only [nines, List.replicate_succ, value_cons, List.length_replicate] at ih ⊢
    rw [Nat.add_assoc, ih, Nat.pow_succ]
    change 9 * 10 ^ n + 10 ^ n = 10 ^ n * 10
    ring

/-- Numerals of one length compare by the first digit, and then by the rest. -/
theorem value_cons_le (h : s.length = t.length) :
    value (a :: s) ≤ value (b :: t) ↔ a < b ∨ a = b ∧ value s ≤ value t := by
  have hs := value_lt s
  have ht := value_lt t
  rw [value_cons, value_cons, h]
  rw [h] at hs
  rcases lt_trichotomy a b with hlt | rfl | hgt
  · have hle : ((a : ℕ) + 1) * 10 ^ t.length ≤ b * 10 ^ t.length :=
      Nat.mul_le_mul_right _ (Fin.lt_def.1 hlt)
    rw [Nat.add_mul, Nat.one_mul] at hle
    exact iff_of_true (by omega) (.inl hlt)
  · simp
  · have hle : ((b : ℕ) + 1) * 10 ^ t.length ≤ a * 10 ^ t.length :=
      Nat.mul_le_mul_right _ (Fin.lt_def.1 hgt)
    rw [Nat.add_mul, Nat.one_mul] at hle
    refine iff_of_false (by omega) ?_
    rintro (hlt | ⟨rfl, -⟩)
    · exact absurd hlt (lt_asymm hgt)
    · exact lt_irrefl _ hgt

theorem value_append : ∀ s t : List Digit, value (s ++ t) = value s * 10 ^ t.length + value t
  | [], t => by simp
  | d :: s, t => by
    rw [List.cons_append, value_cons, value_append s t, value_cons, List.length_append]
    ring

theorem value_le_nines (ds : List Digit) : value ds ≤ value (nines ds.length) := by
  have h := value_lt ds
  have h' := value_nines ds.length
  omega

/-! ## Numerals without superfluous zeros -/

theorem canonical_cons : Canonical (d :: ds) ↔ d ≠ 0 ∨ ds = [] := by
  simp only [Canonical, ne_eq, List.cons_ne_nil, not_false_eq_true, true_and, List.head?_cons,
    Option.some.injEq, List.length_cons, Nat.add_eq_right, List.length_eq_zero_iff]
  exact imp_iff_not_or

theorem pow_le_value (hd : d ≠ 0) (ds : List Digit) : 10 ^ ds.length ≤ value (d :: ds) := by
  have hpos : 1 ≤ (d : ℕ) := Nat.one_le_iff_ne_zero.2 (Fin.val_ne_zero_iff.2 hd)
  have hle := Nat.mul_le_mul_right (10 ^ ds.length) hpos
  rw [value_cons]
  omega

/-- A longer numeral is greater. -/
theorem value_lt_of_length (hs : s ≠ []) (ht : Canonical t) (h : s.length < t.length) :
    value s < value t := by
  rcases t with _ | ⟨d, t⟩
  · exact absurd rfl ht.1
  rw [List.length_cons] at h
  have hd : d ≠ 0 := by
    refine (canonical_cons.1 ht).resolve_right ?_
    rintro rfl
    exact hs (List.length_eq_zero_iff.1 (by simpa using h))
  exact (value_lt s).trans_le
    ((Nat.pow_le_pow_right (by decide) (Nat.lt_succ_iff.1 h)).trans (pow_le_value hd t))

theorem value_eq_ofDigits : ∀ ds : List Digit,
    value ds = Nat.ofDigits 10 (ds.map Fin.val).reverse
  | [] => rfl
  | d :: ds => by
    rw [value_cons, value_eq_ofDigits ds, List.map_cons, List.reverse_cons, Nat.ofDigits_append,
      Nat.ofDigits_singleton, List.length_reverse, List.length_map]
    ring

theorem value_ofNat (n : ℕ) : value (ofNat n) = n := by
  unfold ofNat
  split_ifs with h
  · rw [h]
    rfl
  · have hmap : (Nat.digits 10 n).map (fun d => (Fin.ofNat 10 d).val) = Nat.digits 10 n := by
      conv_rhs => rw [← List.map_id (Nat.digits 10 n)]
      exact List.map_congr_left fun d hd => Nat.mod_eq_of_lt (Nat.digits_lt_base (by decide) hd)
    rw [value_eq_ofDigits, List.map_map, ← List.map_reverse, List.reverse_reverse]
    change Nat.ofDigits 10 ((Nat.digits 10 n).map fun d => (Fin.ofNat 10 d).val) = n
    rw [hmap, Nat.ofDigits_digits]

theorem canonical_ofNat (n : ℕ) : Canonical (ofNat n) := by
  unfold ofNat
  split_ifs with h
  · exact canonical_cons.2 (.inr rfl)
  · have hne : Nat.digits 10 n ≠ [] := Nat.digits_ne_nil_iff_ne_zero.2 h
    have hlast := Nat.getLast_digit_ne_zero 10 h
    have hlt : (Nat.digits 10 n).getLast hne < 10 :=
      Nat.digits_lt_base (by decide) (List.getLast_mem hne)
    rw [← List.dropLast_append_getLast hne, List.reverse_append, List.reverse_singleton,
      List.singleton_append, List.map_cons]
    refine canonical_cons.2 (.inl fun hzero => hlast ?_)
    have hval := congrArg Fin.val hzero
    rwa [Fin.val_ofNat, Nat.mod_eq_of_lt hlt] at hval

/-- A number has one numeral. -/
theorem Canonical.eq_of_value (hs : Canonical s) (ht : Canonical t) (h : value s = value t) :
    s = t := by
  have hlen : s.length = t.length := by
    rcases Nat.lt_trichotomy s.length t.length with hlt | heq | hgt
    · exact absurd h (value_lt_of_length hs.1 ht hlt).ne
    · exact heq
    · exact absurd h (value_lt_of_length ht.1 hs hgt).ne'
  clear hs ht
  induction s generalizing t with
  | nil => exact (List.length_eq_zero_iff.1 hlen.symm).symm
  | cons a s ih =>
    rcases t with _ | ⟨b, t⟩
    · cases hlen
    have hlen' : s.length = t.length := by simpa using hlen
    rcases (value_cons_le hlen').1 h.le with hlt | ⟨rfl, hle⟩
    · rcases (value_cons_le hlen'.symm).1 h.ge with hgt | ⟨rfl, -⟩
      · exact absurd hlt (lt_asymm hgt)
      · exact absurd hlt (lt_irrefl _)
    · rcases (value_cons_le hlen'.symm).1 h.ge with hlt | ⟨-, hge⟩
      · exact absurd hlt (lt_irrefl _)
      · rw [ih (le_antisymm hle hge) hlen']

theorem Canonical.length_le (hs : Canonical s) (ht : t ≠ []) (h : value s ≤ value t) :
    s.length ≤ t.length :=
  not_lt.1 fun hlt => absurd h (not_le.2 (value_lt_of_length ht hs hlt))

theorem Canonical.length_le_of_lt {k : ℕ} (hs : Canonical s) (hk : k ≠ 0)
    (h : value s < 10 ^ k) : s.length ≤ k := by
  have hle : value s ≤ value (nines k) := by
    have := value_nines k
    omega
  simpa using hs.length_le (t := nines k) (by simpa [nines] using hk) hle

theorem ofNat_value (hs : Canonical s) : ofNat (value s) = s :=
  (canonical_ofNat _).eq_of_value hs (value_ofNat _)

/-- A positive number starts with another digit than zero. -/
theorem exists_value_cons {n : ℕ} (hn : n ≠ 0) :
    ∃ d ds, d ≠ 0 ∧ n = value (d :: ds) ∧ ofNat n = d :: ds := by
  have hcanon := canonical_ofNat n
  have hvalue := value_ofNat n
  rcases h : ofNat n with _ | ⟨d, ds⟩
  · exact absurd h hcanon.1
  rw [h] at hcanon hvalue
  refine ⟨d, ds, ?_, hvalue.symm, rfl⟩
  rintro rfl
  obtain rfl := (canonical_cons.1 hcanon).resolve_left fun h => h rfl
  exact hn hvalue.symm

end Decimal
