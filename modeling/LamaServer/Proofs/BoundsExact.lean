import LamaServer.Proofs.IntegerBounds

/-!
# Exact bounds

When the expression for bounds matches the numerals whose values lie within them, and nothing else.
-/

namespace LamaServer

open scoped Decimal
open Decimal (Digit Canonical)
open BoundsItem

/-! ## What the bounds ask for -/

def signedWord (negative : Bool) (ds : List Digit) : List UInt32 :=
  (if negative then ['-'.val] else []) ++ ds.map digitVal

def signedValue (negative : Bool) (ds : List Digit) : Int :=
  if negative then -(Decimal.value ds : Int) else Decimal.value ds

/-- The bounds are of type `int`, there is one, and they are in order. -/
structure BoundsGiven (minimum maximum : Option Int) : Prop where
  min_int : ∀ a ∈ minimum, intMin ≤ a ∧ a ≤ intMax
  max_int : ∀ b ∈ maximum, intMin ≤ b ∧ b ≤ intMax
  given : minimum ≠ none ∨ maximum ≠ none
  le : ∀ a ∈ minimum, ∀ b ∈ maximum, a ≤ b

/-- A numeral without superfluous zeros whose value lies within the bounds. With `negZero` a zero
may have a minus sign. -/
structure IsBounded (negZero : Bool) (minimum maximum : Option Int) (negative : Bool)
    (ds : List Digit) : Prop where
  canonical : Canonical ds
  zero : negative = true → Decimal.value ds = 0 → negZero = true
  ge : ∀ a ∈ minimum, a ≤ signedValue negative ds
  le : ∀ b ∈ maximum, signedValue negative ds ≤ b
  length : minimum = none ∨ maximum = none → ds.length ≤ 16

/-- The text is read as an expression that matches the numerals within the bounds and nothing
else. -/
def BoundsExact (negZero : Bool) (minimum maximum : Option Int) : Prop :=
  ∃ text e, boundsText minimum maximum = .ok text ∧
    Gbnf.readAlternates (2 * text.length + 4) text false = some (e, []) ∧
      ∀ w, (Gbnf.grammar []).Matches e w ↔
        ∃ negative ds, signedWord negative ds = w ∧ IsBounded negZero minimum maximum negative ds

section Exact

variable {negZero negative : Bool} {minimum maximum : Option Int} {L : Language UInt32}
  {ds : List Digit}

theorem boundsExact_iff (h : Builds 16 (minimum.getD intMin) (maximum.getD intMax) 16 true L) :
    BoundsExact negZero minimum maximum ↔ L =
      {w | ∃ negative ds, signedWord negative ds = w ∧
        IsBounded negZero minimum maximum negative ds} := by
  obtain ⟨out, hout, hne, hfull, rfl⟩ := h
  have htext : boundsText minimum maximum = .ok (alternativesText out) := by
    rw [boundsText, hout]
    rfl
  constructor
  · rintro ⟨text, e, htext', hread, hmatch⟩
    obtain rfl := Except.ok.inj (htext.symm.trans htext')
    rw [readAlternates_text hne hfull] at hread
    obtain ⟨rfl, -⟩ := Prod.mk.inj (Option.some.inj hread)
    rw [← language_alternativesExpr hne]
    ext w
    exact hmatch w
  · intro h
    refine ⟨_, _, htext, readAlternates_text hne hfull, fun w => ?_⟩
    rw [← Ebnf.mem_language, language_alternativesExpr hne, h]
    rfl

theorem not_boundsExact_of_error {e : BoundsError}
    (h : buildMinMaxInt 16 (minimum.getD intMin) (maximum.getD intMax) 16 true = .error e) :
    ¬ BoundsExact negZero minimum maximum := by
  rintro ⟨text, _, htext, -⟩
  rw [boundsText, h] at htext
  cases htext

/-- Words with and without a minus sign. -/
def signedWords (Ln Lp : Language Digit) : Language UInt32 :=
  negated (digitWords Ln) + digitWords Lp

/-- The numerals that are asked for, with or without a minus sign. -/
def bounded (negZero : Bool) (minimum maximum : Option Int) (negative : Bool) : Language Digit :=
  {ds | IsBounded negZero minimum maximum negative ds}

theorem mem_signedWords {Ln Lp : Language Digit} {w : List UInt32} : w ∈ signedWords Ln Lp ↔
    ∃ negative ds, signedWord negative ds = w ∧ ds ∈ if negative then Ln else Lp := by
  constructor
  · rintro (⟨_, rfl, _, ⟨ds, hds, rfl⟩, rfl⟩ | ⟨ds, hds, rfl⟩)
    · exact ⟨true, ds, rfl, hds⟩
    · exact ⟨false, ds, rfl, hds⟩
  · rintro ⟨_ | _, ds, rfl, hds⟩
    · exact .inr ⟨ds, hds, rfl⟩
    · exact .inl ⟨_, rfl, _, ⟨ds, hds, rfl⟩, rfl⟩

theorem digitVal_ne_minus (d : Digit) : digitVal d ≠ '-'.val := by
  fin_cases d <;> decide

theorem signedWord_inj {negative' : Bool} {ds' : List Digit} :
    signedWord negative ds = signedWord negative' ds' ↔ negative = negative' ∧ ds = ds' := by
  refine ⟨fun h => ?_, fun h => by rw [h.1, h.2]⟩
  have hmap := List.map_injective_iff.2 digitVal_injective
  have hminus (ds ds' : List Digit) : '-'.val :: ds.map digitVal ≠ ds'.map digitVal := by
    rcases ds' with _ | ⟨d, ds'⟩
    · exact List.cons_ne_nil _ _
    · exact fun h => digitVal_ne_minus d (List.cons.inj h).1.symm
  cases negative <;> cases negative'
  · exact ⟨rfl, hmap h⟩
  · exact absurd h.symm (hminus _ _)
  · exact absurd h (hminus _ _)
  · exact ⟨rfl, hmap (List.cons.inj h).2⟩

theorem boundsExact_iff_signed (minimum maximum : Option Int) {Ln Lp : Language Digit}
    (h : Builds 16 (minimum.getD intMin) (maximum.getD intMax) 16 true (signedWords Ln Lp)) :
    BoundsExact negZero minimum maximum ↔ Ln = bounded negZero minimum maximum true ∧
      Lp = bounded negZero minimum maximum false := by
  rw [boundsExact_iff h]
  have hmem (negative : Bool) (ds : List Digit) :
      signedWord negative ds ∈ signedWords Ln Lp ↔ ds ∈ if negative then Ln else Lp := by
    rw [mem_signedWords]
    constructor
    · rintro ⟨negative', ds', heq, hds⟩
      obtain ⟨rfl, rfl⟩ := signedWord_inj.1 heq
      exact hds
    · exact fun hds => ⟨negative, ds, rfl, hds⟩
  constructor
  · intro heq
    have hbounded (negative : Bool) (ds : List Digit) : (ds ∈ if negative then Ln else Lp) ↔
        IsBounded negZero minimum maximum negative ds := by
      rw [← hmem, heq]
      constructor
      · rintro ⟨negative', ds', heq', hds⟩
        obtain ⟨rfl, rfl⟩ := signedWord_inj.1 heq'
        exact hds
      · exact fun hds => ⟨negative, ds, rfl, hds⟩
    exact ⟨Language.ext (hbounded true), Language.ext (hbounded false)⟩
  · rintro ⟨rfl, rfl⟩
    ext w
    rw [mem_signedWords]
    constructor
    · rintro ⟨_ | _, ds, hw, hds⟩
      · exact ⟨false, ds, hw, hds⟩
      · exact ⟨true, ds, hw, hds⟩
    · rintro ⟨_ | _, ds, hw, hds⟩
      · exact ⟨false, ds, hw, hds⟩
      · exact ⟨true, ds, hw, hds⟩

/-! ### Bounds that do not bound -/

theorem pow_le_of_length (hds : Canonical ds) (hlen : ds.length = 16) :
    10 ^ 15 ≤ Decimal.value ds := by
  rcases ds with _ | ⟨d, ds⟩
  · cases hlen
  have hds' : ds.length = 15 := by simpa using hlen
  have hd : d ≠ 0 := (Decimal.canonical_cons.1 hds).resolve_right fun h => by simp [h] at hds'
  have hpow := Decimal.pow_le_value hd ds
  rwa [hds'] at hpow

/-- A numeral with sixteen digits is matched where there is a bound. -/
theorem not_boundsExact_of_long (hb : BoundsGiven minimum maximum)
    (h : Builds 16 (minimum.getD intMin) (maximum.getD intMax) 16 true L)
    (hmem : signedWord negative ds ∈ L) (hds : Canonical ds) (hlen : ds.length = 16)
    (hside : if negative then minimum ≠ none else maximum ≠ none) :
    ¬ BoundsExact negZero minimum maximum := by
  rw [boundsExact_iff h]
  rintro rfl
  obtain ⟨negative', ds', heq, hbounded⟩ := hmem
  obtain ⟨rfl, rfl⟩ := signedWord_inj.1 heq
  have hpow := pow_le_of_length hds hlen
  cases negative'
  · obtain ⟨b, rfl⟩ := Option.ne_none_iff_exists'.1 hside
    have hle : (Decimal.value ds' : Int) ≤ b := hbounded.le b rfl
    have hmax := (hb.max_int b rfl).2
    unfold intMax at hmax
    omega
  · obtain ⟨a, rfl⟩ := Option.ne_none_iff_exists'.1 hside
    have hle : a ≤ -(Decimal.value ds' : Int) := hbounded.ge a rfl
    have hmin := (hb.min_int a rfl).1
    unfold intMin at hmin
    omega

theorem canonical_zero : Canonical [0] := Decimal.canonical_cons.2 (.inr rfl)

/-- A zero with a minus sign is asked for, or nothing is. -/
theorem bounded_true_iff {a : Int} (ha : 0 ≤ a) (hmax : ∀ b ∈ maximum, a ≤ b) :
    0 = bounded negZero (some a) maximum true ↔ (a = 0 → negZero = false) := by
  constructor
  · rintro h rfl
    by_contra hzero
    have hmem : [0] ∈ bounded negZero (some 0) maximum true :=
      ⟨canonical_zero, fun _ _ => by simpa using hzero,
        by simp [signedValue, Decimal.value_cons], hmax, by simp⟩
    rw [← h] at hmem
    exact Language.notMem_zero _ hmem
  · intro h
    ext ds
    refine iff_of_false (Language.notMem_zero ds) fun hds => ?_
    have hge : a ≤ -(Decimal.value ds : Int) := hds.ge a rfl
    have hzero := hds.zero rfl (by omega)
    rw [h (by omega)] at hzero
    cases hzero

theorem zero_mem_numerals (n : ℕ) : [0] ∈ Decimal.numerals 0 n :=
  ⟨canonical_zero, Nat.zero_le _, Nat.zero_le _⟩

theorem length_le_of_value {n : ℕ} (hds : Canonical ds) (h : Decimal.value ds ≤ n)
    (hn : n < 2 ^ 31) : ds.length ≤ 16 :=
  hds.length_le_of_lt (by decide) (by omega)

/-! ### Two bounds -/

section Both

variable {a b : Int}

theorem mem_bounded_both : ds ∈ bounded negZero (some a) (some b) negative ↔ Canonical ds ∧
    (negative = true → Decimal.value ds = 0 → negZero = true) ∧
      a ≤ signedValue negative ds ∧ signedValue negative ds ≤ b := by
  constructor
  · exact fun h => ⟨h.canonical, h.zero, h.ge a rfl, h.le b rfl⟩
  · rintro ⟨hds, hzero, hge, hle⟩
    exact ⟨hds, hzero, by simpa using hge, by simpa using hle, by simp⟩

theorem boundsExact_negative (ha : intMin < a) (ha' : a ≠ -intMax) (hab : a ≤ b) (hb : b < 0) :
    BoundsExact negZero (some a) (some b) := by
  have hmax : b ≠ intMax := by
    unfold intMax
    omega
  have hrange : -a < intMax := by
    unfold intMin intMax at *
    omega
  have hinner : Builds 15 (-b) (-a) 16 true _ := builds_range (by omega) (neg_le_neg hab) hrange
  have hbuild : Builds 16 a b 16 true
      (signedWords (Decimal.numerals (-b).toNat (-a).toNat) 0) := by
    simpa [signedWords] using builds_negative_range ha.ne' hmax (by omega) hb hinner
  refine (boundsExact_iff_signed (some a) (some b) hbuild).2 ⟨?_, ?_⟩
  · ext ds
    rw [mem_bounded_both, Decimal.mem_numerals]
    simp only [signedValue, if_true]
    refine and_congr_right fun _ => ⟨fun h => ⟨fun _ h0 => ?_, ?_, ?_⟩, fun h => ⟨?_, ?_⟩⟩ <;> omega
  · ext ds
    rw [mem_bounded_both]
    refine iff_of_false (Language.notMem_zero ds) fun h => ?_
    have hle : (Decimal.value ds : Int) ≤ b := h.2.2.2
    omega

/-- A zero with a minus sign is not matched. -/
theorem boundsExact_nonneg (ha : 0 ≤ a) (hab : a ≤ b) (hb : b < intMax) :
    BoundsExact negZero (some a) (some b) ↔ (a = 0 → negZero = false) := by
  have hrange : Builds 16 a b 16 true _ := builds_range ha hab hb
  have hbuild : Builds 16 a b 16 true (signedWords 0 (Decimal.numerals a.toNat b.toNat)) := by
    simpa [signedWords, negated] using hrange
  rw [boundsExact_iff_signed (some a) (some b) hbuild, bounded_true_iff ha (by simpa using hab),
    and_iff_left]
  ext ds
  rw [mem_bounded_both, Decimal.mem_numerals]
  simp only [signedValue, Bool.false_eq_true, if_false, false_implies, true_and]
  refine and_congr_right fun _ => ?_
  omega

/-- A zero with a minus sign is matched. -/
theorem boundsExact_mixed (ha : intMin < a) (ha' : a ≠ -intMax) (ha0 : a < 0) (hb0 : 0 ≤ b)
    (hb : b < intMax) : BoundsExact negZero (some a) (some b) ↔ negZero = true := by
  have hrange : -a < intMax := by
    unfold intMin intMax at *
    omega
  have hinner : Builds 15 0 (-a) 16 true _ := builds_range le_rfl (by omega) hrange
  have hbuild : Builds 16 a b 16 true
      (signedWords (Decimal.numerals 0 (-a).toNat) (Decimal.numerals 0 b.toNat)) :=
    builds_mixed_range ha.ne' hb ha0 hb0 hinner
  rw [boundsExact_iff_signed (some a) (some b) hbuild, and_iff_left]
  · constructor
    · intro h
      have hmem := zero_mem_numerals (-a).toNat
      rw [h] at hmem
      exact (mem_bounded_both.1 hmem).2.1 rfl rfl
    · rintro rfl
      ext ds
      rw [mem_bounded_both, Decimal.mem_numerals]
      simp only [signedValue, if_true, implies_true, true_and]
      refine and_congr_right fun _ => ?_
      omega
  · ext ds
    rw [mem_bounded_both, Decimal.mem_numerals]
    simp only [signedValue, Bool.false_eq_true, if_false, false_implies, true_and]
    refine and_congr_right fun _ => ?_
    omega

end Both

/-! ### A lower bound -/

section LowerBound

variable {a : Int}

theorem mem_bounded_min : ds ∈ bounded negZero (some a) none negative ↔ Canonical ds ∧
    (negative = true → Decimal.value ds = 0 → negZero = true) ∧
      a ≤ signedValue negative ds ∧ ds.length ≤ 16 := by
  constructor
  · exact fun h => ⟨h.canonical, h.zero, h.ge a rfl, h.length (.inr rfl)⟩
  · rintro ⟨hds, hzero, hge, hlen⟩
    exact ⟨hds, hzero, by simpa using hge, by simp, fun _ => hlen⟩

/-- The numerals without a minus sign, if the bound is negative or zero. -/
theorem bounded_min_nonpos (ha : a ≤ 0) :
    bounded negZero (some a) none false = Decimal.numeralsFrom 0 16 := by
  ext ds
  rw [mem_bounded_min, Decimal.mem_numeralsFrom]
  have hge : a ≤ signedValue false ds := ha.trans (Int.natCast_nonneg _)
  simp [hge]

theorem boundsExact_min_negative (ha : intMin < a) (ha' : a ≠ -intMax) (ha0 : a < 0) :
    BoundsExact negZero (some a) none ↔ negZero = true := by
  have hrange : -a < intMax := by
    unfold intMin intMax at *
    omega
  have hinner : Builds 15 intMin (-a) 16 false _ :=
    builds_max_nonneg (by omega) hrange.ne (by decide) (by decide)
      (builds_range le_rfl (by omega) hrange)
  have hbuild : Builds 16 a intMax 16 true
      (signedWords (Decimal.numerals 0 (-a).toNat) (Decimal.numeralsFrom 0 16)) := by
    simpa [signedWords, Decimal.numeralsFrom_zero, positives] using
      builds_min_negative ha.ne' ha0 (by decide) hinner
  rw [boundsExact_iff_signed (some a) none hbuild, bounded_min_nonpos ha0.le, and_iff_left rfl]
  constructor
  · intro h
    have hmem := zero_mem_numerals (-a).toNat
    rw [h] at hmem
    exact (mem_bounded_min.1 hmem).2.1 rfl rfl
  · rintro rfl
    ext ds
    rw [mem_bounded_min, Decimal.mem_numerals]
    simp only [signedValue, if_true, implies_true, true_and]
    refine and_congr_right fun hds => ⟨fun h => ⟨by omega, ?_⟩, fun h => ⟨Nat.zero_le _, by omega⟩⟩
    refine length_le_of_value hds h.2 ?_
    unfold intMax at hrange
    omega

theorem boundsExact_min_zero : BoundsExact negZero (some 0) none ↔ negZero = false := by
  have hzero : Builds 16 0 intMax 16 true _ := builds_min_zero (by decide) (by decide)
  have hbuild : Builds 16 0 intMax 16 true (signedWords 0 (Decimal.numeralsFrom 0 16)) := by
    simpa [signedWords, negated, Decimal.numeralsFrom_zero, positives] using hzero
  rw [boundsExact_iff_signed (some 0) none hbuild, bounded_min_nonpos le_rfl, and_iff_left rfl,
    bounded_true_iff le_rfl (by simp)]
  simp

theorem boundsExact_min_positive (ha : 0 < a) (ha' : a ≤ intMax) :
    BoundsExact negZero (some a) none ↔ InnerHigh (Decimal.ofNat a.toNat).tail := by
  obtain ⟨m, rfl⟩ := Int.eq_ofNat_of_zero_le ha.le
  obtain ⟨c, rest, hc, rfl, hdigits⟩ := Decimal.exists_value_cons (n := m) (by omega)
  have hlen := length_tail_le ha' hdigits
  obtain ⟨L, hL, hiff⟩ := builds_min_positive true hc hlen (show 11 ≤ 16 by decide)
  have hstart : lowerStart true c rest = 1 := by simp [lowerStart, startDigit]
  rw [hstart] at hL
  have hbuild : Builds 16 (Decimal.value (c :: rest)) intMax 16 true
      (signedWords 0 (Decimal.branch 1 c rest.length 15 L)) := by
    simpa [signedWords, negated] using hL
  have hnumerals : bounded negZero (some (Decimal.value (c :: rest) : Int)) none false =
      Decimal.numeralsFrom (Decimal.value (c :: rest)) 16 := by
    ext ds
    rw [mem_bounded_min, Decimal.mem_numeralsFrom]
    simp [signedValue]
  rw [boundsExact_iff_signed (some _) none hbuild, bounded_true_iff ha.le (by simp), hnumerals,
    Decimal.numeralsFrom_cons hc, Decimal.branch_inj hc, hiff, Int.toNat_natCast, hdigits,
    List.tail_cons, and_iff_right]
  exact fun h => absurd h ha.ne'

end LowerBound

/-! ### An upper bound -/

section UpperBound

variable {b : Int}

theorem mem_bounded_max : ds ∈ bounded negZero none (some b) negative ↔ Canonical ds ∧
    (negative = true → Decimal.value ds = 0 → negZero = true) ∧
      signedValue negative ds ≤ b ∧ ds.length ≤ 16 := by
  constructor
  · exact fun h => ⟨h.canonical, h.zero, h.le b rfl, h.length (.inl rfl)⟩
  · rintro ⟨hds, hzero, hle, hlen⟩
    exact ⟨hds, hzero, by simp, by simpa using hle, fun _ => hlen⟩

/-- A zero with a minus sign is not matched. -/
theorem boundsExact_max_nonneg (hb : 0 ≤ b) (hb' : b < intMax) :
    BoundsExact negZero none (some b) ↔ negZero = false := by
  have hrange : Builds 15 0 b 16 true _ := builds_range le_rfl hb hb'
  have hmax : Builds 16 intMin b 16 true _ :=
    builds_max_nonneg hb hb'.ne (by decide) (by decide) hrange
  have hbuild : Builds 16 intMin b 16 true
      (signedWords (Decimal.numeralsFrom 1 16) (Decimal.numerals 0 b.toNat)) := by
    simpa [signedWords, Decimal.numeralsFrom_one, positives] using hmax
  rw [boundsExact_iff_signed none (some b) hbuild, and_iff_left]
  · constructor
    · intro h
      by_contra hzero
      have hmem : [0] ∈ bounded negZero none (some b) true :=
        mem_bounded_max.2 ⟨canonical_zero, fun _ _ => by simpa using hzero,
          by simpa [signedValue, Decimal.value_cons] using hb, by simp⟩
      rw [← h] at hmem
      exact absurd hmem.2.1 (by decide)
    · rintro rfl
      ext ds
      rw [mem_bounded_max, Decimal.mem_numeralsFrom]
      simp only [signedValue, if_true, true_implies, Bool.false_eq_true, imp_false]
      refine and_congr_right fun _ => ⟨fun h => ⟨?_, ?_, h.2⟩, fun h => ⟨?_, h.2.2⟩⟩ <;> omega
  · ext ds
    rw [mem_bounded_max, Decimal.mem_numerals]
    simp only [signedValue, Bool.false_eq_true, if_false, false_implies, true_and]
    refine and_congr_right fun hds => ⟨fun h => ⟨by omega, ?_⟩, fun h => ⟨Nat.zero_le _, by omega⟩⟩
    refine length_le_of_value hds h.2 ?_
    unfold intMax at hb'
    omega

/-- If a smaller first digit may stand in front, so may a zero. -/
theorem branch_zero_ne {c : Digit} (hc : c ≠ 0) {k n : ℕ} (hk : k < n) (L L' : Language Digit) :
    Decimal.branch 0 c k n L ≠ Decimal.branch 1 c k n L' := by
  intro h
  have hlen := Decimal.length_zeros (k + 1)
  have hmem : 0 :: Decimal.zeros (k + 1) ∈ Decimal.branch 0 c k n L :=
    (Decimal.cons_mem_branch hc).2 (.inl ⟨le_rfl, Fin.pos_iff_ne_zero.2 hc, by omega, by omega⟩)
  rw [h, Decimal.cons_mem_branch hc] at hmem
  rcases hmem with ⟨h, -⟩ | ⟨h, -⟩ | ⟨h, -⟩
  · exact absurd h (by decide)
  · exact hc h.symm
  · exact absurd h (Fin.not_lt_zero c)

theorem boundsExact_max_negative (hb : b < 0) (hb' : intMin < b) :
    BoundsExact negZero none (some b) ↔ ∃ rest, rest ≠ [] ∧
      Decimal.ofNat (-b).toNat = 1 :: rest ∧ InnerHigh rest := by
  obtain ⟨m, hm⟩ := Int.eq_ofNat_of_zero_le (show 0 ≤ -b by omega)
  obtain rfl : b = -(m : Int) := by omega
  obtain ⟨c, rest, hc, rfl, hdigits⟩ := Decimal.exists_value_cons (n := m) (by omega)
  have hlen : rest.length ≤ 10 := by
    refine length_tail_le ?_ hdigits
    unfold intMin intMax at *
    omega
  obtain ⟨L, hL, hiff⟩ := builds_min_positive false hc hlen (show 11 ≤ 15 by decide)
  rw [← neg_neg (Decimal.value (c :: rest) : Int)] at hL
  have hbuild : Builds 16 intMin (-(Decimal.value (c :: rest) : Int)) 16 true
      (signedWords (Decimal.branch (lowerStart false c rest) c rest.length 15 L) 0) := by
    simpa [signedWords] using builds_max_negative hb hb'.ne' hL
  have hnumerals : bounded negZero none (some (-(Decimal.value (c :: rest) : Int))) true =
      Decimal.numeralsFrom (Decimal.value (c :: rest)) 16 := by
    ext ds
    rw [mem_bounded_max, Decimal.mem_numeralsFrom]
    simp only [signedValue, if_true, true_implies]
    refine and_congr_right fun _ => ⟨fun h => ⟨by omega, h.2.2⟩, fun h => ⟨?_, by omega, h.2⟩⟩
    omega
  have hnone : 0 = bounded negZero none (some (-(Decimal.value (c :: rest) : Int))) false := by
    ext ds
    rw [mem_bounded_max]
    refine iff_of_false (Language.notMem_zero ds) fun h => ?_
    have hle : (Decimal.value ds : Int) ≤ -Decimal.value (c :: rest) := h.2.2.1
    omega
  rw [boundsExact_iff_signed none (some _) hbuild, and_iff_left hnone, hnumerals,
    Decimal.numeralsFrom_cons hc, neg_neg, Int.toNat_natCast, hdigits]
  by_cases hstart : 1 < c ∨ rest = []
  · have hzero : lowerStart false c rest = 0 := if_pos hstart
    rw [hzero]
    refine iff_of_false (branch_zero_ne hc (by omega) _ _) ?_
    rintro ⟨rest', hne, heq, -⟩
    obtain ⟨rfl, rfl⟩ := List.cons.inj heq
    exact hstart.elim (lt_irrefl _) hne
  · have hone : lowerStart false c rest = 1 := if_neg hstart
    rw [not_or, not_lt] at hstart
    obtain rfl : c = 1 := le_antisymm hstart.1 (Fin.one_le_of_ne_zero hc)
    rw [hone, Decimal.branch_inj hc, hiff]
    constructor
    · exact fun h => ⟨rest, hstart.2, rfl, h⟩
    · rintro ⟨rest', -, heq, h⟩
      rwa [(List.cons.inj heq).2]

end UpperBound

/-! ### The bounds that are taken for missing ones -/

section Missing

variable {a b : Int}

theorem nines_mem_numeralsFrom {m : ℕ} (hm : m ≤ 1) :
    Decimal.nines 16 ∈ Decimal.numeralsFrom m 16 :=
  ⟨Decimal.canonical_cons.2 (.inl (by decide)), hm.trans (by decide), le_rfl⟩

theorem negated_mem {L : Language Digit} (h : ds ∈ L) :
    signedWord true ds ∈ negated (digitWords L) :=
  ⟨_, rfl, _, ⟨ds, h, rfl⟩, rfl⟩

theorem digits_mem {L : Language Digit} (h : ds ∈ L) : signedWord false ds ∈ digitWords L :=
  ⟨ds, h, rfl⟩

/-- With the least number as the lower bound there is none. -/
theorem not_boundsExact_intMin (h : BoundsGiven (some intMin) (some b)) :
    ¬ BoundsExact negZero (some intMin) (some b) := by
  have hle := (h.max_int b rfl).2
  by_cases hmax : b = intMax
  · subst hmax
    exact not_boundsExact_of_error rfl
  by_cases hmin : b = intMin
  · subst hmin
    exact not_boundsExact_of_error rfl
  rcases Int.lt_or_le b 0 with hneg | hpos
  · obtain ⟨m, hm⟩ := Int.eq_ofNat_of_zero_le (show 0 ≤ -b by omega)
    have hm' : (m : Int) ≤ intMax := by
      have hge := (h.max_int b rfl).1
      unfold intMin intMax at *
      omega
    obtain ⟨L, hL, ds, hds, hcanon, hlen⟩ :=
      exists_builds_long false hm' (show 11 ≤ 15 by decide) (by omega)
    rw [← hm] at hL
    have hbuild : Builds 16 intMin b 16 true _ := builds_max_negative hneg hmin hL
    exact not_boundsExact_of_long h hbuild (negated_mem hds) hcanon hlen (by simp)
  · have hrange : Builds 15 0 b 16 true _ := builds_range le_rfl hpos (lt_of_le_of_ne hle hmax)
    have hbuild : Builds 16 intMin b 16 true _ :=
      builds_max_nonneg hpos hmax (by decide) (by decide) hrange
    have hnines := nines_mem_numeralsFrom le_rfl
    rw [if_pos rfl, positives, ← Decimal.numeralsFrom_one] at hbuild
    exact not_boundsExact_of_long h hbuild (.inl (negated_mem hnines)) hnines.1 rfl (by simp)

/-- With the greatest number as the upper bound there is none. -/
theorem not_boundsExact_intMax (h : BoundsGiven (some a) (some intMax)) (ha : a ≠ intMin) :
    ¬ BoundsExact negZero (some a) (some intMax) := by
  have hge := (h.min_int a rfl).1
  by_cases hmin : a = -intMax
  · subst hmin
    exact not_boundsExact_of_error rfl
  rcases Int.lt_or_le a 0 with hneg | hpos
  · have hrange : -a < intMax := by
      unfold intMin intMax at *
      omega
    have hinner : Builds 15 intMin (-a) 16 false _ :=
      builds_max_nonneg (by omega) hrange.ne (by decide) (by decide)
        (builds_range le_rfl (by omega) hrange)
    have hbuild : Builds 16 a intMax 16 true _ := builds_min_negative ha hneg (by decide) hinner
    have hnines := nines_mem_numeralsFrom (Nat.zero_le 1)
    rw [positives, ← Decimal.numeralsFrom_zero] at hbuild
    exact not_boundsExact_of_long h hbuild (.inr (digits_mem hnines)) hnines.1 rfl (by simp)
  · obtain ⟨m, rfl⟩ := Int.eq_ofNat_of_zero_le hpos
    obtain ⟨L, hL, ds, hds, hcanon, hlen⟩ :=
      exists_builds_long true (h.min_int _ rfl).2 (show 11 ≤ 16 by decide) fun _ => rfl
    exact not_boundsExact_of_long h hL (digits_mem hds) hcanon hlen (by simp)

/-- A lower bound that is negated to the greatest number is none. -/
theorem not_boundsExact_negated (h : BoundsGiven (some (-intMax)) (some b)) (hb : b ≠ intMax) :
    ¬ BoundsExact negZero (some (-intMax)) (some b) := by
  have hle := (h.max_int b rfl).2
  rcases Int.lt_or_le b 0 with hneg | hpos
  · obtain ⟨m, hm⟩ := Int.eq_ofNat_of_zero_le (show 0 ≤ -b by omega)
    have hm' : (m : Int) ≤ intMax := by
      have hab := h.le _ rfl b rfl
      omega
    obtain ⟨L, hL, ds, hds, hcanon, hlen⟩ :=
      exists_builds_long true hm' (show 11 ≤ 15 by decide) fun _ => rfl
    rw [← hm, ← neg_neg intMax] at hL
    have hbuild : Builds 16 (-intMax) b 16 true _ :=
      builds_negative_range (by decide) hb (by decide) hneg hL
    exact not_boundsExact_of_long h hbuild (negated_mem hds) hcanon hlen (by simp)
  · obtain ⟨L, hL, ds, hds, hcanon, hlen⟩ :=
      exists_builds_long true (show ((0 : ℕ) : Int) ≤ intMax by decide) (show 11 ≤ 15 by decide)
        fun _ => rfl
    have hL' : Builds 15 0 (- -intMax) 16 true (digitWords L) := by
      rwa [neg_neg]
    have hbuild : Builds 16 (-intMax) b 16 true _ :=
      builds_mixed_range (by decide) (lt_of_le_of_ne hle hb) (by decide) hpos hL'
    exact not_boundsExact_of_long h hbuild (.inl (negated_mem hds)) hcanon hlen (by simp)

end Missing

/-! ### When the bounds are exact -/

/-- The least and the greatest number and the negated greatest one stand for missing bounds; a zero
with a minus sign is matched below a negative bound only; and behind the first digits of a lower
bound the digits are right if they are two or more, up to the last one. -/
def BoundsExactWhen (negZero : Bool) : Option Int → Option Int → Prop
  | some a, some b => (a ≠ intMin ∧ a ≠ -intMax ∧ b ≠ intMax) ∧
    if negZero then a ≠ 0 else 0 ≤ a ∨ b < 0
  | some a, none => (a ≠ intMin ∧ a ≠ -intMax) ∧ (a < 0 → negZero = true) ∧
    (a = 0 → negZero = false) ∧ InnerHigh (Decimal.ofNat a.toNat).tail
  | none, some b => b ≠ intMax ∧ (0 ≤ b → negZero = false) ∧ (b < 0 → ∃ rest, rest ≠ [] ∧
      Decimal.ofNat (-b).toNat = 1 :: rest ∧ InnerHigh rest)
  | none, none => False

theorem boundsExact_both_iff {a b : Int} (h : BoundsGiven (some a) (some b)) :
    BoundsExact negZero (some a) (some b) ↔ BoundsExactWhen negZero (some a) (some b) := by
  have hmin := (h.min_int a rfl).1
  have hmax := (h.max_int b rfl).2
  have hab := h.le a rfl b rfl
  rw [BoundsExactWhen]
  by_cases ha : a = intMin
  · subst ha
    exact iff_of_false (not_boundsExact_intMin h) fun hw => hw.1.1 rfl
  by_cases hb : b = intMax
  · subst hb
    exact iff_of_false (not_boundsExact_intMax h ha) fun hw => hw.1.2.2 rfl
  by_cases ha' : a = -intMax
  · subst ha'
    exact iff_of_false (not_boundsExact_negated h hb) fun hw => hw.1.2.1 rfl
  rw [and_iff_right ⟨ha, ha', hb⟩]
  have hlt : intMin < a := lt_of_le_of_ne hmin (Ne.symm ha)
  have hlt' : b < intMax := lt_of_le_of_ne hmax hb
  rcases Int.lt_or_le a 0 with ha0 | ha0
  · rcases Int.lt_or_le b 0 with hb0 | hb0
    · refine iff_of_true (boundsExact_negative hlt ha' hab hb0) ?_
      split_ifs
      · exact ha0.ne
      · exact .inr hb0
    · rw [boundsExact_mixed hlt ha' ha0 hb0 hlt']
      cases negZero
      · simp [ha0, hb0]
      · simp [ha0.ne]
  · rw [boundsExact_nonneg ha0 hab hlt']
    cases negZero
    · simp [ha0]
    · simp

theorem boundsExact_min_iff {a : Int} (h : BoundsGiven (some a) none) :
    BoundsExact negZero (some a) none ↔ BoundsExactWhen negZero (some a) none := by
  have hmin := (h.min_int a rfl).1
  rw [BoundsExactWhen]
  by_cases ha : a = intMin
  · subst ha
    exact iff_of_false (not_boundsExact_of_error rfl) fun hw => hw.1.1 rfl
  by_cases ha' : a = -intMax
  · subst ha'
    exact iff_of_false (not_boundsExact_of_error rfl) fun hw => hw.1.2 rfl
  rw [and_iff_right ⟨ha, ha'⟩]
  have hnonpos (h : a ≤ 0) : InnerHigh (Decimal.ofNat a.toNat).tail := by
    rw [Int.toNat_of_nonpos h]
    simp [Decimal.ofNat, InnerHigh]
  rcases Int.lt_trichotomy a 0 with ha0 | rfl | ha0
  · rw [boundsExact_min_negative (lt_of_le_of_ne hmin (Ne.symm ha)) ha' ha0]
    simp [ha0, ha0.ne, hnonpos ha0.le]
  · have hzero : InnerHigh (Decimal.ofNat 0).tail := hnonpos le_rfl
    rw [boundsExact_min_zero]
    simp [hzero]
  · rw [boundsExact_min_positive ha0 (h.min_int a rfl).2]
    simp [ha0.ne', ha0.not_gt]

theorem boundsExact_max_iff {b : Int} (h : BoundsGiven none (some b)) :
    BoundsExact negZero none (some b) ↔ BoundsExactWhen negZero none (some b) := by
  have hge := (h.max_int b rfl).1
  rw [BoundsExactWhen]
  by_cases hmax : b = intMax
  · subst hmax
    exact iff_of_false (not_boundsExact_of_error rfl) fun hw => hw.1 rfl
  rw [and_iff_right hmax]
  rcases Int.lt_or_le b 0 with hb0 | hb0
  · by_cases hmin : b = intMin
    · subst hmin
      refine iff_of_false (not_boundsExact_of_error rfl) fun hw => ?_
      obtain ⟨rest, -, hdigits, -⟩ := hw.2 hb0
      have hvalue : (-intMin).toNat = Decimal.value [2, 1, 4, 7, 4, 8, 3, 6, 4, 8] := rfl
      rw [hvalue, Decimal.ofNat_value (Decimal.canonical_cons.2 (.inl (by decide)))] at hdigits
      exact absurd (List.cons.inj hdigits).1 (by decide)
    · rw [boundsExact_max_negative hb0 (lt_of_le_of_ne hge (Ne.symm hmin))]
      simp [hb0, hb0.not_ge]
  · rw [boundsExact_max_nonneg hb0 (lt_of_le_of_ne (h.max_int b rfl).2 hmax)]
    simp [hb0, hb0.not_gt]

end Exact

theorem boundsExact_iff_boundsExactWhen (negZero : Bool) (minimum maximum : Option Int)
    (h : BoundsGiven minimum maximum) :
    BoundsExact negZero minimum maximum ↔ BoundsExactWhen negZero minimum maximum := by
  rcases minimum with _ | a <;> rcases maximum with _ | b
  · exact absurd h.given (by simp)
  · exact boundsExact_max_iff h
  · exact boundsExact_min_iff h
  · exact boundsExact_both_iff h

theorem boundsExact_iff_boundsExactWhen_negative : BoundsExact true (some (-5)) (some 7) :=
  (boundsExact_iff_boundsExactWhen true (some (-5)) (some 7)
    ⟨by decide, by decide, by decide, by decide⟩).2 ⟨by decide, by decide⟩

/-- The digits `05` behind the first one of `105` are taken for `5`, so that `15` is matched. -/
theorem not_boundsExact :
    ¬ BoundsExact true (some 105) none ∧ ¬ BoundsExact false (some 105) none := by
  have hvalue : (105 : Int).toNat = Decimal.value [1, 0, 5] := rfl
  have hinner : ¬ InnerHigh (Decimal.ofNat (105 : Int).toNat).tail := by
    rw [hvalue, Decimal.ofNat_value (Decimal.canonical_cons.2 (.inl (by decide)))]
    exact fun h => absurd (h 0 (by decide)) (by decide)
  exact ⟨fun h => hinner ((boundsExact_min_positive (by decide) (by decide)).1 h),
    fun h => hinner ((boundsExact_min_positive (by decide) (by decide)).1 h)⟩

end LamaServer
