import LamaServer.Lib.Except
import LamaServer.Proofs.UniformRange

/-!
# Integers between bounds

Which numerals the expression for bounds matches, case by case.
-/

namespace LamaServer

open scoped Decimal
open Decimal (Digit Canonical)
open BoundsItem

/-! ## The expression in each case -/

/-- An expression is written that matches these words. -/
def Builds (fuel : Nat) (a b : Int) (decimalsLeft : Nat) (topLevel : Bool)
    (L : Language UInt32) : Prop :=
  ∃ out, buildMinMaxInt fuel a b decimalsLeft topLevel = .ok out ∧ out ≠ [] ∧
    AlternativesFull out ∧ alternativesWords out = L

section Cases

variable {fuel n : ℕ} {a b : Int} {topLevel : Bool} {L : Language UInt32}

/-- With a minus sign in front. -/
def negated (L : Language UInt32) : Language UInt32 := {['-'.val]} * L

theorem length_ofNat_le {b : Int} (h : b < intMax) : (Decimal.ofNat b.toNat).length ≤ 10 := by
  refine (Decimal.canonical_ofNat _).length_le_of_lt (by decide) ?_
  rw [Decimal.value_ofNat]
  unfold intMax at h
  omega

/-- The numerals between two bounds that are not negative. -/
theorem ranges_spec (hab : a ≤ b) (hb : b < intMax) {minS maxS : List Digit}
    (hmin : minS = Decimal.ofNat a.toNat) (hmax : maxS = Decimal.ofNat b.toNat) :
    uniformRanges (maxS.length - minS.length) minS maxS ≠ [] ∧
      AlternativesFull (uniformRanges (maxS.length - minS.length) minS maxS) ∧
      alternativesWords (uniformRanges (maxS.length - minS.length) minS maxS) =
        digitWords (Decimal.numerals a.toNat b.toNat) := by
  subst hmin hmax
  have hs := Decimal.canonical_ofNat a.toNat
  have ht := Decimal.canonical_ofNat b.toNat
  have hle : Decimal.value (Decimal.ofNat a.toNat) ≤ Decimal.value (Decimal.ofNat b.toNat) := by
    rw [Decimal.value_ofNat, Decimal.value_ofNat]
    omega
  have hlen := hs.length_le ht.1 hle
  have hmax : ((Decimal.ofNat b.toNat).length : Int) < intMax := by
    have := length_ofNat_le hb
    unfold intMax
    omega
  have hfull := uniformRanges_full (Nat.add_sub_cancel' hlen).symm hs.1
  have hwords := alternativesWords_uniformRanges hmax (Nat.add_sub_cancel' hlen).symm hs ht hle
  rw [Decimal.value_ofNat, Decimal.value_ofNat] at hwords
  exact ⟨hfull.1, hfull.2, hwords⟩

theorem builds_range (ha : 0 ≤ a) (hab : a ≤ b) (hb : b < intMax) :
    Builds (fuel + 1) a b n topLevel (digitWords (Decimal.numerals a.toNat b.toNat)) := by
  obtain ⟨hne, hfull, hwords⟩ := ranges_spec hab hb rfl rfl
  have hmin : a ≠ intMin := by
    unfold intMin
    omega
  refine ⟨_, ?_, hne, hfull, hwords⟩
  rw [buildMinMaxInt, if_pos ⟨hmin, hb.ne⟩, if_neg (by omega), if_neg (by omega), max_eq_left ha]
  rfl

theorem builds_negative_range (ha : a ≠ intMin) (hb : b ≠ intMax) (ha' : a < 0) (hb' : b < 0)
    (h : Builds fuel (-b) (-a) n true L) :
    Builds (fuel + 1) a b n topLevel (negated L) := by
  obtain ⟨out, hout, hne, hfull, rfl⟩ := h
  refine ⟨[[minus, group out]], ?_, List.cons_ne_nil _ _,
    ⟨⟨List.cons_ne_nil _ _, trivial, ⟨hne, hfull⟩, trivial⟩, trivial⟩, ?_⟩
  · rw [buildMinMaxInt_negative ha hb ha' hb', hout]
    rfl
  · simp [words_minus, words_group hne, negated]

theorem builds_mixed_range (ha : a ≠ intMin) (hb : b < intMax) (ha' : a < 0) (hb' : 0 ≤ b)
    (h : Builds fuel 0 (-a) n true L) : Builds (fuel + 1) a b n topLevel
      (negated L + digitWords (Decimal.numerals 0 b.toNat)) := by
  obtain ⟨out, hout, hne, hfull, rfl⟩ := h
  obtain ⟨-, hfull', hwords⟩ := ranges_spec hb' hb rfl rfl
  refine ⟨_, ?_, List.append_ne_nil_of_left_ne_nil (List.cons_ne_nil [minus, group out] []) _,
    alternativesFull_append.2 ⟨⟨⟨List.cons_ne_nil _ _, trivial, ⟨hne, hfull⟩, trivial⟩, trivial⟩,
      hfull'⟩, ?_⟩
  · rw [buildMinMaxInt, if_pos ⟨ha, hb.ne⟩, if_neg (by omega), if_pos ha', hout,
      max_eq_right ha'.le]
    rfl
  · rw [alternativesWords_append, hwords]
    simp [words_minus, words_group hne, negated]

/-- A digit from `1` on, and more behind it. -/
def positives (n : ℕ) : Language Digit := Decimal.oneOf 1 9 * Decimal.lengths 0 n

theorem builds_min_negative (ha : a ≠ intMin) (ha' : a < 0) (hn : ((n - 1 : ℕ) : Int) ≠ intMax)
    (h : Builds fuel intMin (-a) n false L) : Builds (fuel + 1) a intMax n topLevel
      (negated L + digitWords (Decimal.oneOf 0 0 + positives (n - 1))) := by
  obtain ⟨out, hout, hne, hfull, rfl⟩ := h
  refine ⟨[[minus, group out], [digitRange 0 0], [digitRange 1 9, moreDigits 0 (n - 1)]], ?_,
    List.cons_ne_nil _ _, ⟨⟨List.cons_ne_nil _ _, trivial, ⟨hne, hfull⟩, trivial⟩, ?_⟩, ?_⟩
  · rw [buildMinMaxInt, if_neg (by simp), if_pos ha, if_pos ha', hout]
    rfl
  · simp [AlternativesFull, ItemsFull, Full]
  · simp [words_minus, words_group hne, negated, words_digitRange, words_moreDigits hn, positives]

theorem builds_min_zero (hn : 1 ≤ n) (hmax : (n : Int) ≠ intMax) :
    Builds (fuel + 1) 0 intMax (n + 1) true
      (digitWords (Decimal.oneOf 0 0 + positives n)) := by
  refine ⟨[[digitRange 0 0], [digitRange 1 9, moreDigits 0 n]], ?_, List.cons_ne_nil _ _, ?_, ?_⟩
  · rw [buildMinMaxInt, if_neg (by simp), if_pos (by decide), if_neg (by decide), if_pos rfl,
      if_pos rfl, Nat.add_sub_cancel, max_eq_left hn]
    rfl
  · simp [AlternativesFull, ItemsFull, Full]
  · simp [words_digitRange, words_moreDigits hmax, positives]

theorem builds_min_zero_suffix (hmax : (n : Int) ≠ intMax) :
    Builds (fuel + 1) 0 intMax n false (digitWords (Decimal.lengths 1 n)) := by
  refine ⟨[[moreDigits 1 n]], ?_, List.cons_ne_nil _ _, ?_, ?_⟩
  · rw [buildMinMaxInt, if_neg (by simp), if_pos (by decide), if_neg (by decide), if_pos rfl,
      if_neg (by decide)]
    rfl
  · simp [AlternativesFull, ItemsFull, Full]
  · simp [words_moreDigits hmax]

/-- The first digit that may stand in front of more digits. -/
def startDigit (topLevel : Bool) : Digit := if topLevel then 1 else 0

theorem builds_min_digit {c : Digit} (hc : c ≠ 0) (hn : 1 ≤ n) (hmax : (n : Int) ≠ intMax) :
    Builds (fuel + 1) (c : ℕ) intMax (n + 1) topLevel (digitWords
      (Decimal.branch (startDigit topLevel) c 0 n (Decimal.lengths 0 n))) := by
  have hpos : 0 < (c : ℕ) := Nat.pos_of_ne_zero fun h => hc (Fin.ext h)
  have hlt : (c : ℕ) < 10 := c.isLt
  have hmin : ((c : ℕ) : Int) ≠ intMin := by
    unfold intMin
    omega
  refine ⟨(if c > startDigit topLevel then
      [[digitRange (startDigit topLevel) (c - 1), moreDigits 1 n]] else []) ++
        [[digitRange c 9, moreDigits 0 n]], ?_, ?_, ?_, ?_⟩
  · rw [buildMinMaxInt, if_neg (by simp), if_pos hmin, if_neg (by omega), if_neg (by omega),
      if_pos (by omega), Nat.add_sub_cancel, max_eq_left hn, Int.toNat_natCast,
      Fin.ofNat_val_eq_self]
    rfl
  · simp
  · split_ifs <;> simp [AlternativesFull, ItemsFull, Full]
  · rw [Decimal.branch_lengths hc]
    split_ifs <;> simp [words_digitRange, words_moreDigits hmax]

/-- The first digit that may stand in front of more digits than those of a bound. -/
def lowerStart (topLevel : Bool) (c : Digit) (rest : List Digit) : Digit :=
  if 1 < c ∨ rest = [] then startDigit topLevel else 1

theorem builds_min_more {c : Digit} {rest : List Digit} {L : Language Digit} (hc : c ≠ 0)
    (hrest : rest ≠ []) (hn : 1 ≤ n) (hmax : (n : Int) ≠ intMax)
    (h : Builds fuel (Decimal.value rest) intMax n false (digitWords L)) :
    Builds (fuel + 1) (Decimal.value (c :: rest)) intMax (n + 1) topLevel
      (digitWords (Decimal.branch (lowerStart topLevel c rest) c rest.length n L)) := by
  obtain ⟨out, hout, hne, hfull, hwords⟩ := h
  have hcanon : Canonical (c :: rest) := Decimal.canonical_cons.2 (.inl hc)
  have hdigits := Decimal.ofNat_value hcanon
  have hge : 10 ≤ Decimal.value (c :: rest) := by
    have hpow := Decimal.pow_le_value hc rest
    have hlen : 1 ≤ rest.length := List.length_pos_iff.2 hrest
    exact (Nat.pow_le_pow_right (by decide) hlen).trans hpow
  have hmin : (Decimal.value (c :: rest) : Int) ≠ intMin := by
    unfold intMin
    omega
  have hlower : Decimal.oneOf (lowerStart topLevel c rest) (c - 1) =
      if 1 < c then Decimal.oneOf (startDigit topLevel) (c - 1) else 0 := by
    simp only [lowerStart, hrest, or_false]
    split_ifs with h
    · rfl
    · obtain rfl : c = 1 := le_antisymm (not_lt.1 h) (Fin.one_le_of_ne_zero hc)
      exact Decimal.oneOf_of_lt (by decide)
  refine ⟨(if c > 1 then
      [[digitRange (startDigit topLevel) (c - 1), moreDigits (rest.length + 1) n]] else []) ++
        [[digitRange c c, group out]] ++
      (if c < 9 then [[digitRange (c + 1) 9, moreDigits rest.length n]] else []), ?_, ?_, ?_, ?_⟩
  · rw [buildMinMaxInt, if_neg (by simp), if_pos hmin, if_neg (by omega), if_neg (by omega),
      if_neg (by omega), Nat.add_sub_cancel, max_eq_left hn, Int.toNat_natCast, hdigits]
    simp only [hout]
    rfl
  · simp
  · split_ifs <;> simp [AlternativesFull, ItemsFull, Full, hne, hfull]
  · rw [Decimal.branch, hlower]
    split_ifs <;>
      simp [words_digitRange, words_moreDigits hmax, words_group hne, hwords, add_assoc]

theorem builds_max_nonneg (hb : 0 ≤ b) (hb' : b ≠ intMax) (hn : 1 ≤ n) (hmax : (n : Int) ≠ intMax)
    (h : Builds fuel 0 b (n + 1) true L) : Builds (fuel + 1) intMin b (n + 1) topLevel
      ((if topLevel then negated (digitWords (positives n)) else 0) + L) := by
  obtain ⟨out, hout, hne, hfull, rfl⟩ := h
  refine ⟨(if topLevel then [[minus, digitRange 1 9, moreDigits 0 n]] else []) ++ out, ?_,
    List.append_ne_nil_of_right_ne_nil _ hne, alternativesFull_append.2 ⟨?_, hfull⟩, ?_⟩
  · rw [buildMinMaxInt, if_neg (by simp), if_neg (by simp), if_pos hb', if_pos hb,
      Nat.add_sub_cancel, max_eq_left hn, hout]
    rfl
  · split_ifs <;> simp [AlternativesFull, ItemsFull, Full]
  · cases topLevel <;>
      simp [words_minus, words_digitRange, words_moreDigits hmax, negated, positives]

theorem builds_max_negative (hb : b < 0) (hb' : b ≠ intMin)
    (h : Builds fuel (-b) intMax n false L) :
    Builds (fuel + 1) intMin b n topLevel (negated L) := by
  obtain ⟨out, hout, hne, hfull, rfl⟩ := h
  have hmax : b ≠ intMax := by
    unfold intMax
    omega
  refine ⟨[[minus, group out]], ?_, List.cons_ne_nil _ _,
    ⟨⟨List.cons_ne_nil _ _, trivial, ⟨hne, hfull⟩, trivial⟩, trivial⟩, ?_⟩
  · rw [buildMinMaxInt, if_neg (by simp), if_neg (by simp), if_pos hmax, if_neg (by omega),
      if_neg hb', hout]
    rfl
  · simp [words_minus, words_group hne, negated]

end Cases

/-! ## What follows the first digits of a bound -/

section Suffix

variable {fuel n : ℕ}

/-- No digit but the last one is `0` or `1`. -/
def InnerHigh (ds : List Digit) : Prop := ∀ d ∈ ds.dropLast, 2 ≤ d

theorem innerHigh_single (d : Digit) : InnerHigh [d] := by simp [InnerHigh]

theorem innerHigh_cons {d : Digit} {ds : List Digit} (h : ds ≠ []) :
    InnerHigh (d :: ds) ↔ 2 ≤ d ∧ InnerHigh ds := by
  rw [InnerHigh, List.dropLast_cons_of_ne_nil h, List.forall_mem_cons]
  rfl

theorem value_single (d : Digit) : Decimal.value [d] = d := by
  simp [Decimal.value_cons]

/-- The last digit. -/
theorem builds_suffix_last (d : Digit) (hn : 1 ≤ n) (hmax : (n : Int) + 1 < intMax) :
    Builds (fuel + 1) (Decimal.value [d]) intMax (n + 1) false
      (digitWords (Decimal.atLeast [d] (n + 1))) := by
  rw [value_single]
  by_cases hd : d = 0
  · rw [hd, Decimal.atLeast_zero]
    exact builds_min_zero_suffix (by omega)
  · rw [Decimal.atLeast_cons hd, Decimal.atLeast_nil]
    exact builds_min_digit hd hn (by omega)

/-- What follows the first digits of a bound is as it should be if no digit but the last one is `0`
or `1`. A zero is forgotten in the conversion to `int`, so that fewer digits are accepted, and in
front of a one no zero is. -/
theorem builds_suffix {ds : List Digit} (hds : ds ≠ []) (hn : ds.length ≤ n)
    (hfuel : ds.length ≤ fuel) (hmax : (n : Int) + 1 < intMax) : ∃ L,
      Builds fuel (Decimal.value ds) intMax (n + 1) false (digitWords L) ∧
        (L = Decimal.atLeast ds (n + 1) ↔ InnerHigh ds) ∧
          ∃ m, 0 < m ∧ m ≤ ds.length ∧ Decimal.nines m ∈ L := by
  induction ds generalizing fuel n with
  | nil => exact absurd rfl hds
  | cons d ds ih =>
    rw [List.length_cons] at hn hfuel
    obtain ⟨fuel, rfl⟩ : ∃ m, fuel = m + 1 := ⟨fuel - 1, by omega⟩
    by_cases hrest : ds = []
    · subst hrest
      exact ⟨_, builds_suffix_last d hn hmax, iff_of_true rfl (innerHigh_single d), 1,
        Nat.one_pos, le_rfl, Decimal.nines_mem_atLeast (by simp)⟩
    rw [innerHigh_cons hrest]
    by_cases hd : d = 0
    · -- the number is that of the rest
      subst hd
      have hvalue : Decimal.value (0 :: ds) = Decimal.value ds := by
        simp [Decimal.value_cons]
      obtain ⟨L, hL, -, m, hm, hle, hnines⟩ := @ih (fuel + 1) n hrest (by omega) (by omega) hmax
      rw [hvalue]
      refine ⟨L, hL, iff_of_false ?_ (fun h => absurd h.1 (by decide)), m, hm,
        hle.trans (Nat.le_succ _), hnines⟩
      rintro rfl
      have hlen := hnines.1
      rw [List.length_cons, Decimal.length_nines] at hlen
      omega
    obtain ⟨n, rfl⟩ : ∃ m, n = m + 1 := ⟨n - 1, by omega⟩
    obtain ⟨L, hL, hiff, m, hm, hle, hnines⟩ :=
      @ih fuel n hrest (by omega) (by omega) (by omega)
    refine ⟨_, builds_min_more hd hrest (by omega) (by omega) hL, ?_, ?_⟩
    · rw [Decimal.atLeast_cons hd]
      by_cases hone : 1 < d
      · have hstart : lowerStart false d ds = 0 := if_pos (.inl hone)
        have htwo : 2 ≤ d := Fin.add_one_le_of_lt hone
        rw [hstart, Decimal.branch_inj hd, hiff, and_iff_right htwo]
      · obtain rfl : d = 1 := le_antisymm (not_lt.1 hone) (Fin.one_le_of_ne_zero hd)
        refine iff_of_false (fun heq => ?_) fun h => absurd h.1 (by decide)
        have hmem : 0 :: Decimal.zeros (ds.length + 1) ∈
            Decimal.branch 0 1 ds.length (n + 1) (Decimal.atLeast ds (n + 1)) :=
          (Decimal.cons_mem_branch hd).2 (.inl ⟨le_rfl, by decide, by simp, by simp; omega⟩)
        have hstart : lowerStart false 1 ds = 1 := if_neg (by simpa using hrest)
        rw [← heq, hstart, Decimal.cons_mem_branch hd] at hmem
        rcases hmem with ⟨h, -⟩ | ⟨h, -⟩ | ⟨h, -⟩
        · exact absurd h (by decide)
        · exact absurd h (by decide)
        · exact absurd h (by decide)
    · rcases (Fin.le_last d).lt_or_eq with hnine | hnine
      · refine ⟨ds.length + 1, Nat.succ_pos _, le_rfl, (Decimal.cons_mem_branch hd).2 ?_⟩
        exact .inr (.inr ⟨hnine, by simp, by simp; omega⟩)
      · refine ⟨m + 1, Nat.succ_pos _, Nat.succ_le_succ hle, (Decimal.cons_mem_branch hd).2 ?_⟩
        exact .inr (.inl ⟨hnine.symm, hnines⟩)

/-- The expression for a positive lower bound. -/
theorem builds_min_positive (topLevel : Bool) {c : Digit} {rest : List Digit} (hc : c ≠ 0)
    (hrest : rest.length ≤ 10) (hfuel : 11 ≤ fuel) : ∃ L,
      Builds fuel (Decimal.value (c :: rest)) intMax 16 topLevel
        (digitWords (Decimal.branch (lowerStart topLevel c rest) c rest.length 15 L)) ∧
          (L = Decimal.atLeast rest 15 ↔ InnerHigh rest) := by
  obtain ⟨fuel, rfl⟩ : ∃ m, fuel = m + 1 := ⟨fuel - 1, by omega⟩
  by_cases h : rest = []
  · subst h
    have hstart : lowerStart topLevel c [] = startDigit topLevel := if_pos (.inr rfl)
    refine ⟨_, ?_, iff_of_true (Decimal.atLeast_nil 15).symm (by simp [InnerHigh])⟩
    rw [value_single, hstart]
    exact builds_min_digit hc (by decide) (by decide)
  · obtain ⟨L, hL, hiff, -⟩ := @builds_suffix fuel 14 rest h (by omega) (by omega) (by decide)
    exact ⟨L, builds_min_more hc h (by decide) (by decide) hL, hiff⟩

theorem length_tail_le {m : ℕ} (hm : (m : Int) ≤ intMax) {c : Digit} {rest : List Digit}
    (h : Decimal.ofNat m = c :: rest) : rest.length ≤ 10 := by
  have hlen := (Decimal.canonical_ofNat m).length_le_of_lt (k := 10) (by decide) (by
    rw [Decimal.value_ofNat]
    unfold intMax at hm
    omega)
  rw [h, List.length_cons] at hlen
  omega

/-- From a lower bound on there are numerals with sixteen digits. -/
theorem exists_builds_long (topLevel : Bool) {m : ℕ} (hm : (m : Int) ≤ intMax) (hfuel : 11 ≤ fuel)
    (hzero : m = 0 → topLevel = true) : ∃ L, Builds fuel m intMax 16 topLevel (digitWords L) ∧
      ∃ ds ∈ L, Canonical ds ∧ ds.length = 16 := by
  by_cases h : m = 0
  · obtain rfl := hzero h
    subst h
    obtain ⟨fuel, rfl⟩ : ∃ m, fuel = m + 1 := ⟨fuel - 1, by omega⟩
    have hcanon : Canonical (Decimal.nines 16) := Decimal.canonical_cons.2 (.inl (by decide))
    refine ⟨_, builds_min_zero (by decide) (by decide), Decimal.nines 16, ?_, hcanon, rfl⟩
    rw [positives, ← Decimal.numeralsFrom_zero]
    exact ⟨hcanon, Nat.zero_le _, le_rfl⟩
  · obtain ⟨c, rest, hc, rfl, hdigits⟩ := Decimal.exists_value_cons h
    have hlen := length_tail_le hm hdigits
    obtain ⟨L, hL, -⟩ := builds_min_positive topLevel hc hlen hfuel
    have hstart : lowerStart topLevel c rest ≤ 1 := by
      unfold lowerStart startDigit
      split_ifs <;> decide
    exact ⟨_, hL, Decimal.exists_long_mem_branch hc hstart (by omega)⟩

end Suffix

end LamaServer
