import LamaServer.Lib.Decimal
import Mathlib.Computability.Language

/-!
# Languages of numerals

The numerals between two bounds, and those from a bound on, by their first digit.
-/

namespace Decimal

variable {a b d f u : Digit} {s t ds w : List Digit} {L : Language Digit}

/-! ## Numerals between bounds -/

/-- One digit between two. -/
def oneOf (a b : Digit) : Language Digit := {w | ∃ d, a ≤ d ∧ d ≤ b ∧ w = [d]}

/-- As many digits as are allowed. -/
def lengths (lo hi : ℕ) : Language Digit := {w | lo ≤ w.length ∧ w.length ≤ hi}

/-- The numerals between two of one length. -/
def between (s t : List Digit) : Language Digit :=
  {w | w.length = s.length ∧ value s ≤ value w ∧ value w ≤ value t}

theorem mem_lengths {lo hi : ℕ} : w ∈ lengths lo hi ↔ lo ≤ w.length ∧ w.length ≤ hi := Iff.rfl

theorem mem_between :
    w ∈ between s t ↔ w.length = s.length ∧ value s ≤ value w ∧ value w ≤ value t := Iff.rfl

theorem nil_notMem_oneOf_mul (a b : Digit) (L : Language Digit) : [] ∉ oneOf a b * L := by
  rintro ⟨_, ⟨d, -, -, rfl⟩, v, -, h⟩
  cases h

@[simp] theorem cons_mem_oneOf_mul : d :: w ∈ oneOf a b * L ↔ (a ≤ d ∧ d ≤ b) ∧ w ∈ L := by
  constructor
  · rintro ⟨_, ⟨d, ha, hb, rfl⟩, v, hv, h⟩
    cases h
    exact ⟨⟨ha, hb⟩, hv⟩
  · rintro ⟨⟨ha, hb⟩, hw⟩
    exact ⟨[d], ⟨d, ha, hb, rfl⟩, w, hw, rfl⟩

/-- So many digits are one digit after the other. -/
theorem oneOf_pow : ∀ n : ℕ, oneOf 0 9 ^ n = lengths n n
  | 0 => by
    ext w
    rw [pow_zero, Language.mem_one, mem_lengths, ← List.length_eq_zero_iff]
    omega
  | n + 1 => by
    rw [pow_succ', oneOf_pow n]
    ext w
    rcases w with _ | ⟨d, w⟩
    · refine iff_of_false (nil_notMem_oneOf_mul 0 9 _) ?_
      rintro ⟨h, -⟩
      cases h
    · rw [cons_mem_oneOf_mul, mem_lengths, mem_lengths, List.length_cons, Nat.add_le_add_iff_right,
        Nat.add_le_add_iff_right]
      exact and_iff_right ⟨Fin.zero_le d, Fin.le_last d⟩

theorem cons_mem_between (hst : s.length = t.length) : d :: w ∈ between (f :: s) (u :: t) ↔
    w.length = s.length ∧ (f < d ∨ f = d ∧ value s ≤ value w) ∧
      (d < u ∨ d = u ∧ value w ≤ value t) := by
  rw [mem_between, List.length_cons, List.length_cons, Nat.add_right_cancel_iff]
  refine and_congr_right fun hw => ?_
  rw [value_cons_le hw.symm, value_cons_le (hw.trans hst)]

theorem nil_notMem_between (f : Digit) (s t : List Digit) : [] ∉ between (f :: s) t :=
  fun h => by cases h.1

theorem between_cons (d : Digit) (h : s.length = t.length) :
    between (d :: s) (d :: t) = oneOf d d * between s t := by
  ext w
  rcases w with _ | ⟨e, w⟩
  · exact iff_of_false (nil_notMem_between d s _) (nil_notMem_oneOf_mul d d _)
  rw [cons_mem_between h, cons_mem_oneOf_mul, mem_between]
  constructor
  · rintro ⟨hlen, hs, ht⟩
    have hs' : d ≤ e := hs.elim le_of_lt fun h => h.1.le
    have ht' : e ≤ d := ht.elim le_of_lt fun h => h.1.le
    obtain rfl := le_antisymm hs' ht'
    exact ⟨⟨hs', ht'⟩, hlen, (hs.resolve_left (lt_irrefl _)).2, (ht.resolve_left (lt_irrefl _)).2⟩
  · rintro ⟨⟨hs', ht'⟩, hlen, hs, ht⟩
    obtain rfl := le_antisymm hs' ht'
    exact ⟨hlen, .inr ⟨rfl, hs⟩, .inr ⟨rfl, ht⟩⟩

theorem singleton_cons (d : Digit) (p : List Digit) :
    ({d :: p} : Language Digit) = oneOf d d * {p} := by
  ext w
  constructor
  · rintro rfl
    exact cons_mem_oneOf_mul.2 ⟨⟨le_rfl, le_rfl⟩, rfl⟩
  · rcases w with _ | ⟨e, w⟩
    · exact fun h => absurd h (nil_notMem_oneOf_mul d d _)
    · rw [cons_mem_oneOf_mul]
      rintro ⟨⟨h, h'⟩, rfl⟩
      rw [le_antisymm h h']
      rfl

/-- Up to the first digit that differs, the numerals between two have the same digits. -/
theorem between_append (h : s.length = t.length) : ∀ p : List Digit,
    between (p ++ s) (p ++ t) = {p} * between s t
  | [] => (one_mul _).symm
  | d :: p => by
    rw [List.cons_append, List.cons_append, between_cons d (by simpa using h),
      between_append h p, singleton_cons, mul_assoc]

theorem between_self (s : List Digit) : between s s = {s} := by
  have hnil : between [] [] = 1 := by
    ext w
    rw [mem_between, Language.mem_one, ← List.length_eq_zero_iff]
    refine ⟨fun h => h.1, fun h => ⟨h, ?_⟩⟩
    rw [List.length_eq_zero_iff.1 h]
    simp
  have h := between_append (s := []) (t := []) rfl s
  rwa [List.append_nil, hnil, mul_one] at h

theorem between_single (f u : Digit) : between [f] [u] = oneOf f u := by
  ext w
  rw [mem_between]
  constructor
  · rintro ⟨hlen, hf, hu⟩
    obtain ⟨d, rfl⟩ := List.length_eq_one_iff.1 hlen
    exact ⟨d, Fin.le_def.2 (by simpa [value_cons] using hf),
      Fin.le_def.2 (by simpa [value_cons] using hu), rfl⟩
  · rintro ⟨d, hf, hu, rfl⟩
    exact ⟨rfl, by simpa [value_cons] using hf, by simpa [value_cons] using hu⟩

theorem between_zeros_nines (n : ℕ) : between (zeros n) (nines n) = lengths n n := by
  ext w
  rw [mem_between, mem_lengths, length_zeros, value_zeros, ← le_antisymm_iff, eq_comm]
  refine and_iff_left_of_imp ?_
  rintro rfl
  exact ⟨Nat.zero_le _, value_le_nines w⟩

theorem oneOf_of_lt (h : b < a) : oneOf a b = 0 := by
  ext w
  refine iff_of_false ?_ (Language.notMem_zero w)
  rintro ⟨d, ha, hb, -⟩
  exact absurd (ha.trans hb) (not_le.2 h)

theorem add_one_le_iff (h : f < u) : f + 1 ≤ d ↔ f < d := by
  revert f u d
  decide

theorem le_sub_one_iff (h : f < u) : d ≤ u - 1 ↔ d < u := by
  revert f u d
  decide

theorem oneOf_add_right (h : f < u) : oneOf f f + oneOf (f + 1) u = oneOf f u := by
  ext w
  constructor
  · rintro (⟨d, ha, hb, rfl⟩ | ⟨d, ha, hb, rfl⟩)
    · exact ⟨d, ha, hb.trans h.le, rfl⟩
    · exact ⟨d, ((add_one_le_iff h).1 ha).le, hb, rfl⟩
  · rintro ⟨d, ha, hb, rfl⟩
    rcases ha.lt_or_eq with ha | rfl
    · exact .inr ⟨d, (add_one_le_iff h).2 ha, hb, rfl⟩
    · exact .inl ⟨f, le_rfl, le_rfl, rfl⟩

theorem oneOf_add_pred (h : f < u) :
    oneOf f f + oneOf (f + 1) (u - 1) = oneOf f (u - 1) := by
  rcases ((le_sub_one_iff h).2 h).lt_or_eq with hlt | heq
  · exact oneOf_add_right hlt
  · have hnone : oneOf (f + 1) f = 0 := oneOf_of_lt ((add_one_le_iff h).1 le_rfl)
    rw [← heq, hnone, add_zero]

theorem oneOf_add_left (h : f < u) : oneOf (f + 1) (u - 1) + oneOf u u = oneOf (f + 1) u := by
  ext w
  constructor
  · rintro (⟨d, ha, hb, rfl⟩ | ⟨d, ha, hb, rfl⟩)
    · exact ⟨d, ha, ((le_sub_one_iff h).1 hb).le, rfl⟩
    · exact ⟨d, (add_one_le_iff h).2 (h.trans_le ha), hb, rfl⟩
  · rintro ⟨d, ha, hb, rfl⟩
    rcases hb.lt_or_eq with hb | rfl
    · exact .inl ⟨d, ha, (le_sub_one_iff h).2 hb, rfl⟩
    · exact .inr ⟨d, le_rfl, le_rfl, rfl⟩

/-- Behind the lower first digit the rest goes up to nines, behind the upper one it starts with
zeros, and in between it is free. -/
theorem between_of_lt (h : s.length = t.length) (hlt : f < u) :
    between (f :: s) (u :: t) = oneOf f f * between s (nines s.length) +
      oneOf (f + 1) (u - 1) * lengths s.length s.length +
        oneOf u u * between (zeros s.length) t := by
  ext w
  rcases w with _ | ⟨d, w⟩
  · refine iff_of_false (nil_notMem_between f s _) ?_
    rintro ((h | h) | h) <;> exact nil_notMem_oneOf_mul _ _ _ h
  rw [cons_mem_between h, Language.mem_add, Language.mem_add, cons_mem_oneOf_mul,
    cons_mem_oneOf_mul, cons_mem_oneOf_mul, mem_between, mem_between, mem_lengths, length_zeros,
    value_zeros, add_one_le_iff hlt, le_sub_one_iff hlt, ← le_antisymm_iff, ← le_antisymm_iff,
    ← le_antisymm_iff]
  have hnines := value_le_nines w
  constructor
  · rintro ⟨hlen, hd | ⟨rfl, hs⟩, hd' | ⟨rfl, ht⟩⟩
    · exact .inl (.inr ⟨⟨hd, hd'⟩, hlen.symm⟩)
    · exact .inr ⟨rfl, hlen, Nat.zero_le _, ht⟩
    · exact .inl (.inl ⟨rfl, hlen, hs, hlen ▸ hnines⟩)
    · exact absurd hlt (lt_irrefl _)
  · rintro ((⟨rfl, hlen, hs, -⟩ | ⟨⟨hd, hd'⟩, hlen⟩) | ⟨rfl, hlen, -, ht⟩)
    · exact ⟨hlen, .inr ⟨rfl, hs⟩, .inl hlt⟩
    · exact ⟨hlen.symm, .inl hd, .inl hd'⟩
    · exact ⟨hlen, .inl hlt, .inr ⟨rfl, ht⟩⟩

/-- The numerals of the numbers between two, without superfluous zeros. -/
def numerals (m n : ℕ) : Language Digit := {w | Canonical w ∧ m ≤ value w ∧ value w ≤ n}

theorem mem_numerals {m n : ℕ} : w ∈ numerals m n ↔ Canonical w ∧ m ≤ value w ∧ value w ≤ n :=
  Iff.rfl

theorem Canonical.of_le (hs : Canonical s) (h : w.length = s.length) (hle : value s ≤ value w) :
    Canonical w := by
  have hne : w ≠ [] := by
    rintro rfl
    exact hs.1 (List.length_eq_zero_iff.1 h.symm)
  obtain ⟨d, w, rfl⟩ := List.exists_cons_of_ne_nil hne
  by_cases hd : d = 0
  · refine canonical_cons.2 (.inr ?_)
    by_contra hw
    have hlt : value w < value s := value_lt_of_length hw hs (by rw [← h]; simp)
    rw [hd, value_cons, Fin.val_zero, Nat.zero_mul, Nat.zero_add] at hle
    exact absurd hlt (not_lt.2 hle)
  · exact canonical_cons.2 (.inl hd)

theorem between_eq_numerals (hs : Canonical s) (h : s.length = t.length) :
    between s t = numerals (value s) (value t) := by
  ext w
  rw [mem_between, mem_numerals]
  refine ⟨fun hw => ⟨hs.of_le hw.1 hw.2.1, hw.2⟩, fun hw => ⟨?_, hw.2⟩⟩
  have ht : t ≠ [] := by
    rintro rfl
    exact hs.1 (List.length_eq_zero_iff.1 h)
  rcases Nat.lt_trichotomy w.length s.length with hlt | heq | hgt
  · exact absurd hw.2.1 (not_le.2 (value_lt_of_length hw.1.1 hs hlt))
  · exact heq
  · exact absurd hw.2.2 (not_le.2 (value_lt_of_length ht hw.1 (h ▸ hgt)))

theorem value_one_zeros (n : ℕ) : value (1 :: zeros n) = value (nines n) + 1 := by
  rw [value_cons, value_zeros, length_zeros, value_nines]
  simp

theorem Canonical.value_nines_lt (hs : s ≠ []) (ht : Canonical t) (h : s.length < t.length) :
    value (nines s.length) < value t := by
  refine value_lt_of_length ?_ ht (by rwa [length_nines])
  rw [← List.length_pos_iff, length_nines]
  exact List.length_pos_iff.2 hs

/-- Behind the numerals of one length those of the next one start. -/
theorem numerals_of_lt (hs : Canonical s) (ht : Canonical t) (h : s.length < t.length) :
    numerals (value s) (value t) =
      between s (nines s.length) + numerals (value (1 :: zeros s.length)) (value t) := by
  have hle : value s ≤ value (nines s.length) := value_le_nines s
  have hlt := ht.value_nines_lt hs.1 h
  rw [between_eq_numerals hs (length_nines _).symm, value_one_zeros]
  ext w
  rw [Language.mem_add, mem_numerals, mem_numerals, mem_numerals]
  constructor
  · rintro ⟨hw, hge, hle⟩
    rcases Nat.lt_or_ge (value (nines s.length)) (value w) with hlt | hge'
    · exact .inr ⟨hw, hlt, hle⟩
    · exact .inl ⟨hw, hge, hge'⟩
  · rintro (⟨hw, hge, hle'⟩ | ⟨hw, hge, hle'⟩)
    · exact ⟨hw, hge, hle'.trans hlt.le⟩
    · exact ⟨hw, by omega, hle'⟩

/-! ## Numerals from a bound on -/

variable {c e : Digit} {k n : ℕ} {L' : Language Digit}

/-- The numerals of the numbers from one on, with so many digits at most. -/
def numeralsFrom (m n : ℕ) : Language Digit := {w | Canonical w ∧ m ≤ value w ∧ w.length ≤ n}

/-- What may follow a prefix if `ds` is the least of its length. -/
def atLeast (ds : List Digit) (n : ℕ) : Language Digit :=
  {w | (ds.length < w.length ∨ w.length = ds.length ∧ value ds ≤ value w) ∧ w.length ≤ n}

/-- `L` stands behind `c`. Behind a greater digit there are `k` digits or more, and behind a smaller
one from `a` on there are more. -/
def branch (a c : Digit) (k n : ℕ) (L : Language Digit) : Language Digit :=
  oneOf a (c - 1) * lengths (k + 1) n + oneOf c c * L +
    if c < 9 then oneOf (c + 1) 9 * lengths k n else 0

theorem mem_numeralsFrom {m : ℕ} :
    w ∈ numeralsFrom m n ↔ Canonical w ∧ m ≤ value w ∧ w.length ≤ n := Iff.rfl

theorem mem_atLeast : w ∈ atLeast ds n ↔
    (ds.length < w.length ∨ w.length = ds.length ∧ value ds ≤ value w) ∧ w.length ≤ n := Iff.rfl

theorem nil_notMem_branch : [] ∉ branch a c k n L := by
  rintro ((h | h) | h)
  · exact nil_notMem_oneOf_mul _ _ _ h
  · exact nil_notMem_oneOf_mul _ _ _ h
  · split_ifs at h
    · exact nil_notMem_oneOf_mul _ _ _ h
    · exact Language.notMem_zero _ h

theorem cons_mem_branch (hc : c ≠ 0) : e :: w ∈ branch a c k n L ↔
    (a ≤ e ∧ e < c ∧ k < w.length ∧ w.length ≤ n) ∨ (e = c ∧ w ∈ L) ∨
      (c < e ∧ k ≤ w.length ∧ w.length ≤ n) := by
  have hpred : e ≤ c - 1 ↔ e < c := le_sub_one_iff (Fin.pos_iff_ne_zero.2 hc)
  have hlast : (e :: w ∈ if c < 9 then oneOf (c + 1) 9 * lengths k n else 0) ↔
      c < e ∧ k ≤ w.length ∧ w.length ≤ n := by
    split_ifs with h
    · have hle : e ≤ 9 := Fin.le_last e
      rw [cons_mem_oneOf_mul, add_one_le_iff h, and_iff_left hle, mem_lengths]
    · refine iff_of_false (Language.notMem_zero _) fun hlt => h (hlt.1.trans_le (Fin.le_last e))
  rw [branch, Language.mem_add, Language.mem_add, hlast, cons_mem_oneOf_mul, cons_mem_oneOf_mul,
    hpred, mem_lengths, Nat.succ_le_iff, ← le_antisymm_iff, eq_comm (a := c), or_assoc, and_assoc]

/-- The rest of a numeral is not bounded but by the number of digits. -/
theorem exists_long_mem_branch (hc : c ≠ 0) (ha : a ≤ 1) (hk : k < n) :
    ∃ w ∈ branch a c k n L, Canonical w ∧ w.length = n + 1 := by
  have hlen := length_nines n
  rcases (Fin.le_last c).lt_or_eq with hlt | heq
  · refine ⟨9 :: nines n, (cons_mem_branch hc).2 (.inr (.inr ⟨hlt, ?_, ?_⟩)),
      canonical_cons.2 (.inl (by decide)), by simp⟩
    · omega
    · omega
  · have hone : 1 < c := heq ▸ (by decide)
    refine ⟨1 :: nines n, (cons_mem_branch hc).2 (.inl ⟨ha, hone, ?_, ?_⟩),
      canonical_cons.2 (.inl (by decide)), by simp⟩
    · omega
    · omega

theorem branch_inj (hc : c ≠ 0) : branch a c k n L = branch a c k n L' ↔ L = L' := by
  refine ⟨fun h => ?_, fun h => by rw [h]⟩
  ext w
  have hmem : c :: w ∈ branch a c k n L ↔ c :: w ∈ branch a c k n L' := by rw [h]
  simpa [cons_mem_branch hc] using hmem

/-- With nothing behind `c` the digits from `c` on are alike. -/
theorem branch_lengths (hc : c ≠ 0) : branch a c 0 n (lengths 0 n) =
    (if a < c then oneOf a (c - 1) * lengths 1 n else 0) + oneOf c 9 * lengths 0 n := by
  have hlower : oneOf a (c - 1) * lengths 1 n =
      if a < c then oneOf a (c - 1) * lengths 1 n else 0 := by
    split_ifs with h
    · rfl
    · have hpred : a ≤ c - 1 ↔ a < c := le_sub_one_iff (Fin.pos_iff_ne_zero.2 hc)
      rw [oneOf_of_lt (not_le.1 (hpred.not.2 h)), zero_mul]
  have hupper : oneOf c c * lengths 0 n +
      (if c < 9 then oneOf (c + 1) 9 * lengths 0 n else 0) = oneOf c 9 * lengths 0 n := by
    split_ifs with h
    · rw [← add_mul, oneOf_add_right h]
    · obtain rfl : c = 9 := le_antisymm (Fin.le_last c) (not_lt.1 h)
      exact add_zero _
  rw [← hlower, ← hupper, branch, add_assoc]

theorem atLeast_nil (n : ℕ) : atLeast [] n = lengths 0 n := by
  ext w
  rw [mem_atLeast, mem_lengths]
  refine and_congr_left fun _ => iff_of_true ?_ (Nat.zero_le _)
  rcases w with _ | ⟨d, w⟩
  · exact .inr ⟨rfl, le_rfl⟩
  · exact .inl (Nat.succ_pos _)

theorem atLeast_zero (n : ℕ) : atLeast [0] n = lengths 1 n := by
  ext w
  have hzero : value [0] = 0 := rfl
  rw [mem_atLeast, mem_lengths, hzero, and_iff_left (Nat.zero_le _), List.length_singleton]
  omega

theorem nines_mem_atLeast (h : ds.length ≤ n) : nines ds.length ∈ atLeast ds n := by
  refine ⟨.inr ⟨length_nines _, value_le_nines ds⟩, ?_⟩
  rwa [length_nines]

/-- A numeral of another length than `ds`, or not less than it, behind a first digit. -/
theorem cons_atLeast_iff (c e : Digit) (ds w : List Digit) :
    (((c :: ds).length < (e :: w).length ∨
      (e :: w).length = (c :: ds).length ∧ value (c :: ds) ≤ value (e :: w)) ∧
        (e :: w).length ≤ n + 1) ↔
    (e < c ∧ ds.length < w.length ∧ w.length ≤ n) ∨ (e = c ∧ w ∈ atLeast ds n) ∨
      (c < e ∧ ds.length ≤ w.length ∧ w.length ≤ n) := by
  rw [List.length_cons, List.length_cons, Nat.add_lt_add_iff_right, Nat.add_right_cancel_iff,
    Nat.add_le_add_iff_right, mem_atLeast]
  have hvalue (hlen : w.length = ds.length) : value (c :: ds) ≤ value (e :: w) ↔
      c < e ∨ c = e ∧ value ds ≤ value w := value_cons_le hlen.symm
  rcases lt_trichotomy e c with hlt | rfl | hgt
  · have hnot := hlt.not_gt
    have hne := hlt.ne
    constructor
    · rintro ⟨h | ⟨hlen, h⟩, hn⟩
      · exact .inl ⟨hlt, h, hn⟩
      · exact absurd ((hvalue hlen).1 h) (by simp [hnot, hne.symm])
    · rintro (⟨-, h, hn⟩ | ⟨h, -⟩ | ⟨h, -⟩)
      · exact ⟨.inl h, hn⟩
      · exact absurd h hne
      · exact absurd h hnot
  · simp only [lt_irrefl, false_and, true_and, false_or, or_false]
    refine and_congr_left fun _ => or_congr_right (and_congr_right fun hlen => ?_)
    simp [hvalue hlen]
  · have hnot := hgt.not_gt
    have hne := hgt.ne
    constructor
    · rintro ⟨h | ⟨hlen, -⟩, hn⟩
      · exact .inr (.inr ⟨hgt, h.le, hn⟩)
      · exact .inr (.inr ⟨hgt, hlen.ge, hn⟩)
    · rintro (⟨h, -⟩ | ⟨h, -⟩ | ⟨-, h, hn⟩)
      · exact absurd h hnot
      · exact absurd h hne.symm
      · refine ⟨h.lt_or_eq.imp_right fun heq => ⟨heq.symm, (hvalue heq.symm).2 (.inl hgt)⟩, hn⟩

theorem atLeast_cons (hc : c ≠ 0) (ds : List Digit) (n : ℕ) :
    atLeast (c :: ds) (n + 1) = branch 0 c ds.length n (atLeast ds n) := by
  ext w
  rcases w with _ | ⟨e, w⟩
  · refine iff_of_false ?_ nil_notMem_branch
    rintro ⟨h | ⟨h, -⟩, -⟩ <;> cases h
  · rw [mem_atLeast, cons_atLeast_iff, cons_mem_branch hc, and_iff_right (Fin.zero_le e)]

/-- A number that has no fewer digits is not less, apart from its first digits. -/
theorem Canonical.value_le_iff (hs : Canonical s) (ht : Canonical t) : value s ≤ value t ↔
    s.length < t.length ∨ t.length = s.length ∧ value s ≤ value t := by
  constructor
  · intro h
    rcases (hs.length_le ht.1 h).lt_or_eq with hlt | heq
    · exact .inl hlt
    · exact .inr ⟨heq.symm, h⟩
  · rintro (h | ⟨-, h⟩)
    · exact (value_lt_of_length hs.1 ht h).le
    · exact h

theorem numeralsFrom_cons (hc : c ≠ 0) (ds : List Digit) (n : ℕ) :
    numeralsFrom (value (c :: ds)) (n + 1) = branch 1 c ds.length n (atLeast ds n) := by
  have hs : Canonical (c :: ds) := canonical_cons.2 (.inl hc)
  ext w
  rcases w with _ | ⟨e, w⟩
  · exact iff_of_false (fun h => h.1.1 rfl) nil_notMem_branch
  rw [mem_numeralsFrom, cons_mem_branch hc]
  by_cases he : e = 0
  · subst he
    refine iff_of_false ?_ ?_
    · rintro ⟨ht, hle, -⟩
      obtain rfl := (canonical_cons.1 ht).resolve_left fun h => h rfl
      have hpow := pow_le_value hc ds
      have hpos : 0 < 10 ^ ds.length := by positivity
      have hzero : value [0] = 0 := rfl
      omega
    · rintro (⟨h, -⟩ | ⟨h, -⟩ | ⟨h, -⟩)
      · exact absurd h (by decide)
      · exact hc h.symm
      · exact absurd h (Fin.not_lt_zero c)
  · have ht : Canonical (e :: w) := canonical_cons.2 (.inl he)
    have hone : 1 ≤ e := Fin.one_le_of_ne_zero he
    rw [and_iff_right ht, hs.value_le_iff ht, cons_atLeast_iff, and_iff_right hone]

theorem numeralsFrom_zero (n : ℕ) :
    numeralsFrom 0 (n + 1) = oneOf 0 0 + oneOf 1 9 * lengths 0 n := by
  ext w
  rw [mem_numeralsFrom, and_iff_right (Nat.zero_le _), Language.mem_add]
  rcases w with _ | ⟨e, w⟩
  · refine iff_of_false (fun h => h.1.1 rfl) ?_
    rintro (⟨d, -, -, h⟩ | h)
    · cases h
    · exact nil_notMem_oneOf_mul _ _ _ h
  have hzero : e :: w ∈ oneOf 0 0 ↔ e = 0 ∧ w = [] := by
    constructor
    · rintro ⟨d, hle, hge, h⟩
      obtain ⟨rfl, rfl⟩ := List.cons.inj h
      exact ⟨le_antisymm hge hle, rfl⟩
    · rintro ⟨rfl, rfl⟩
      exact ⟨0, le_rfl, le_rfl, rfl⟩
  have hlast : e ≤ 9 := Fin.le_last e
  have hone : 1 ≤ e ↔ e ≠ 0 := ⟨fun h => (Fin.zero_lt_one.trans_le h).ne', Fin.one_le_of_ne_zero⟩
  rw [canonical_cons, cons_mem_oneOf_mul, mem_lengths, hzero, and_iff_left hlast,
    hone, and_iff_right (Nat.zero_le _), List.length_cons,
    Nat.add_le_add_iff_right]
  constructor
  · rintro ⟨h | h, hlen⟩
    · exact .inr ⟨h, hlen⟩
    · by_cases he : e = 0
      · exact .inl ⟨he, h⟩
      · exact .inr ⟨he, hlen⟩
  · rintro (⟨-, rfl⟩ | ⟨h, hlen⟩)
    · exact ⟨.inr rfl, Nat.zero_le _⟩
    · exact ⟨.inl h, hlen⟩

theorem numeralsFrom_one (n : ℕ) : numeralsFrom 1 (n + 1) = oneOf 1 9 * lengths 0 n := by
  have hone : (1 : Digit) ≠ 0 := by decide
  have h := numeralsFrom_cons hone [] n
  have hvalue : value [1] = 1 := rfl
  rwa [hvalue, atLeast_nil, List.length_nil, branch_lengths hone, if_neg (lt_irrefl _),
    zero_add] at h

end Decimal
