import LamaServer.Lib.Except
import LamaServer.Lib.Utf8
import LamaServer.Unicode
import Mathlib.Algebra.Order.BigOperators.Group.List
import Mathlib.Algebra.Order.Ring.Nat

/-!
# Pre-tokenization loses nothing

The splitters cut the code points of a text into words and leave none out. What is decoded is
encoded again, so a text comes back if each of its characters is the encoding of its code point.
The decoder also takes longer encodings and code points above U+10FFFF; the former come back
shorter, and the encoder throws on the latter.
-/

namespace LamaServer

/-- A character is the shortest encoding of its code point, and that is at most U+10FFFF. -/
def isCanonical : Text → Bool
  | [c, _] => 0xC2 ≤ c
  | [c, c1, _] => c ≠ 0xE0 ∨ 0xA0 ≤ c1
  | [c, c1, _, _] => (c ≠ 0xF0 ∨ 0x90 ≤ c1) ∧ (c < 0xF4 ∨ c = 0xF4 ∧ c1 < 0x90)
  | _ => true

/-- The characters that `unicode_cpts_from_utf8` decodes, with their code points; U+FFFD stands for
a byte that it cannot decode. -/
def decodedPieces : Text → List (Text × UInt32)
  | [] => []
  | c :: utf8 =>
    match unicodeCptFromUtf8 (c :: utf8) with
    | some (cpt, n) => ((c :: utf8).take n, cpt) :: decodedPieces (utf8.drop (n - 1))
    | none => ([0xEF, 0xBF, 0xBD], 0xFFFD) :: decodedPieces utf8
  termination_by utf8 => utf8.length

/-- The text with U+FFFD for each byte that cannot be decoded. -/
def replaceInvalid (text : Text) : Text := (decodedPieces text).flatMap (·.1)

/-! ## One character -/

section Char

variable {c c1 c2 c3 : UInt8} {cpt mark bits : UInt32} {rest bytes : Text} {n m k : Nat}

/-- What the first bytes of `unicode_cpt_from_utf8` are told apart by. -/
theorem byte_tests : ∀ n < 256,
    (UInt8.ofNat n &&& 0x80 = 0 ↔ n < 0x80) ∧ (0x80 ≤ n → (UInt8.ofNat n &&& 0x40 = 0 ↔ n < 0xC0)) ∧
    (0xC0 ≤ n → (UInt8.ofNat n &&& 0x20 = 0 ↔ n < 0xE0)) ∧
    (0xE0 ≤ n → (UInt8.ofNat n &&& 0x10 = 0 ↔ n < 0xF0)) ∧
    (0xF0 ≤ n → (UInt8.ofNat n &&& 0x08 = 0 ↔ n < 0xF8)) ∧
    (isContinuation (UInt8.ofNat n) ↔ 0x80 ≤ n ∧ n < 0xC0) := by
  decide +kernel

theorem isContinuation_iff : isContinuation c ↔ 0x80 ≤ c.toNat ∧ c.toNat < 0xC0 := by
  simpa using (byte_tests c.toNat c.toNat_lt).2.2.2.2.2

theorem bits_toNat {mask : UInt8} (hmask : mask.toNat = 2 ^ k - 1) :
    (c &&& mask).toUInt32.toNat = c.toNat % 2 ^ k := by
  rw [UInt8.toNat_toUInt32, UInt8.toNat_and, hmask, Nat.and_two_pow_sub_one_eq_mod]

theorem two_toNat : (((c &&& 0x1f).toUInt32 <<< 6) ||| (c1 &&& 0x3f).toUInt32).toNat =
    c.toNat % 2 ^ 5 * 2 ^ 6 + c1.toNat % 2 ^ 6 := by
  have hc : (c &&& 0x1f).toUInt32.toNat = c.toNat % 2 ^ 5 := bits_toNat rfl
  have hc1 : (c1 &&& 0x3f).toUInt32.toNat = c1.toNat % 2 ^ 6 := bits_toNat rfl
  have h6 : UInt32.toNat 6 = 6 := rfl
  rw [Utf8.toNat_or_shift (by decide) (by rw [hc, h6]; omega) (by rw [hc1, h6]; omega), hc, hc1, h6]

theorem three_toNat : (((c &&& 0x0f).toUInt32 <<< 12) ||| ((c1 &&& 0x3f).toUInt32 <<< 6)
    ||| (c2 &&& 0x3f).toUInt32).toNat =
      c.toNat % 2 ^ 4 * 2 ^ 12 + (c1.toNat % 2 ^ 6 * 2 ^ 6 + c2.toNat % 2 ^ 6) := by
  have hc : (c &&& 0x0f).toUInt32.toNat = c.toNat % 2 ^ 4 := bits_toNat rfl
  have hc1 : (c1 &&& 0x3f).toUInt32.toNat = c1.toNat % 2 ^ 6 := bits_toNat rfl
  have hc2 : (c2 &&& 0x3f).toUInt32.toNat = c2.toNat % 2 ^ 6 := bits_toNat rfl
  have h6 : UInt32.toNat 6 = 6 := rfl
  have h12 : UInt32.toNat 12 = 12 := rfl
  have hlow := Utf8.toNat_or_shift (x := (c1 &&& 0x3f).toUInt32) (y := (c2 &&& 0x3f).toUInt32)
    (j := 6) (by decide) (by rw [hc1, h6]; omega) (by rw [hc2, h6]; omega)
  rw [hc1, hc2, h6] at hlow
  rw [UInt32.or_assoc, Utf8.toNat_or_shift (by decide) (by rw [hc, h12]; omega)
    (by rw [hlow, h12]; omega), hlow, hc, h12]

theorem four_toNat : (((c &&& 0x07).toUInt32 <<< 18) ||| ((c1 &&& 0x3f).toUInt32 <<< 12)
    ||| ((c2 &&& 0x3f).toUInt32 <<< 6) ||| (c3 &&& 0x3f).toUInt32).toNat =
      c.toNat % 2 ^ 3 * 2 ^ 18 + (c1.toNat % 2 ^ 6 * 2 ^ 12 +
        (c2.toNat % 2 ^ 6 * 2 ^ 6 + c3.toNat % 2 ^ 6)) := by
  have hc : (c &&& 0x07).toUInt32.toNat = c.toNat % 2 ^ 3 := bits_toNat rfl
  have hc1 : (c1 &&& 0x3f).toUInt32.toNat = c1.toNat % 2 ^ 6 := bits_toNat rfl
  have hc2 : (c2 &&& 0x3f).toUInt32.toNat = c2.toNat % 2 ^ 6 := bits_toNat rfl
  have hc3 : (c3 &&& 0x3f).toUInt32.toNat = c3.toNat % 2 ^ 6 := bits_toNat rfl
  have h6 : UInt32.toNat 6 = 6 := rfl
  have h12 : UInt32.toNat 12 = 12 := rfl
  have h18 : UInt32.toNat 18 = 18 := rfl
  have hlow := Utf8.toNat_or_shift (x := (c2 &&& 0x3f).toUInt32) (y := (c3 &&& 0x3f).toUInt32)
    (j := 6) (by decide) (by rw [hc2, h6]; omega) (by rw [hc3, h6]; omega)
  rw [hc2, hc3, h6] at hlow
  have hmid := Utf8.toNat_or_shift (x := (c1 &&& 0x3f).toUInt32) (j := 12)
    (y := ((c2 &&& 0x3f).toUInt32 <<< 6) ||| (c3 &&& 0x3f).toUInt32) (by decide)
    (by rw [hc1, h12]; omega) (by rw [hlow, h12]; omega)
  rw [hlow, hc1, h12] at hmid
  rw [UInt32.or_assoc, UInt32.or_assoc, Utf8.toNat_or_shift (by decide)
    (by rw [hc, h18]; omega) (by rw [hmid, h18]; omega), hmid, hc, h18]

/-- The bytes of a character and its code point, by the number of bytes. -/
def Decodes : Text → Nat → Prop
  | [c], n => c.toNat < 0x80 ∧ n = c.toNat
  | [c, c1], n => 0xC0 ≤ c.toNat ∧ c.toNat < 0xE0 ∧ isContinuation c1 ∧
    n = c.toNat % 2 ^ 5 * 2 ^ 6 + c1.toNat % 2 ^ 6
  | [c, c1, c2], n => 0xE0 ≤ c.toNat ∧ c.toNat < 0xF0 ∧ isContinuation c1 ∧ isContinuation c2 ∧
    n = c.toNat % 2 ^ 4 * 2 ^ 12 + (c1.toNat % 2 ^ 6 * 2 ^ 6 + c2.toNat % 2 ^ 6)
  | [c, c1, c2, c3], n => 0xF0 ≤ c.toNat ∧ c.toNat < 0xF8 ∧ isContinuation c1 ∧
    isContinuation c2 ∧ isContinuation c3 ∧
    n = c.toNat % 2 ^ 3 * 2 ^ 18 + (c1.toNat % 2 ^ 6 * 2 ^ 12 +
      (c2.toNat % 2 ^ 6 * 2 ^ 6 + c3.toNat % 2 ^ 6))
  | _, _ => False

/-- What `unicode_cpt_from_utf8` reads is a character at the start of the text. -/
theorem decodes_of_fromUtf8 : ∀ {text : Text}, unicodeCptFromUtf8 text = some (cpt, n) →
    ∃ rest, text = text.take n ++ rest ∧ Decodes (text.take n) cpt.toNat
  | [], h => by cases h
  | c :: utf8, h => by
    obtain ⟨h1, h2, h3, h4, h5, -⟩ := byte_tests c.toNat c.toNat_lt
    rw [UInt8.ofNat_toNat] at h1 h2 h3 h4 h5
    unfold unicodeCptFromUtf8 at h
    dsimp only at h
    split_ifs at h with ht1 ht2 ht3 ht4 ht5
    · cases h
      exact ⟨utf8, rfl, h1.1 ht1, by simp⟩
    · rw [h1, Nat.not_lt] at ht1
      rw [h2 ht1, Nat.not_lt] at ht2
      split at h
      · split_ifs at h with hcont
        cases h
        exact ⟨_, rfl, ht2, (h3 ht2).1 ht3, hcont, two_toNat⟩
      · cases h
    · rw [h1, Nat.not_lt] at ht1
      rw [h2 ht1, Nat.not_lt] at ht2
      rw [h3 ht2, Nat.not_lt] at ht3
      split at h
      · split_ifs at h with hcont
        cases h
        exact ⟨_, rfl, ht3, (h4 ht3).1 ht4, hcont.1, hcont.2, three_toNat⟩
      · cases h
    · rw [h1, Nat.not_lt] at ht1
      rw [h2 ht1, Nat.not_lt] at ht2
      rw [h3 ht2, Nat.not_lt] at ht3
      rw [h4 ht3, Nat.not_lt] at ht4
      split at h
      · split_ifs at h with hcont
        cases h
        exact ⟨_, rfl, ht4, (h5 ht4).1 ht5, hcont.1, hcont.2.1, hcont.2.2, four_toNat⟩
      · cases h

/-- And every character is read. -/
theorem fromUtf8_of_decodes (rest : Text) : ∀ {bytes : Text}, Decodes bytes cpt.toNat →
    unicodeCptFromUtf8 (bytes ++ rest) = some (cpt, bytes.length)
  | [c], ⟨hc, hn⟩ => by
    obtain ⟨h1, -⟩ := byte_tests c.toNat c.toNat_lt
    rw [UInt8.ofNat_toNat] at h1
    rw [List.cons_append, List.nil_append]
    unfold unicodeCptFromUtf8
    dsimp only
    rw [if_pos (h1.2 hc)]
    exact congrArg some (Prod.ext (UInt32.toNat_inj.1 (by simp [hn])) rfl)
  | [c, c1], ⟨hlo, hhi, hc1, hn⟩ => by
    obtain ⟨h1, h2, h3, -⟩ := byte_tests c.toNat c.toNat_lt
    rw [UInt8.ofNat_toNat] at h1 h2 h3
    simp only [List.cons_append, List.nil_append]
    unfold unicodeCptFromUtf8
    dsimp only
    rw [if_neg (by rw [h1]; omega), if_neg (by rw [h2 (by omega)]; omega),
      if_pos ((h3 hlo).2 hhi)]
    rw [if_pos hc1]
    exact congrArg some (Prod.ext (UInt32.toNat_inj.1 (two_toNat.trans hn.symm)) rfl)
  | [c, c1, c2], ⟨hlo, hhi, hc1, hc2, hn⟩ => by
    obtain ⟨h1, h2, h3, h4, -⟩ := byte_tests c.toNat c.toNat_lt
    rw [UInt8.ofNat_toNat] at h1 h2 h3 h4
    simp only [List.cons_append, List.nil_append]
    unfold unicodeCptFromUtf8
    dsimp only
    rw [if_neg (by rw [h1]; omega), if_neg (by rw [h2 (by omega)]; omega),
      if_neg (by rw [h3 (by omega)]; omega), if_pos ((h4 hlo).2 hhi)]
    rw [if_pos ⟨hc1, hc2⟩]
    exact congrArg some (Prod.ext (UInt32.toNat_inj.1 (three_toNat.trans hn.symm)) rfl)
  | [c, c1, c2, c3], ⟨hlo, hhi, hc1, hc2, hc3, hn⟩ => by
    obtain ⟨h1, h2, h3, h4, h5, -⟩ := byte_tests c.toNat c.toNat_lt
    rw [UInt8.ofNat_toNat] at h1 h2 h3 h4 h5
    simp only [List.cons_append, List.nil_append]
    unfold unicodeCptFromUtf8
    dsimp only
    rw [if_neg (by rw [h1]; omega), if_neg (by rw [h2 (by omega)]; omega),
      if_neg (by rw [h3 (by omega)]; omega), if_neg (by rw [h4 (by omega)]; omega),
      if_pos ((h5 hlo).2 hhi)]
    rw [if_pos ⟨hc1, hc2, hc3⟩]
    exact congrArg some (Prod.ext (UInt32.toNat_inj.1 (four_toNat.trans hn.symm)) rfl)

theorem utf8Byte_toNat {j : Nat} (hmark : mark.toNat = 2 ^ k * j) (hbits : bits.toNat < 2 ^ k)
    (hlt : mark.toNat + bits.toNat < 256) :
    (utf8Byte mark bits).toNat = mark.toNat + bits.toNat := by
  have hor : (mark ||| bits).toNat = mark.toNat + bits.toNat := by
    rw [UInt32.toNat_or, hmark, Nat.two_pow_add_eq_or_of_lt hbits]
  rw [utf8Byte, UInt32.toNat_toUInt8, hor, Nat.mod_eq_of_lt hlt]

/-- The bytes behind the first one of a character. -/
theorem utf8Byte_rest {j : UInt32} (hj : j.toNat < 32) :
    (utf8Byte 0x80 ((cpt >>> j) &&& 0x3f)).toNat = 0x80 + cpt.toNat / 2 ^ j.toNat % 2 ^ 6 := by
  have hbits := Utf8.toNat_shift_bits (x := cpt) hj
    (show UInt32.toNat 0x3f = 2 ^ 6 - 1 from rfl)
  have hmark : UInt32.toNat 0x80 = 2 ^ 6 * 2 := rfl
  rw [utf8Byte_toNat hmark (by rw [hbits]; omega) (by rw [hbits, hmark]; omega), hbits]
  rfl

theorem utf8Byte_last : (utf8Byte 0x80 (cpt &&& 0x3f)).toNat = 0x80 + cpt.toNat % 2 ^ 6 := by
  have hbits := Utf8.toNat_bits (x := cpt) (show UInt32.toNat 0x3f = 2 ^ 6 - 1 from rfl)
  have hmark : UInt32.toNat 0x80 = 2 ^ 6 * 2 := rfl
  rw [utf8Byte_toNat hmark (by rw [hbits]; omega) (by rw [hbits, hmark]; omega), hbits]
  rfl

/-- The first byte of a character. -/
theorem utf8Byte_first {mask j : UInt32} {i : Nat} (hj : j.toNat < 32)
    (hmask : mask.toNat = 2 ^ k - 1) (hmark : mark.toNat = 2 ^ k * i)
    (hlt : mark.toNat + 2 ^ k ≤ 256) :
    (utf8Byte mark ((cpt >>> j) &&& mask)).toNat =
      mark.toNat + cpt.toNat / 2 ^ j.toNat % 2 ^ k := by
  have hbits := Utf8.toNat_shift_bits (x := cpt) hj hmask
  have hmod : cpt.toNat / 2 ^ j.toNat % 2 ^ k < 2 ^ k := Nat.mod_lt _ (Nat.two_pow_pos k)
  rw [utf8Byte_toNat hmark (by rw [hbits]; exact hmod) (by rw [hbits]; omega), hbits]

/-- The bytes that a code point is encoded to. -/
theorem toUtf8_cases (h : cpt.toNat ≤ 0x10ffff) :
    (cpt.toNat ≤ 0x7f ∧ ∃ c, unicodeCptToUtf8 cpt = .ok [c] ∧ c.toNat = cpt.toNat) ∨
    (0x7f < cpt.toNat ∧ cpt.toNat ≤ 0x7ff ∧ ∃ c c1, unicodeCptToUtf8 cpt = .ok [c, c1] ∧
      c.toNat = 0xc0 + cpt.toNat / 2 ^ 6 % 2 ^ 5 ∧ c1.toNat = 0x80 + cpt.toNat % 2 ^ 6) ∨
    (0x7ff < cpt.toNat ∧ cpt.toNat ≤ 0xffff ∧ ∃ c c1 c2, unicodeCptToUtf8 cpt = .ok [c, c1, c2] ∧
      c.toNat = 0xe0 + cpt.toNat / 2 ^ 12 % 2 ^ 4 ∧ c1.toNat = 0x80 + cpt.toNat / 2 ^ 6 % 2 ^ 6 ∧
      c2.toNat = 0x80 + cpt.toNat % 2 ^ 6) ∨
    (0xffff < cpt.toNat ∧ ∃ c c1 c2 c3, unicodeCptToUtf8 cpt = .ok [c, c1, c2, c3] ∧
      c.toNat = 0xf0 + cpt.toNat / 2 ^ 18 % 2 ^ 3 ∧ c1.toNat = 0x80 + cpt.toNat / 2 ^ 12 % 2 ^ 6 ∧
      c2.toNat = 0x80 + cpt.toNat / 2 ^ 6 % 2 ^ 6 ∧ c3.toNat = 0x80 + cpt.toNat % 2 ^ 6) := by
  have hle : ∀ m : UInt32, cpt ≤ m ↔ cpt.toNat ≤ m.toNat := fun m => UInt32.le_iff_toNat_le
  have h7f : UInt32.toNat 0x7f = 0x7f := rfl
  have h7ff : UInt32.toNat 0x7ff = 0x7ff := rfl
  have hffff : UInt32.toNat 0xffff = 0xffff := rfl
  unfold unicodeCptToUtf8
  simp only [hle, h7f, h7ff, hffff]
  split_ifs with h1 h2 h3 h4
  · refine .inl ⟨h1, _, rfl, ?_⟩
    rw [UInt32.toNat_toUInt8]
    omega
  · exact .inr (.inl ⟨by omega, h2, _, _, rfl, utf8Byte_first (i := 6) (by decide) rfl rfl
      (by decide), utf8Byte_last⟩)
  · exact .inr (.inr (.inl ⟨by omega, h3, _, _, _, rfl, utf8Byte_first (i := 14) (by decide) rfl rfl
      (by decide), utf8Byte_rest (by decide), utf8Byte_last⟩))
  · exact .inr (.inr (.inr ⟨by omega, _, _, _, _, rfl, utf8Byte_first (i := 30) (by decide) rfl rfl
      (by decide), utf8Byte_rest (by decide), utf8Byte_rest (by decide), utf8Byte_last⟩))
  · exact absurd h h4

theorem toUtf8_eq_error : unicodeCptToUtf8 cpt = .error .invalidCodepoint ↔
    0x10ffff < cpt.toNat := by
  constructor
  · intro h
    by_contra hle
    obtain ⟨-, _, heq, -⟩ | ⟨-, -, _, _, heq, -⟩ | ⟨-, -, _, _, _, heq, -⟩ |
        ⟨-, _, _, _, _, heq, -⟩ := toUtf8_cases (Nat.le_of_not_lt hle) <;> cases h.symm.trans heq
  · intro h
    have hle : ∀ m : UInt32, m.toNat < cpt.toNat → ¬ cpt ≤ m := fun m hm hle =>
      Nat.not_lt.2 (UInt32.le_iff_toNat_le.1 hle) hm
    rw [unicodeCptToUtf8, if_neg (hle _ (h.trans' (by decide))),
      if_neg (hle _ (h.trans' (by decide))), if_neg (hle _ (h.trans' (by decide))),
      if_neg (hle 0x10ffff h)]

theorem isCanonical_two : isCanonical [c, c1] ↔ 0xC2 ≤ c.toNat := by
  simp [isCanonical, UInt8.le_iff_toNat_le]

theorem isCanonical_three :
    isCanonical [c, c1, c2] ↔ c.toNat ≠ 0xE0 ∨ 0xA0 ≤ c1.toNat := by
  simp [isCanonical, UInt8.le_iff_toNat_le, ← UInt8.toNat_inj]

theorem isCanonical_four : isCanonical [c, c1, c2, c3] ↔ (c.toNat ≠ 0xF0 ∨ 0x90 ≤ c1.toNat) ∧
    (c.toNat < 0xF4 ∨ c.toNat = 0xF4 ∧ c1.toNat < 0x90) := by
  simp [isCanonical, UInt8.le_iff_toNat_le, UInt8.lt_iff_toNat_lt, ← UInt8.toNat_inj]

/-- The encoding of a code point is a character, and a canonical one. -/
theorem decodes_of_toUtf8 (h : unicodeCptToUtf8 cpt = .ok bytes) :
    Decodes bytes cpt.toNat ∧ isCanonical bytes := by
  have hle : cpt.toNat ≤ 0x10ffff := by
    by_contra hlt
    rw [toUtf8_eq_error.2 (Nat.lt_of_not_le hlt)] at h
    cases h
  obtain ⟨h1, c, heq, hc⟩ | ⟨h1, h2, c, c1, heq, hc, hc1⟩ | ⟨h1, h2, c, c1, c2, heq, hc, hc1, hc2⟩ |
    ⟨h1, c, c1, c2, c3, heq, hc, hc1, hc2, hc3⟩ := toUtf8_cases hle <;> cases h.symm.trans heq
  · exact ⟨⟨by omega, hc.symm⟩, rfl⟩
  · simp only [Decodes, isContinuation_iff, isCanonical_two]
    omega
  · simp only [Decodes, isContinuation_iff, isCanonical_three]
    omega
  · simp only [Decodes, isContinuation_iff, isCanonical_four]
    omega

/-- A canonical character is the encoding of its code point. -/
theorem toUtf8_of_decodes : ∀ {bytes : Text}, Decodes bytes cpt.toNat → isCanonical bytes →
    unicodeCptToUtf8 cpt = .ok bytes
  | [c], ⟨hc, hn⟩, _ => by
    obtain ⟨h1, d, heq, hd⟩ | ⟨h1, -⟩ | ⟨h1, -⟩ | ⟨h1, -⟩ :=
      toUtf8_cases (show cpt.toNat ≤ 0x10ffff by omega)
    · rw [heq, UInt8.toNat_inj.1 (hd.trans hn)]
    all_goals omega
  | [c, c1], ⟨hlo, hhi, hc1, hn⟩, hcan => by
    rw [isContinuation_iff] at hc1
    rw [isCanonical_two] at hcan
    obtain ⟨h1, -⟩ | ⟨-, -, d, d1, heq, hd, hd1⟩ | ⟨h1, -⟩ | ⟨h1, -⟩ :=
      toUtf8_cases (show cpt.toNat ≤ 0x10ffff by omega)
    · omega
    · rw [heq, UInt8.toNat_inj.1 (show d.toNat = c.toNat by omega),
        UInt8.toNat_inj.1 (show d1.toNat = c1.toNat by omega)]
    all_goals omega
  | [c, c1, c2], ⟨hlo, hhi, hc1, hc2, hn⟩, hcan => by
    rw [isContinuation_iff] at hc1 hc2
    rw [isCanonical_three] at hcan
    obtain ⟨h1, -⟩ | ⟨-, h1, -⟩ | ⟨-, -, d, d1, d2, heq, hd, hd1, hd2⟩ | ⟨h1, -⟩ :=
      toUtf8_cases (show cpt.toNat ≤ 0x10ffff by omega)
    · omega
    · omega
    · rw [heq, UInt8.toNat_inj.1 (show d.toNat = c.toNat by omega),
        UInt8.toNat_inj.1 (show d1.toNat = c1.toNat by omega),
        UInt8.toNat_inj.1 (show d2.toNat = c2.toNat by omega)]
    · omega
  | [c, c1, c2, c3], ⟨hlo, hhi, hc1, hc2, hc3, hn⟩, hcan => by
    rw [isContinuation_iff] at hc1 hc2 hc3
    rw [isCanonical_four] at hcan
    obtain ⟨h1, -⟩ | ⟨-, h1, -⟩ | ⟨-, h1, -⟩ | ⟨-, d, d1, d2, d3, heq, hd, hd1, hd2, hd3⟩ :=
      toUtf8_cases (show cpt.toNat ≤ 0x10ffff by omega)
    · omega
    · omega
    · omega
    · rw [heq, UInt8.toNat_inj.1 (show d.toNat = c.toNat by omega),
        UInt8.toNat_inj.1 (show d1.toNat = c1.toNat by omega),
        UInt8.toNat_inj.1 (show d2.toNat = c2.toNat by omega),
        UInt8.toNat_inj.1 (show d3.toNat = c3.toNat by omega)]

/-- Any other encoding is longer. -/
theorem length_toUtf8 : ∀ {bytes bytes' : Text}, Decodes bytes cpt.toNat → ¬ isCanonical bytes →
    unicodeCptToUtf8 cpt = .ok bytes' → bytes'.length < bytes.length := by
  intro bytes bytes' h hcan h'
  have hle : cpt.toNat ≤ 0x10ffff := by
    by_contra hlt
    rw [toUtf8_eq_error.2 (Nat.lt_of_not_le hlt)] at h'
    cases h'
  have hlen : (cpt.toNat ≤ 0x7f → bytes'.length = 1) ∧ (cpt.toNat ≤ 0x7ff → bytes'.length ≤ 2) ∧
      (cpt.toNat ≤ 0xffff → bytes'.length ≤ 3) := by
    obtain ⟨h1, _, heq, -⟩ | ⟨h1, -, _, _, heq, -⟩ | ⟨h1, -, _, _, _, heq, -⟩ |
      ⟨h1, _, _, _, _, heq, -⟩ := toUtf8_cases hle <;> cases h'.symm.trans heq <;>
        refine ⟨fun _ => ?_, fun _ => ?_, fun _ => ?_⟩ <;>
        simp only [List.length_cons, List.length_nil] <;> omega
  rcases bytes with _ | ⟨c, _ | ⟨c1, _ | ⟨c2, _ | ⟨c3, _ | ⟨c4, bytes⟩⟩⟩⟩⟩
  · cases h
  · exact absurd rfl hcan
  · obtain ⟨hlo, hhi, hc1, hn⟩ := h
    rw [isCanonical_two] at hcan
    rw [isContinuation_iff] at hc1
    simp only [List.length_cons, List.length_nil]
    omega
  · obtain ⟨hlo, hhi, hc1, hc2, hn⟩ := h
    rw [isCanonical_three] at hcan
    rw [isContinuation_iff] at hc1 hc2
    simp only [List.length_cons, List.length_nil]
    omega
  · obtain ⟨hlo, hhi, hc1, hc2, hc3, hn⟩ := h
    rw [isCanonical_four] at hcan
    rw [isContinuation_iff] at hc1 hc2 hc3
    simp only [List.length_cons, List.length_nil]
    omega
  · cases h

end Char

/-! ## A text -/

/-- A code point in UTF-8. -/
def utf8Of (cpt : UInt32) : Text := (unicodeCptToUtf8 cpt).toOption.getD []

def Encodable (cpt : UInt32) : Prop := cpt.toNat ≤ 0x10ffff

section Text

variable {cpt : UInt32} {cpts : List UInt32} {text bytes rest : Text} {b : UInt8}

theorem toUtf8_of_encodable (h : Encodable cpt) : unicodeCptToUtf8 cpt = .ok (utf8Of cpt) := by
  obtain ⟨-, _, heq, -⟩ | ⟨-, -, _, _, heq, -⟩ | ⟨-, -, _, _, _, heq, -⟩ |
    ⟨-, _, _, _, _, heq, -⟩ := toUtf8_cases h <;> rw [utf8Of, heq] <;> rfl

theorem encodable_of_toUtf8 (h : unicodeCptToUtf8 cpt = .ok bytes) : Encodable cpt := by
  by_contra hlt
  rw [toUtf8_eq_error.2 (Nat.lt_of_not_le hlt)] at h
  cases h

theorem utf8Of_eq (h : unicodeCptToUtf8 cpt = .ok bytes) : utf8Of cpt = bytes := by
  rw [utf8Of, h]
  rfl

/-- A character is encoded as it is in a string. -/
theorem toUtf8_val (c : Char) : unicodeCptToUtf8 c.val = .ok (String.utf8EncodeChar c) := by
  have hlt := (Utf8.Pending.val_toNat c).1
  simp only [String.utf8EncodeChar]
  obtain ⟨h1, b, heq, hb⟩ | ⟨h1, h2, b, b1, heq, hb, hb1⟩ | ⟨h1, h2, b, b1, b2, heq, hb, hb1, hb2⟩ |
    ⟨h1, b, b1, b2, b3, heq, hb, hb1, hb2, hb3⟩ := 
    toUtf8_cases (show c.val.toNat ≤ 0x10ffff by omega)
  · rw [heq, if_pos h1, Utf8.Pending.byte_eq hb.symm]
  · rw [heq, if_neg (by omega), if_pos h2, Utf8.Pending.byte_eq (b := b) (by omega),
      Utf8.Pending.byte_eq (b := b1) (by omega)]
  · rw [heq, if_neg (by omega), if_neg (by omega), if_pos h2,
      Utf8.Pending.byte_eq (b := b) (by omega), Utf8.Pending.byte_eq (b := b1) (by omega),
      Utf8.Pending.byte_eq (b := b2) (by omega)]
  · rw [heq, if_neg (by omega), if_neg (by omega), if_neg (by omega),
      Utf8.Pending.byte_eq (b := b) (by omega), Utf8.Pending.byte_eq (b := b1) (by omega),
      Utf8.Pending.byte_eq (b := b2) (by omega), Utf8.Pending.byte_eq (b := b3) (by omega)]

theorem utf8Of_val (c : Char) : utf8Of c.val = String.utf8EncodeChar c :=
  utf8Of_eq (toUtf8_val c)

theorem encodable_val (c : Char) : Encodable c.val := encodable_of_toUtf8 (toUtf8_val c)

theorem flatMap_utf8Of_val (s : List Char) : (s.map Char.val).flatMap utf8Of = Utf8.encode s := by
  rw [List.flatMap_map, Utf8.encode]
  exact List.flatMap_congr fun c _ => utf8Of_val c

theorem cptsToUtf8_cons : unicodeCptsToUtf8 (cpt :: cpts) = do
    let utf8 ← unicodeCptToUtf8 cpt
    let rest ← unicodeCptsToUtf8 cpts
    return utf8 ++ rest := by
  unfold unicodeCptsToUtf8
  rw [List.mapM_cons]
  rcases unicodeCptToUtf8 cpt with e | utf8
  · rfl
  · rcases List.mapM unicodeCptToUtf8 cpts with e | rest <;> rfl

theorem cptsToUtf8_of_encodable : ∀ {cpts : List UInt32}, (∀ cpt ∈ cpts, Encodable cpt) →
    unicodeCptsToUtf8 cpts = .ok (cpts.flatMap utf8Of)
  | [], _ => rfl
  | cpt :: cpts, h => by
    obtain ⟨hcpt, hcpts⟩ := List.forall_mem_cons.1 h
    rw [cptsToUtf8_cons, toUtf8_of_encodable hcpt, cptsToUtf8_of_encodable hcpts]
    rfl

theorem encodable_of_cptsToUtf8 : ∀ {cpts : List UInt32} {bytes : Text},
    unicodeCptsToUtf8 cpts = .ok bytes → ∀ cpt ∈ cpts, Encodable cpt
  | [], _, _ => fun _ h => by cases h
  | cpt :: cpts, bytes, h => by
    rw [cptsToUtf8_cons] at h
    obtain ⟨utf8, hcpt, h⟩ := Except.bind_eq_ok.1 h
    obtain ⟨rest, hcpts, -⟩ := Except.bind_eq_ok.1 h
    exact List.forall_mem_cons.2 ⟨encodable_of_toUtf8 hcpt, encodable_of_cptsToUtf8 hcpts⟩

theorem decodes_ne_nil {n : Nat} (h : Decodes bytes n) : bytes ≠ [] := by
  rintro rfl
  cases h

/-- A character at the start of a text is decoded, and then the rest. -/
theorem cptsFromUtf8_append (h : Decodes bytes cpt.toNat) :
    unicodeCptsFromUtf8 (bytes ++ rest) = cpt :: unicodeCptsFromUtf8 rest := by
  have hread := fromUtf8_of_decodes rest h
  rcases bytes with _ | ⟨c, bytes⟩
  · exact absurd rfl (decodes_ne_nil h)
  · rw [List.cons_append] at hread ⊢
    rw [unicodeCptsFromUtf8, hread]
    simp

theorem cptsFromUtf8_flatMap : ∀ {cpts : List UInt32}, (∀ cpt ∈ cpts, Encodable cpt) →
    unicodeCptsFromUtf8 (cpts.flatMap utf8Of) = cpts
  | [], _ => by rw [List.flatMap_nil, unicodeCptsFromUtf8]
  | cpt :: cpts, h => by
    obtain ⟨hcpt, hcpts⟩ := List.forall_mem_cons.1 h
    rw [List.flatMap_cons, cptsFromUtf8_append (decodes_of_toUtf8 (toUtf8_of_encodable hcpt)).1,
      cptsFromUtf8_flatMap hcpts]

theorem cptsFromUtf8_encode (s : List Char) :
    unicodeCptsFromUtf8 (Utf8.encode s) = s.map Char.val := by
  rw [← flatMap_utf8Of_val]
  exact cptsFromUtf8_flatMap (List.forall_mem_map.2 fun c _ => encodable_val c)

/-- A string is told by its encoding. -/
theorem encode_inj {s s' : List Char} (h : Utf8.encode s = Utf8.encode s') : s = s' := by
  have hval : s.map Char.val = s'.map Char.val := by
    rw [← cptsFromUtf8_encode, ← cptsFromUtf8_encode, h]
  exact List.map_injective_iff.2 (fun _ _ hc => Char.ext hc) hval

theorem map_snd_decodedPieces (text : Text) :
    (decodedPieces text).map (·.2) = unicodeCptsFromUtf8 text := by
  fun_induction decodedPieces text with
  | case1 => rw [unicodeCptsFromUtf8]; rfl
  | case2 c utf8 cpt n h ih => rw [unicodeCptsFromUtf8, h, List.map_cons, ih]
  | case3 c utf8 h ih => rw [unicodeCptsFromUtf8, h, List.map_cons, ih]

theorem decodes_of_mem_decodedPieces {text : Text} :
    ∀ piece ∈ decodedPieces text, Decodes piece.1 piece.2.toNat := by
  fun_induction decodedPieces text with
  | case1 => exact fun _ h => by cases h
  | case2 c utf8 cpt n h ih =>
    obtain ⟨rest, -, hdec⟩ := decodes_of_fromUtf8 h
    exact List.forall_mem_cons.2 ⟨hdec, ih⟩
  | case3 c utf8 h ih =>
    refine List.forall_mem_cons.2 ⟨?_, ih⟩
    simp [Decodes, isContinuation_iff]

/-- The text comes back from its code points if and only if its characters are canonical. -/
theorem decodedPieces_iff (text : Text) :
    ((∀ cpt ∈ unicodeCptsFromUtf8 text, Encodable cpt) ∧
      (unicodeCptsFromUtf8 text).flatMap utf8Of = replaceInvalid text) ↔
      ∀ piece ∈ decodedPieces text, isCanonical piece.1 := by
  rw [← map_snd_decodedPieces, List.flatMap_map, replaceInvalid]
  constructor
  · rintro ⟨henc, heq⟩ piece hpiece
    by_contra hcan
    have hle : ∀ p ∈ decodedPieces text, (utf8Of p.2).length ≤ p.1.length := fun p hp => by
      have hutf8 := toUtf8_of_encodable (henc p.2 (List.mem_map_of_mem hp))
      by_cases hp' : isCanonical p.1
      · rw [utf8Of_eq (toUtf8_of_decodes (decodes_of_mem_decodedPieces p hp) hp')]
      · exact Nat.le_of_lt (length_toUtf8 (decodes_of_mem_decodedPieces p hp) hp' hutf8)
    have hlt := length_toUtf8 (decodes_of_mem_decodedPieces piece hpiece) hcan
      (toUtf8_of_encodable (henc piece.2 (List.mem_map_of_mem hpiece)))
    have hsum := List.sum_lt_sum (fun p => (utf8Of p.2).length) (fun p => p.1.length) hle
      ⟨piece, hpiece, hlt⟩
    rw [← List.length_flatMap, ← List.length_flatMap, heq] at hsum
    exact Nat.lt_irrefl _ hsum
  · intro hcan
    have hutf8 : ∀ p ∈ decodedPieces text, unicodeCptToUtf8 p.2 = .ok p.1 := fun p hp =>
      toUtf8_of_decodes (decodes_of_mem_decodedPieces p hp) (hcan p hp)
    refine ⟨fun cpt hcpt => ?_, ?_⟩
    · obtain ⟨p, hp, rfl⟩ := List.mem_map.1 hcpt
      exact encodable_of_toUtf8 (hutf8 p hp)
    · exact List.flatMap_congr fun p hp => utf8Of_eq (hutf8 p hp)

end Text

/-! ## Bytes as characters -/

section Bytes

variable {b : UInt8} {bytes : Text}

theorem lookup_of_mem {α β : Type*} [BEq α] [LawfulBEq α] {l : List (α × β)}
    (hl : (l.map Prod.fst).Nodup) {a : α} {y : β} (h : (a, y) ∈ l) : l.lookup a = some y := by
  obtain ⟨l₁, l₂, rfl⟩ := List.append_of_mem h
  refine List.lookup_eq_some_iff.2 ⟨l₁, l₂, rfl, fun p hp => ?_⟩
  rw [List.map_append, List.nodup_append] at hl
  exact bne_iff_ne.2 (hl.2.2 p.1 (List.mem_map_of_mem hp) a (List.mem_map_of_mem
    (List.mem_cons_self ..))).symm

theorem mem_byteCpts {ch n : Nat} : (ch, n) ∈ byteCpts ↔ ch < 256 ∧
    (isPrintableByte ch = true ∧ n = ch ∨ isPrintableByte ch = false ∧ ∃ i,
      ((List.range 256).filter (!isPrintableByte ·))[i]? = some ch ∧ n = 256 + i) := by
  unfold byteCpts
  constructor
  · intro h
    obtain h | h := List.mem_append.1 h
    · obtain ⟨ch', hch, heq⟩ := List.mem_map.1 h
      cases heq
      rw [List.mem_filter, List.mem_range] at hch
      exact ⟨hch.1, .inl ⟨hch.2, rfl⟩⟩
    · obtain ⟨⟨ch', i⟩, hch, heq⟩ := List.mem_map.1 h
      cases heq
      rw [List.mem_zipIdx_iff_getElem?] at hch
      have hmem := List.mem_of_getElem? hch
      rw [List.mem_filter, List.mem_range] at hmem
      exact ⟨hmem.1, .inr ⟨by simpa using hmem.2, i, hch, rfl⟩⟩
  · rintro ⟨hlt, ⟨hprint, rfl⟩ | ⟨hprint, i, hi, rfl⟩⟩
    · exact List.mem_append_left _ (List.mem_map.2 ⟨n, List.mem_filter.2 ⟨List.mem_range.2 hlt,
        hprint⟩, rfl⟩)
    · exact List.mem_append_right _ (List.mem_map.2 ⟨(ch, i),
        List.mem_zipIdx_iff_getElem?.2 hi, rfl⟩)

/-- Every byte has its code point, and only one. -/
theorem exists_byteCpt {ch : Nat} (h : ch < 256) : ∃ n, (ch, n) ∈ byteCpts := by
  by_cases hprint : isPrintableByte ch
  · exact ⟨ch, mem_byteCpts.2 ⟨h, .inl ⟨hprint, rfl⟩⟩⟩
  · rw [Bool.not_eq_true] at hprint
    have hmem : ch ∈ (List.range 256).filter (!isPrintableByte ·) :=
      List.mem_filter.2 ⟨List.mem_range.2 h, by simpa using hprint⟩
    obtain ⟨i, hi⟩ := List.mem_iff_getElem?.1 hmem
    exact ⟨256 + i, mem_byteCpts.2 ⟨h, .inr ⟨hprint, i, hi, rfl⟩⟩⟩

theorem map_fst_byteCpts : byteCpts.map Prod.fst =
    (List.range 256).filter isPrintableByte ++ (List.range 256).filter (!isPrintableByte ·) := by
  simp [byteCpts, Function.comp_def]

theorem map_snd_byteCpts : byteCpts.map Prod.snd = (List.range 256).filter isPrintableByte ++
    (List.range' 0 ((List.range 256).filter (!isPrintableByte ·)).length).map (256 + ·) := by
  rw [byteCpts, List.map_append, List.map_map, List.map_map, ← List.zipIdx_map_snd 0, List.map_map]
  simp [Function.comp_def]

theorem nodup_fst_byteCpts : (byteCpts.map Prod.fst).Nodup := by
  rw [map_fst_byteCpts]
  refine List.nodup_append.2 ⟨List.nodup_range.filter _, List.nodup_range.filter _, ?_⟩
  rintro a ha b hb rfl
  have hnot := (List.mem_filter.1 hb).2
  rw [(List.mem_filter.1 ha).2] at hnot
  cases hnot

theorem nodup_snd_byteCpts : (byteCpts.map Prod.snd).Nodup := by
  rw [map_snd_byteCpts]
  refine List.nodup_append.2 ⟨List.nodup_range.filter _,
    List.Nodup.map (fun a b h => Nat.add_left_cancel h) List.nodup_range', ?_⟩
  rintro a ha b hb rfl
  obtain ⟨i, -, hi⟩ := List.mem_map.1 hb
  have := List.mem_range.1 (List.mem_filter.1 ha).1
  omega

theorem byteCpt_bounds {ch n : Nat} (h : (ch, n) ∈ byteCpts) : 0x20 < n ∧ n < 0x200 := by
  obtain ⟨hlt, ⟨hprint, rfl⟩ | ⟨-, i, hi, rfl⟩⟩ := mem_byteCpts.1 h
  · simp only [isPrintableByte, decide_eq_true_eq] at hprint
    omega
  · have := (List.getElem?_eq_some_iff.1 hi).1
    have := List.length_filter_le (!isPrintableByte ·) (List.range 256)
    rw [List.length_range] at this
    omega

/-- The code point that stands for a byte. -/
def byteCpt (b : UInt8) : UInt32 := UInt32.ofNat ((byteCpts.lookup b.toNat).getD 0)

theorem byteCpt_spec (b : UInt8) : (b.toNat, (byteCpt b).toNat) ∈ byteCpts := by
  obtain ⟨n, hn⟩ := exists_byteCpt b.toNat_lt
  have := byteCpt_bounds hn
  rw [byteCpt, lookup_of_mem nodup_fst_byteCpts hn, Option.getD_some, UInt32.toNat_ofNat',
    Nat.mod_eq_of_lt (by omega)]
  exact hn

theorem byteCpt_encodable (b : UInt8) : Encodable (byteCpt b) := by
  have := byteCpt_bounds (byteCpt_spec b)
  unfold Encodable
  omega

theorem byteCptToUtf8_eq (b : UInt8) : byteCptToUtf8 (byteCpt b).toNat = utf8Of (byteCpt b) := by
  rw [byteCptToUtf8, UInt32.ofNat_toNat, utf8Of]

theorem byteToUtf8_eq (b : UInt8) : unicodeByteToUtf8 b = utf8Of (byteCpt b) := by
  have hmem : (b, utf8Of (byteCpt b)) ∈ unicodeByteToUtf8Map := by
    refine List.mem_map.2 ⟨_, byteCpt_spec b, ?_⟩
    dsimp only
    rw [UInt8.ofNat_toNat, byteCptToUtf8_eq]
  have hnodup : (unicodeByteToUtf8Map.map Prod.fst).Nodup := by
    have hmap : unicodeByteToUtf8Map.map Prod.fst = (byteCpts.map Prod.fst).map UInt8.ofNat := by
      simp [unicodeByteToUtf8Map, Function.comp_def]
    rw [hmap]
    refine nodup_fst_byteCpts.map_on fun a ha b hb hab => ?_
    obtain ⟨x, hx, rfl⟩ := List.mem_map.1 ha
    obtain ⟨y, hy, rfl⟩ := List.mem_map.1 hb
    have hx' := (mem_byteCpts.1 (show (x.1, x.2) ∈ byteCpts from hx)).1
    have hy' := (mem_byteCpts.1 (show (y.1, y.2) ∈ byteCpts from hy)).1
    have := congrArg UInt8.toNat hab
    rwa [UInt8.toNat_ofNat', UInt8.toNat_ofNat', Nat.mod_eq_of_lt hx', Nat.mod_eq_of_lt hy'] at this
  rw [unicodeByteToUtf8, lookup_of_mem hnodup hmem, Option.getD_some]

/-- A code point is told by its encoding. -/
theorem utf8Of_inj {cpt cpt' : UInt32} (h : Encodable cpt) (h' : Encodable cpt')
    (heq : utf8Of cpt = utf8Of cpt') : cpt = cpt' := by
  have hread := fromUtf8_of_decodes []
    (decodes_of_toUtf8 (toUtf8_of_encodable h)).1
  have hread' := fromUtf8_of_decodes []
    (decodes_of_toUtf8 (toUtf8_of_encodable h')).1
  rw [heq, hread'] at hread
  simpa using (congrArg (Option.map Prod.fst) hread).symm

theorem utf8ToByte_byteCpt (b : UInt8) : unicodeUtf8ToByte (utf8Of (byteCpt b)) = some b := by
  have hmem : (utf8Of (byteCpt b), b) ∈ unicodeUtf8ToByteMap := by
    refine List.mem_map.2 ⟨_, byteCpt_spec b, ?_⟩
    dsimp only
    rw [UInt8.ofNat_toNat, byteCptToUtf8_eq]
  refine lookup_of_mem ?_ hmem
  have hmap : unicodeUtf8ToByteMap.map Prod.fst =
      (byteCpts.map Prod.snd).map byteCptToUtf8 := by
    simp [unicodeUtf8ToByteMap, Function.comp_def]
  rw [hmap]
  have hsmall : ∀ n ∈ byteCpts.map Prod.snd, n < 0x200 := fun n hn => by
    obtain ⟨x, hx, rfl⟩ := List.mem_map.1 hn
    exact (byteCpt_bounds (show (x.1, x.2) ∈ byteCpts from hx)).2
  refine nodup_snd_byteCpts.map_on fun n hn m hm heq => ?_
  have hof : ∀ k < 0x200, (UInt32.ofNat k).toNat = k ∧ Encodable (UInt32.ofNat k) := fun k hk => by
    have hk' : (UInt32.ofNat k).toNat = k := by
      rw [UInt32.toNat_ofNat']
      omega
    refine ⟨hk', ?_⟩
    unfold Encodable
    omega
  obtain ⟨hn', henc⟩ := hof n (hsmall n hn)
  obtain ⟨hm', henc'⟩ := hof m (hsmall m hm)
  rw [← hn', ← hm', utf8Of_inj henc henc' heq]

theorem byteToUtf8_flatMap (bytes : Text) :
    bytes.flatMap unicodeByteToUtf8 = (bytes.map byteCpt).flatMap utf8Of := by
  rw [List.flatMap_map]
  exact List.flatMap_congr fun b _ => byteToUtf8_eq b

/-- The bytes come back from the characters that stand for them. -/
theorem llamaDecodeText_bytes (bytes : Text) :
    llamaDecodeText (bytes.flatMap unicodeByteToUtf8) = .ok bytes := by
  have henc : ∀ cpt ∈ bytes.map byteCpt, Encodable cpt := fun cpt hcpt => by
    obtain ⟨b, -, rfl⟩ := List.mem_map.1 hcpt
    exact byteCpt_encodable b
  have hone : ∀ text, (bytes.map byteCpt).mapM (llamaDecodeCpt text) =
      .ok (bytes.map fun b => [b]) := fun text => by
    rw [List.mapM_map]
    refine Except.mapM_of_ok fun b _ => ?_
    dsimp only [Function.comp]
    rw [llamaDecodeCpt, toUtf8_of_encodable (byteCpt_encodable b), Except.ok_bind_eq,
      utf8ToByte_byteCpt]
    rfl
  rw [llamaDecodeText, byteToUtf8_flatMap, cptsFromUtf8_flatMap henc, hone]
  refine congrArg Except.ok ?_
  rw [← List.flatMap_def]
  exact List.flatMap_singleton' bytes

end Bytes

/-! ## Splitting -/

/-- What `unicode_regex_split` may be asked to do with an expression: the custom splitters do not
depend on the engine unless the text is empty. -/
def Supports (env : UnicodeEnv) (text regexExpr : Text) : Prop :=
  (regexExpr = gpt2Regex ∨ regexExpr ∈ llama3Regexes) ∧ text ≠ [] ∨
    if useCollapsed regexExpr then (∀ cpt ∈ unicodeCptsFromUtf8 regexExpr, cpt < 128) ∧
      (env.regex.compile (collapseRegex false none regexExpr)).isSome
    else ∃ w, unicodeWstringFromUtf8 regexExpr = .ok w ∧ (env.wregex.compile w).isSome

/-- The words hold all of the text. -/
def Lossless (env : UnicodeEnv) (text : Text) (regexExprs : List Text) : Prop :=
  ∃ words decoded, unicodeRegexSplit env text regexExprs = .ok words ∧
    words.mapM llamaDecodeText = .ok decoded ∧ decoded.flatten = replaceInvalid text

section Split

variable {env : UnicodeEnv} {text regexExpr : Text} {offsets out : List Nat}
  {regexExprs words : List Text} {cpts : List UInt32}

theorem cptsFromUtf8_eq_nil : unicodeCptsFromUtf8 text = [] ↔ text = [] := by
  rcases text with _ | ⟨c, text⟩
  · simp [unicodeCptsFromUtf8]
  · rw [unicodeCptsFromUtf8]
    split <;> simp

theorem sum_customBy {words : Segment → List Nat}
    {hwords : ∀ seg : Segment, seg.rest ≠ [] → 0 < (words seg).sum}
    (hle : ∀ seg : Segment, seg.rest ≠ [] → (words seg).sum ≤ seg.rest.length)
    (h : offsets.sum = (unicodeCptsFromUtf8 text).length) :
    (unicodeRegexSplitCustomBy env words hwords text offsets).sum =
      (unicodeCptsFromUtf8 text).length :=
  Segments.sum_refine (Segments.sum_scan fun rest hrest => hle ⟨env, rest⟩ hrest) h

/-- A custom splitter keeps the length of the text, and finds words unless it is empty. -/
theorem splitCustom_spec (env : UnicodeEnv)
    (hcustom : regexExpr = gpt2Regex ∨ regexExpr ∈ llama3Regexes)
    (h : offsets.sum = (unicodeCptsFromUtf8 text).length) :
    (unicodeRegexSplitCustom env text regexExpr offsets).sum =
      (unicodeCptsFromUtf8 text).length := by
  unfold unicodeRegexSplitCustom
  split_ifs with h1 h2
  · exact sum_customBy (fun seg hseg => by
      rw [List.sum_singleton]
      exact (Segment.gpt2Word_bounds hseg).2) h
  · exact sum_customBy (fun seg hseg => (Segment.llama3Words_bounds hseg).2) h
  · exact absurd hcustom (not_or.2 ⟨h1, h2⟩)

theorem refine_nil {α : Type*} {f : List α → List Nat} (hf : f [] = []) :
    ∀ offsets : List Nat, Segments.refine f offsets [] = []
  | [] => rfl
  | n :: offsets => by
    have ih := refine_nil hf offsets
    rw [Segments.refine] at ih ⊢
    rw [List.splitLengths_cons, List.flatMap_cons, List.take_nil, List.drop_nil, hf, ih]
    rfl

theorem splitCustom_ne_nil (h : offsets.sum = (unicodeCptsFromUtf8 text).length) :
    unicodeRegexSplitCustom env text regexExpr offsets ≠ [] ↔
      (regexExpr = gpt2Regex ∨ regexExpr ∈ llama3Regexes) ∧ text ≠ [] := by
  by_cases hcustom : regexExpr = gpt2Regex ∨ regexExpr ∈ llama3Regexes
  · by_cases htext : text = []
    · have hnil : ∀ words hwords, unicodeRegexSplitCustomBy env words hwords text offsets = [] :=
        fun words hwords => by
          rw [unicodeRegexSplitCustomBy, cptsFromUtf8_eq_nil.2 htext]
          exact refine_nil (by rw [Segments.scan]) offsets
      refine iff_of_false (fun hne => hne ?_) fun h => h.2 htext
      unfold unicodeRegexSplitCustom
      split_ifs
      · exact hnil _ _
      · exact hnil _ _
      · rfl
    · refine iff_of_true (fun hnil => ?_) ⟨hcustom, htext⟩
      have hsum := splitCustom_spec env hcustom h
      rw [hnil] at hsum
      exact htext (cptsFromUtf8_eq_nil.1 (List.length_eq_zero_iff.1 hsum.symm))
  · refine iff_of_false (fun hne => hne ?_) fun h => hcustom h.1
    obtain ⟨h1, h2⟩ := not_or.1 hcustom
    rw [unicodeRegexSplitCustom, if_neg h1, if_neg h2]

theorem splitStl_spec {α : Type} (engine : RegexEngine α) (text regexExpr : List α)
    (h : offsets.sum = text.length) :
    ((∃ out, unicodeRegexSplitStl engine text regexExpr offsets = .ok out) ↔
      (engine.compile regexExpr).isSome) ∧
    ∀ out, unicodeRegexSplitStl engine text regexExpr offsets = .ok out →
      out.sum = text.length := by
  unfold unicodeRegexSplitStl
  rcases hcompile : engine.compile regexExpr with _ | find
  · simp
  · refine ⟨by simp, fun out hout => ?_⟩
    cases hout
    exact Segments.sum_refine (fun s => Segments.sum_around (Nat.zero_le _)
      (engine.inOrder hcompile s)) h

/-- One expression is taken if it is supported, and keeps the length of the text. -/
theorem splitOne_spec (env : UnicodeEnv) (regexExpr : Text)
    (h : offsets.sum = (unicodeCptsFromUtf8 text).length) :
    ((∃ out, unicodeRegexSplitOne env text offsets regexExpr = .ok out) ↔
      Supports env text regexExpr) ∧
    ∀ out, unicodeRegexSplitOne env text offsets regexExpr = .ok out →
      out.sum = (unicodeCptsFromUtf8 text).length := by
  unfold unicodeRegexSplitOne Supports
  dsimp only
  by_cases hcustom : (regexExpr = gpt2Regex ∨ regexExpr ∈ llama3Regexes) ∧ text ≠ []
  · rw [if_pos ((splitCustom_ne_nil h).2 hcustom)]
    refine ⟨iff_of_true ⟨_, rfl⟩ (.inl hcustom), fun out hout => ?_⟩
    obtain rfl := Except.pure_eq_ok.1 hout
    exact splitCustom_spec env hcustom.1 h
  · rw [if_neg (mt (splitCustom_ne_nil h).1 hcustom), or_iff_right hcustom]
    by_cases huse : useCollapsed regexExpr
    · obtain ⟨hiff, hsum⟩ := splitStl_spec env.regex
        ((unicodeCptsFromUtf8 text).map (collapseCpt env)) (collapseRegex false none regexExpr)
        (h.trans (List.length_map _).symm)
      rw [if_pos huse, if_pos huse]
      by_cases hascii : (unicodeCptsFromUtf8 regexExpr).any (· ≥ 128)
      · rw [if_pos hascii]
        refine ⟨iff_of_false (fun ⟨_, h⟩ => by cases h) fun h => ?_, fun _ h => by cases h⟩
        obtain ⟨cpt, hcpt, hge⟩ := List.any_eq_true.1 hascii
        exact absurd (h.1 cpt hcpt) (by simpa using hge)
      · rw [if_neg hascii]
        have hall : ∀ cpt ∈ unicodeCptsFromUtf8 regexExpr, cpt < 128 := by simpa using hascii
        exact ⟨hiff.trans (and_iff_right hall).symm,
          fun out hout => (hsum out hout).trans (List.length_map _)⟩
    · rw [if_neg huse, if_neg huse]
      rcases hw : unicodeWstringFromUtf8 regexExpr with e | w
      · refine ⟨iff_of_false (fun ⟨_, h⟩ => by cases h) ?_, fun _ h => by cases h⟩
        rintro ⟨w, h, -⟩
        cases h
      · obtain ⟨hiff, hsum⟩ := splitStl_spec env.wregex
          ((unicodeCptsFromUtf8 text).map (wideCpt env)) w
          (h.trans (List.length_map _).symm)
        refine ⟨hiff.trans ⟨fun h => ⟨w, rfl, h⟩, ?_⟩,
          fun out hout => (hsum out hout).trans (List.length_map _)⟩
        rintro ⟨w', heq, h⟩
        cases heq
        exact h

theorem splitAll_spec (env : UnicodeEnv) : ∀ (regexExprs : List Text) {offsets : List Nat},
    offsets.sum = (unicodeCptsFromUtf8 text).length →
    ((∃ out, regexExprs.foldlM (unicodeRegexSplitOne env text) offsets = .ok out) ↔
      ∀ regexExpr ∈ regexExprs, Supports env text regexExpr) ∧
    ∀ out, regexExprs.foldlM (unicodeRegexSplitOne env text) offsets = .ok out →
      out.sum = (unicodeCptsFromUtf8 text).length
  | [], offsets, h => by
    refine ⟨iff_of_true ⟨offsets, rfl⟩ (fun _ h => by cases h), fun out hout => ?_⟩
    cases hout
    exact h
  | regexExpr :: regexExprs, offsets, h => by
    obtain ⟨hiff, hsum⟩ := splitOne_spec env regexExpr h
    simp only [List.foldlM_cons, Except.bind_eq_ok, List.forall_mem_cons, ← hiff]
    constructor
    · constructor
      · rintro ⟨out, mid, hmid, hout⟩
        exact ⟨⟨mid, hmid⟩, (splitAll_spec env regexExprs (hsum mid hmid)).1.1 ⟨out, hout⟩⟩
      · rintro ⟨⟨mid, hmid⟩, hall⟩
        obtain ⟨out, hout⟩ := (splitAll_spec env regexExprs (hsum mid hmid)).1.2 hall
        exact ⟨out, mid, hmid, hout⟩
    · rintro out ⟨mid, hmid, hout⟩
      exact (splitAll_spec env regexExprs (hsum mid hmid)).2 out hout

/-- The words of a text, byte by byte, where the offsets add up to its length. -/
theorem words_spec (henc : ∀ cpt ∈ cpts, Encodable cpt) (h : offsets.sum = cpts.length) :
    (offsets.splitLengths cpts).mapM unicodeCptsToUtf8 =
        .ok ((offsets.splitLengths cpts).map (·.flatMap utf8Of)) ∧
      unicodeByteEncodingProcess ((offsets.splitLengths cpts).map (·.flatMap utf8Of)) =
        .ok ((offsets.splitLengths cpts).map fun seg =>
          (seg.flatMap utf8Of).flatMap unicodeByteToUtf8) := by
  have hseg : ∀ seg ∈ offsets.splitLengths cpts, ∀ cpt ∈ seg, Encodable cpt :=
    fun seg hseg cpt hcpt => henc cpt (Segments.mem_of_mem_splitLengths h hseg hcpt)
  refine ⟨Except.mapM_of_ok fun seg hs => cptsToUtf8_of_encodable (hseg seg hs), ?_⟩
  rw [unicodeByteEncodingProcess, List.mapM_map]
  refine Except.mapM_of_ok fun seg hs => ?_
  dsimp only [Function.comp]
  rw [cptsFromUtf8_flatMap (hseg seg hs), cptsToUtf8_of_encodable (hseg seg hs)]
  rfl

/-- The words of a text whose code points can be encoded. -/
theorem regexSplit_of_encodable (hsup : ∀ regexExpr ∈ regexExprs, Supports env text regexExpr)
    (henc : ∀ cpt ∈ unicodeCptsFromUtf8 text, Encodable cpt) :
    ∃ segs : List (List UInt32), segs.flatten = unicodeCptsFromUtf8 text ∧
      unicodeRegexSplit env text regexExprs = .ok (segs.map fun seg =>
        (seg.flatMap utf8Of).flatMap unicodeByteToUtf8) := by
  obtain ⟨hiff, hsum⟩ := splitAll_spec env regexExprs
    (show [(unicodeCptsFromUtf8 text).length].sum = _ from List.sum_singleton)
  obtain ⟨offsets, hoffsets⟩ := hiff.2 hsup
  obtain ⟨hwords, hbytes⟩ := words_spec henc (hsum offsets hoffsets)
  refine ⟨_, List.flatten_splitLengths _ offsets (Nat.le_of_eq (hsum offsets hoffsets).symm), ?_⟩
  rw [unicodeRegexSplit, hoffsets, Except.ok_bind_eq, hwords, Except.ok_bind_eq, hbytes]

/-- What is returned has been encoded. -/
theorem encodable_of_regexSplit (h : unicodeRegexSplit env text regexExprs = .ok words) :
    (∀ regexExpr ∈ regexExprs, Supports env text regexExpr) ∧
      ∀ cpt ∈ unicodeCptsFromUtf8 text, Encodable cpt := by
  obtain ⟨hiff, hsum⟩ := splitAll_spec env regexExprs
    (show [(unicodeCptsFromUtf8 text).length].sum = _ from List.sum_singleton)
  obtain ⟨offsets, hoffsets, h⟩ := Except.bind_eq_ok.1 h
  obtain ⟨bpeWords, hwords, -⟩ := Except.bind_eq_ok.1 h
  refine ⟨hiff.1 ⟨offsets, hoffsets⟩, fun cpt hcpt => ?_⟩
  rw [← List.flatten_splitLengths (unicodeCptsFromUtf8 text) offsets
    (Nat.le_of_eq (hsum offsets hoffsets).symm)] at hcpt
  obtain ⟨seg, hseg, hcpt⟩ := List.mem_flatten.1 hcpt
  obtain ⟨bytes, -, hbytes⟩ := Except.ok_of_mapM hwords hseg
  exact encodable_of_cptsToUtf8 hbytes cpt hcpt

/-- The bytes of the words, in order. -/
theorem decode_words (segs : List (List UInt32)) :
    (segs.map fun seg => (seg.flatMap utf8Of).flatMap unicodeByteToUtf8).mapM llamaDecodeText =
      .ok (segs.map (·.flatMap utf8Of)) := by
  rw [List.mapM_map]
  exact Except.mapM_of_ok fun seg _ => llamaDecodeText_bytes _

theorem flatten_words {segs : List (List UInt32)} (h : segs.flatten = cpts) :
    (segs.map (·.flatMap utf8Of)).flatten = cpts.flatMap utf8Of := by
  rw [← h, ← List.flatMap_def, List.flatten_eq_flatMap, List.flatMap_assoc]
  rfl

theorem lossless_iff (env : UnicodeEnv) (text : Text) (regexExprs : List Text) :
    Lossless env text regexExprs ↔ (∀ regexExpr ∈ regexExprs, Supports env text regexExpr) ∧
      ∀ piece ∈ decodedPieces text, isCanonical piece.1 := by
  rw [← decodedPieces_iff]
  constructor
  · rintro ⟨words, decoded, hwords, hdecoded, htext⟩
    obtain ⟨hsup, henc⟩ := encodable_of_regexSplit hwords
    obtain ⟨segs, hsegs, heq⟩ := regexSplit_of_encodable hsup henc
    cases hwords.symm.trans heq
    cases hdecoded.symm.trans (decode_words segs)
    rw [flatten_words hsegs] at htext
    exact ⟨hsup, henc, htext⟩
  · rintro ⟨hsup, henc, htext⟩
    obtain ⟨segs, hsegs, heq⟩ := regexSplit_of_encodable hsup henc
    exact ⟨_, _, heq, decode_words segs, (flatten_words hsegs).trans htext⟩

/-- An engine that takes every expression and finds nothing. -/
def idleEngine (α : Type) : RegexEngine α where
  compile _ := some fun _ => []
  inOrder h _ := by
    cases h
    trivial

def idleEnv : UnicodeEnv := ⟨fun _ => {}, id, idleEngine UInt8, idleEngine UInt32⟩

/-- Every text is split without loss by every list of expressions that the engine takes. -/
def PretokenizeLaw : Prop :=
  ∀ (env : UnicodeEnv) (text : Text) (regexExprs : List Text),
    (∀ expr, (env.regex.compile expr).isSome) → (∀ expr, (env.wregex.compile expr).isSome) →
    Lossless env text regexExprs

/-- The bytes F5 80 80 80 are decoded to U+140000, which cannot be encoded. -/
theorem not_pretokenizeLaw : ¬ PretokenizeLaw := by
  intro h
  obtain ⟨words, -, hwords, -⟩ := h idleEnv [0xF5, 0x80, 0x80, 0x80] [] (fun _ => rfl) fun _ => rfl
  have herror : unicodeRegexSplit idleEnv [0xF5, 0x80, 0x80, 0x80] [] =
      .error .invalidCodepoint := by
    decide +kernel
  cases hwords.symm.trans herror

end Split

end LamaServer
