import LamaServer.Hex

/-!
# The strings that hexadecimal decoding accepts

Each pair of characters goes through `std::stoul`, which skips blanks, takes a sign and stops at
what is no digit. So a digit and anything is a byte, and so is a digit behind a blank or a sign.
-/

namespace LamaServer

/-- The pairs of characters that are decoded. -/
def hexCharPairs : Bytes → List (UInt8 × UInt8)
  | a :: b :: rest => (a, b) :: hexCharPairs rest
  | _ => []

/-- `std::stoul` finds a number in the pair. -/
def ReadsPair (p : UInt8 × UInt8) : Prop :=
  (hexValue p.1).isSome ∨
    (isSpace p.1 ∨ p.1 = 43 ∨ p.1 = 45) ∧ (hexValue p.2).isSome

instance (p : UInt8 × UInt8) : Decidable (ReadsPair p) := by unfold ReadsPair; infer_instance

/-- The character in lower case. -/
def toLowerByte (c : UInt8) : UInt8 := if 65 ≤ c ∧ c ≤ 90 then c + 32 else c

/-- A string is rejected, or it is the text of what it is decoded to. -/
def DecodesText (s : Bytes) : Prop :=
  ∀ bytes, hexToBytes s = .ok bytes →
    s.length % 2 = 0 ∧ (∀ c ∈ s, (hexValue c).isSome) ∧ bytesToHex bytes = s.map toLowerByte

/-- The codec is a bijection on its image. -/
def HexLaw : Prop := (∀ bytes, hexToBytes (bytesToHex bytes) = .ok bytes) ∧ ∀ s, DecodesText s

variable {a b : UInt8} {s : Bytes} {x y : Nat}

theorem hexValue_lt (h : hexValue a = some x) : x < 16 := by
  have hle := fun n : UInt8 => UInt8.le_iff_toNat_le (a := a) (b := n)
  unfold hexValue at h
  split_ifs at h with h1 h2 h3 <;> cases h
  · have := (hle 57).1 h1.2
    change a.toNat ≤ 57 at this
    omega
  · have := (hle 102).1 h2.2
    change a.toNat ≤ 102 at this
    omega
  · have := (hle 70).1 h3.2
    change a.toNat ≤ 70 at this
    omega

/-- A digit is the text of its value, in lower case. -/
theorem hexDigit_hexValue (h : hexValue a = some x) : hexDigit x = toLowerByte a := by
  have key : ∀ n : Fin 256, ∀ x ∈ hexValue (UInt8.ofNat n.val),
      hexDigit x = toLowerByte (UInt8.ofNat n.val) := by decide +kernel
  have := key ⟨a.toNat, a.toNat_lt⟩ x
  rw [UInt8.ofNat_toNat] at this
  exact this h

theorem not_isSpace_of_hexValue (h : hexValue a = some x) :
    isSpace a = false ∧ a ≠ 43 ∧ a ≠ 45 := by
  have key : ∀ n : Fin 256, (hexValue (UInt8.ofNat n.val)).isSome →
      isSpace (UInt8.ofNat n.val) = false ∧ UInt8.ofNat n.val ≠ 43 ∧ UInt8.ofNat n.val ≠ 45 := by
    decide +kernel
  have := key ⟨a.toNat, a.toNat_lt⟩
  rw [UInt8.ofNat_toNat] at this
  exact this (by rw [h]; rfl)

theorem stoul16_digits (ha : hexValue a = some x) (hb : hexValue b = some y) :
    stoul16 [a, b] = .ok (16 * x + y) := by
  obtain ⟨hspace, hplus, hminus⟩ := not_isSpace_of_hexValue ha
  simp [stoul16, hspace, hplus, hminus, ha, hb, List.reduceOption]

theorem stoul16_digit (ha : hexValue a = some x) (hb : hexValue b = none) :
    stoul16 [a, b] = .ok x := by
  obtain ⟨hspace, hplus, hminus⟩ := not_isSpace_of_hexValue ha
  simp [stoul16, hspace, hplus, hminus, ha, hb, List.reduceOption]

/-- One character is a number when it is a digit. -/
theorem stoul16_single (b : UInt8) : (stoul16 [b]).isOk = (hexValue b).isSome := by
  rcases hb : hexValue b with _ | y
  · by_cases hspace : isSpace b = true
    · simp [stoul16, hspace, Except.isOk, Except.toBool]
    · have hdrop : [b].dropWhile isSpace = [b] := by simp [hspace]
      by_cases hsign : b = 43 ∨ b = 45
      · simp [stoul16, hdrop, hsign, Except.isOk, Except.toBool]
      · simp [stoul16, hdrop, hsign, hb, Except.isOk, Except.toBool]
  · obtain ⟨hspace, hplus, hminus⟩ := not_isSpace_of_hexValue hb
    simp [stoul16, hspace, hplus, hminus, hb, List.reduceOption, Except.isOk, Except.toBool]

/-- A blank in front is skipped. -/
theorem stoul16_blank (hspace : isSpace a = true) : stoul16 [a, b] = stoul16 [b] := by
  simp [stoul16, hspace]

/-- A sign in front is taken. -/
theorem stoul16_sign (hsign : a = 43 ∨ a = 45) :
    (stoul16 [a, b]).isOk = (hexValue b).isSome := by
  have hdrop : [a, b].dropWhile isSpace = [a, b] := by rcases hsign with rfl | rfl <;> rfl
  have hhead : ([a, b].head? = some 43 ∨ [a, b].head? = some 45) := by simpa using hsign
  unfold stoul16
  simp only [hdrop, hhead, if_true, List.tail_cons]
  rcases hb : hexValue b with _ | y <;>
    simp [hb, List.reduceOption, Except.isOk, Except.toBool]

/-- Nothing is read from a character that is no digit, sign or blank. -/
theorem stoul16_other (ha : hexValue a = none) (hspace : isSpace a = false)
    (hsign : ¬(a = 43 ∨ a = 45)) : (stoul16 [a, b]).isOk = false := by
  simp [stoul16, hspace, hsign, ha, Except.isOk, Except.toBool]

/-- The pair is read if and only if there is a number in it. -/
theorem stoul16_isOk (a b : UInt8) : (stoul16 [a, b]).isOk = true ↔ ReadsPair (a, b) := by
  rcases ha : hexValue a with _ | x
  · by_cases hspace : isSpace a = true
    · simp [stoul16_blank hspace, stoul16_single, ReadsPair, ha, hspace]
    · by_cases hsign : a = 43 ∨ a = 45
      · simp [stoul16_sign hsign, ReadsPair, ha, hsign]
      · simp only [Bool.not_eq_true] at hspace
        simp [stoul16_other ha hspace hsign, ReadsPair, ha, hspace, hsign]
  · refine iff_of_true ?_ (.inl (by simp [ha]))
    rcases hb : hexValue b with _ | y
    · rw [stoul16_digit ha hb]
      rfl
    · rw [stoul16_digits ha hb]
      rfl

/-- The pairs are decoded if and only if each of them is read. -/
theorem hexPairs_isOk : ∀ s : Bytes, (hexPairs s).isOk = true ↔ ∀ p ∈ hexCharPairs s, ReadsPair p
  | [] | [_] => by simp [hexPairs, hexCharPairs, Except.isOk, Except.toBool, pure, Except.pure]
  | a :: b :: rest => by
    have ih := hexPairs_isOk rest
    rw [hexCharPairs, List.forall_mem_cons, ← ih, ← stoul16_isOk, hexPairs]
    rcases stoul16 [a, b] with e | byte
    · simp [bind, Except.bind, Except.isOk, Except.toBool]
    · rcases hexPairs rest with e | bytes <;>
        simp [bind, Except.bind, pure, Except.pure, Except.isOk, Except.toBool]

/-- The digits of a pair are the text of the byte. -/
theorem bytesToHex_digits (ha : hexValue a = some x) (hb : hexValue b = some y) (bytes : Bytes) :
    bytesToHex (UInt8.ofNat (16 * x + y) :: bytes) =
      toLowerByte a :: toLowerByte b :: bytesToHex bytes := by
  have hx := hexValue_lt ha
  have hy := hexValue_lt hb
  have hbyte : (UInt8.ofNat (16 * x + y)).toNat = 16 * x + y := by
    rw [UInt8.toNat_ofNat']
    omega
  rw [bytesToHex_cons, hbyte, ← hexDigit_hexValue ha, ← hexDigit_hexValue hb,
    show (16 * x + y) / 16 = x by omega, show (16 * x + y) % 16 = y by omega]

/-- A string of digits is the text of what it is decoded to. -/
theorem bytesToHex_hexPairs : ∀ {s : Bytes} {bytes : Bytes}, s.length % 2 = 0 →
    (∀ c ∈ s, (hexValue c).isSome) → hexPairs s = .ok bytes → bytesToHex bytes = s.map toLowerByte
  | [], bytes, _, _, h => by
    cases h
    rfl
  | [_], _, heven, _, _ => by simp at heven
  | a :: b :: rest, bytes, heven, hdigits, h => by
    obtain ⟨x, ha⟩ := Option.isSome_iff_exists.1 (hdigits a (by simp))
    obtain ⟨y, hb⟩ := Option.isSome_iff_exists.1 (hdigits b (by simp))
    rw [hexPairs, stoul16_digits ha hb] at h
    rcases hrest : hexPairs rest with e | tail
    · rw [hrest] at h
      cases h
    · rw [hrest] at h
      cases h
      have heven' : rest.length % 2 = 0 := by
        simp only [List.length_cons] at heven
        omega
      have ih := bytesToHex_hexPairs heven' (fun c hc => hdigits c (by simp [hc])) hrest
      rw [bytesToHex_digits ha hb, ih]
      rfl

/-- Bytes are read back from their text. A string is rejected or is the text of its bytes if and
only if its length is odd, a pair of it is not read, or it consists of digits. -/
theorem hexCodec_iff (s : Bytes) : (∀ bytes, hexToBytes (bytesToHex bytes) = .ok bytes) ∧
    (DecodesText s ↔ s.length % 2 ≠ 0 ∨ (∃ p ∈ hexCharPairs s, ¬ReadsPair p) ∨
      ∀ c ∈ s, (hexValue c).isSome) := by
  refine ⟨hexToBytes_bytesToHex, ?_⟩
  by_cases heven : s.length % 2 ≠ 0
  · refine iff_of_true (fun bytes h => ?_) (.inl heven)
    rw [hexToBytes, if_pos heven] at h
    cases h
  rw [or_iff_right heven]
  simp only [ne_eq, Decidable.not_not] at heven
  have hdecode : hexToBytes s = hexPairs s := by simp [hexToBytes, heven]
  by_cases hreads : ∀ p ∈ hexCharPairs s, ReadsPair p
  · obtain ⟨bytes, hbytes⟩ : ∃ bytes, hexPairs s = .ok bytes := by
      have := (hexPairs_isOk s).2 hreads
      rcases h : hexPairs s with e | bytes
      · rw [h] at this
        cases this
      · exact ⟨bytes, rfl⟩
    have hnot : ¬∃ p ∈ hexCharPairs s, ¬ReadsPair p := fun ⟨p, hp, hno⟩ => hno (hreads p hp)
    rw [or_iff_right hnot]
    constructor
    · intro h
      exact (h bytes (hdecode.trans hbytes)).2.1
    · intro hdigits bytes' h
      exact ⟨heven, hdigits, bytesToHex_hexPairs heven hdigits (hdecode.symm.trans h)⟩
  · have hnot : ∃ p ∈ hexCharPairs s, ¬ReadsPair p := by
      simpa only [not_forall, exists_prop] using hreads
    refine iff_of_true (fun bytes h => ?_) (.inl hnot)
    rw [hdecode] at h
    exact absurd ((hexPairs_isOk s).1 (by rw [h]; rfl)) hreads

/-- The text `1g` is decoded to the byte `01`. -/
theorem not_hexLaw : ¬HexLaw := fun h =>
  absurd ((h.2 [49, 103] [1] (by decide +kernel)).2.1 103 (by simp)) (by decide)

end LamaServer
