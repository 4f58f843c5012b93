import Mathlib.Data.List.Basic
import Mathlib.Tactic.SplitIfs

/-!
# Base 64

RFC 4648: a group of three bytes is a number of 24 bits, and its four digits in base 64 are four
characters of the alphabet. The last group may be shorter; `=` stands for the digits it has not.
-/

namespace Base64

/-- The characters of the digits 0 to 63. -/
def alphabet : List UInt8 :=
  "ABCDEFGHIJKLMNOPQRSTUVWXYZabcdefghijklmnopqrstuvwxyz0123456789+/".toList.map
    fun c => UInt8.ofNat c.toNat

def pad : UInt8 := 61

def digit (n : Nat) : UInt8 := alphabet.getD n pad

def value (c : UInt8) : Nat := alphabet.idxOf c

def encode : List UInt8 → List UInt8
  | [] => []
  | [a] => [digit (a.toNat / 4), digit (a.toNat * 16 % 64), pad, pad]
  | [a, b] =>
    let n := a.toNat * 256 + b.toNat
    [digit (n / 1024), digit (n / 16 % 64), digit (n * 4 % 64), pad]
  | a :: b :: c :: bytes =>
    let n := (a.toNat * 256 + b.toNat) * 256 + c.toNat
    digit (n / 262144) :: digit (n / 4096 % 64) :: digit (n / 64 % 64) :: digit (n % 64) ::
      encode bytes

/-- The bytes that the digits are of; bits that do not fill a byte are dropped. -/
def decode : List UInt8 → List UInt8
  | [] | [_] => []
  | [a, b] => [UInt8.ofNat ((value a * 64 + value b) / 16)]
  | [a, b, c] =>
    let n := (value a * 64 + value b) * 64 + value c
    [UInt8.ofNat (n / 1024), UInt8.ofNat (n / 4 % 256)]
  | a :: b :: c :: d :: chars =>
    let n := ((value a * 64 + value b) * 64 + value c) * 64 + value d
    UInt8.ofNat (n / 65536) :: UInt8.ofNat (n / 256 % 256) :: UInt8.ofNat (n % 256) ::
      decode chars

variable {n : Nat} {c : UInt8}

theorem encode_one (a : UInt8) :
    encode [a] = [digit (a.toNat / 4), digit (a.toNat * 16 % 64), pad, pad] := rfl

theorem encode_two (a b : UInt8) : encode [a, b] =
    let n := a.toNat * 256 + b.toNat
    [digit (n / 1024), digit (n / 16 % 64), digit (n * 4 % 64), pad] := rfl

theorem encode_group (a b c : UInt8) (bytes : List UInt8) : encode (a :: b :: c :: bytes) =
    let n := (a.toNat * 256 + b.toNat) * 256 + c.toNat
    digit (n / 262144) :: digit (n / 4096 % 64) :: digit (n / 64 % 64) :: digit (n % 64) ::
      encode bytes := rfl

theorem decode_group (a b c d : UInt8) (chars : List UInt8) :
    decode (a :: b :: c :: d :: chars) =
      let n := ((value a * 64 + value b) * 64 + value c) * 64 + value d
      UInt8.ofNat (n / 65536) :: UInt8.ofNat (n / 256 % 256) :: UInt8.ofNat (n % 256) ::
        decode chars := rfl

/-- The alphabet by its ranges. -/
theorem alphabet_eq : alphabet =
    (List.range' 65 26 ++ List.range' 97 26 ++ List.range' 48 10 ++ [43, 47]).map UInt8.ofNat :=
  congrArg (List.map _) String.toList_ofList

theorem length_alphabet : alphabet.length = 64 := by rw [alphabet_eq]; rfl

theorem value_lt (h : c ∈ alphabet) : value c < 64 := by
  rw [← length_alphabet]
  exact List.idxOf_lt_length_of_mem h

theorem mem_codes {n : Nat} :
    n ∈ List.range' 65 26 ++ List.range' 97 26 ++ List.range' 48 10 ++ [43, 47] ↔
      65 ≤ n ∧ n ≤ 90 ∨ 97 ≤ n ∧ n ≤ 122 ∨ 48 ≤ n ∧ n ≤ 57 ∨ n = 43 ∨ n = 47 := by
  simp only [List.mem_append, List.mem_range'_1, List.mem_cons, List.not_mem_nil, or_false]
  omega

theorem nodup_codes :
    (List.range' 65 26 ++ List.range' 97 26 ++ List.range' 48 10 ++ [43, 47]).Nodup := by
  simp only [List.nodup_append, List.mem_append, List.mem_range'_1]
  refine ⟨⟨⟨List.nodup_range', List.nodup_range', ?_⟩, List.nodup_range', ?_⟩, by decide, ?_⟩ <;>
    simp <;> omega

theorem nodup_alphabet : alphabet.Nodup := by
  rw [alphabet_eq, List.Nodup, List.pairwise_map]
  refine List.Pairwise.imp_of_mem (fun ha hb hne h => hne ?_) nodup_codes
  rw [mem_codes] at ha hb
  have hval := congrArg UInt8.toNat h
  rwa [UInt8.toNat_ofNat', UInt8.toNat_ofNat', Nat.mod_eq_of_lt (by omega),
    Nat.mod_eq_of_lt (by omega)] at hval

theorem digit_eq (h : n < alphabet.length) : digit n = alphabet[n] := by
  rw [digit, List.getD_eq_getElem?_getD, List.getElem?_eq_getElem h, Option.getD_some]

theorem digit_mem (h : n < 64) : digit n ∈ alphabet := by
  rw [digit_eq (length_alphabet ▸ h)]
  exact List.getElem_mem _

@[simp] theorem value_digit (h : n < 64) : value (digit n) = n := by
  rw [digit_eq (length_alphabet ▸ h)]
  exact List.Nodup.idxOf_getElem nodup_alphabet n _

theorem exists_digit (h : c ∈ alphabet) : ∃ n < 64, c = digit n := by
  obtain ⟨n, hn, rfl⟩ := List.getElem_of_mem h
  exact ⟨n, length_alphabet ▸ hn, (digit_eq hn).symm⟩

theorem mem_alphabet_iff : c ∈ alphabet ↔ 65 ≤ c.toNat ∧ c.toNat ≤ 90 ∨
    97 ≤ c.toNat ∧ c.toNat ≤ 122 ∨ 48 ≤ c.toNat ∧ c.toNat ≤ 57 ∨ c.toNat = 43 ∨ c.toNat = 47 := by
  rw [alphabet_eq, List.mem_map, ← mem_codes]
  refine ⟨fun ⟨n, hn, hc⟩ => ?_, fun h => ⟨_, h, UInt8.ofNat_toNat⟩⟩
  have hlt : n < 256 := by
    rw [mem_codes] at hn
    omega
  rwa [← hc, UInt8.toNat_ofNat', Nat.mod_eq_of_lt hlt]

theorem pad_notMem : pad ∉ alphabet := by
  rw [mem_alphabet_iff]
  decide

/-- The characters of an encoding before the first `=`. -/
theorem takeWhile_cons_digit (h : n < 64) (chars : List UInt8) :
    (digit n :: chars).takeWhile (· ∈ alphabet) = digit n :: chars.takeWhile (· ∈ alphabet) :=
  List.takeWhile_cons_of_pos (by simpa using digit_mem h)

theorem takeWhile_pad (chars : List UInt8) : (pad :: chars).takeWhile (· ∈ alphabet) = [] :=
  List.takeWhile_cons_of_neg (by simpa using pad_notMem)

theorem ofNat_eq (h : n = c.toNat) : UInt8.ofNat n = c := by rw [h, UInt8.ofNat_toNat]

theorem decode_encode : ∀ bytes : List UInt8,
    decode ((encode bytes).takeWhile (· ∈ alphabet)) = bytes
  | [] => rfl
  | [a] => by
    have ha := a.toNat_lt
    simp (disch := omega) only [encode_one, takeWhile_cons_digit, takeWhile_pad, decode,
      value_digit]
    rw [ofNat_eq (c := a) (by omega)]
  | [a, b] => by
    have ha := a.toNat_lt
    have hb := b.toNat_lt
    simp (disch := omega) only [encode_two, takeWhile_cons_digit, takeWhile_pad, decode,
      value_digit]
    rw [ofNat_eq (c := a) (by omega), ofNat_eq (c := b) (by omega)]
  | a :: b :: c :: bytes => by
    have ha := a.toNat_lt
    have hb := b.toNat_lt
    have hc := c.toNat_lt
    simp (disch := omega) only [encode_group, takeWhile_cons_digit, decode, value_digit]
    rw [ofNat_eq (c := a) (by omega), ofNat_eq (c := b) (by omega), ofNat_eq (c := c) (by omega),
      decode_encode bytes]

theorem length_decode : ∀ chars : List UInt8, (decode chars).length = chars.length * 3 / 4
  | [] | [_] | [_, _] | [_, _, _] => by
    simp only [List.length_cons, List.length_nil]
    rfl
  | a :: b :: c :: d :: chars => by
    simp only [decode_group, List.length_cons, length_decode chars]
    omega

/-- A character that starts a group adds no byte. -/
theorem decode_concat : ∀ {chars : List UInt8}, chars.length % 4 = 0 →
    decode (chars ++ [c]) = decode chars
  | [], _ => rfl
  | [_], h | [_, _], h | [_, _, _], h => by simp at h
  | a :: b :: c :: d :: chars, h => by
    simp only [List.cons_append, decode_group]
    rw [decode_concat (by simp only [List.length_cons] at h; omega)]

/-- What is encoded has at most two characters that are not digits. -/
theorem length_encode : ∀ bytes : List UInt8,
    (encode bytes).length ≤ ((encode bytes).takeWhile (· ∈ alphabet)).length + 2
  | [] => Nat.zero_le _
  | [a] => by
    have ha := a.toNat_lt
    simp (disch := omega) only [encode_one, takeWhile_cons_digit, takeWhile_pad]
    exact Nat.le_refl 4
  | [a, b] => by
    have ha := a.toNat_lt
    have hb := b.toNat_lt
    simp (disch := omega) only [encode_two, takeWhile_cons_digit, takeWhile_pad]
    exact Nat.le_succ 4
  | a :: b :: c :: bytes => by
    have ha := a.toNat_lt
    have hb := b.toNat_lt
    have hc := c.toNat_lt
    have ih := length_encode bytes
    simp (disch := omega) only [encode_group, takeWhile_cons_digit, List.length_cons]
    omega

end Base64
