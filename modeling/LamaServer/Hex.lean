import Mathlib.Data.List.ReduceOption
import Mathlib.Data.UInt

/-!
# Hexadecimal text

The database columns hold hashes, keys, tags and nonces as text, two hexadecimal digits for each
byte, and a `BYTEA` column is read as such text too. A `std::string` is its bytes.
-/

namespace LamaServer

/-- `std::vector<uint8_t>` and `std::string`. -/
abbrev Bytes := List UInt8

def hexDigit (n : Nat) : UInt8 := UInt8.ofNat (if n < 10 then 48 + n else 87 + n)

/-- `postgres_client::bytes_to_hex`. -/
def bytesToHex (bytes : Bytes) : Bytes :=
  bytes.flatMap fun b => [hexDigit (b.toNat / 16), hexDigit (b.toNat % 16)]

def isSpace (c : UInt8) : Bool := c = 32 ∨ 9 ≤ c ∧ c ≤ 13

def hexValue (c : UInt8) : Option Nat :=
  if 48 ≤ c ∧ c ≤ 57 then some (c.toNat - 48)
  else if 97 ≤ c ∧ c ≤ 102 then some (c.toNat - 87)
  else if 65 ≤ c ∧ c ≤ 70 then some (c.toNat - 55)
  else none

/-- `std::stoul(s, nullptr, 16)` of a string too short to overflow. -/
def stoul16 (s : Bytes) : Except String Nat :=
  let s := s.dropWhile isSpace
  let negative := s.head? = some 45
  let s := if s.head? = some 43 ∨ negative then s.tail else s
  -- the prefix `0x` counts only before a digit
  let s := match s with
    | 48 :: x :: d :: rest =>
      if (x = 120 ∨ x = 88) ∧ (hexValue d).isSome then d :: rest else s
    | _ => s
  match (s.map hexValue).takeWhile Option.isSome with
  | [] => .error "stoul"
  | digits =>
    let value := digits.reduceOption.foldl (fun acc d => 16 * acc + d) 0
    .ok (if negative then 2 ^ 64 - value else value)

/-- The bytes of the pairs of digits of a string of even length. -/
def hexPairs : Bytes → Except String Bytes
  | a :: b :: rest => do
    let byte ← stoul16 [a, b]
    let bytes ← hexPairs rest
    pure (UInt8.ofNat byte :: bytes)
  | _ => pure []

/-- `postgres_client::hex_to_bytes`. -/
def hexToBytes (hexString : Bytes) : Except String Bytes :=
  if hexString.length % 2 ≠ 0 then .error "Hex string must have an even length."
  else hexPairs hexString

theorem bytesToHex_cons (b : UInt8) (bytes : Bytes) : bytesToHex (b :: bytes) =
    hexDigit (b.toNat / 16) :: hexDigit (b.toNat % 16) :: bytesToHex bytes := rfl

@[simp] theorem length_bytesToHex (bytes : Bytes) :
    (bytesToHex bytes).length = 2 * bytes.length := by
  induction bytes with
  | nil => rfl
  | cons b bytes ih =>
    simp only [bytesToHex_cons, List.length_cons, ih]
    omega

/-- A digit is read as its value, and it is neither a blank nor a sign. -/
theorem hexDigit_spec : ∀ n < 16, hexValue (hexDigit n) = some n ∧ isSpace (hexDigit n) = false ∧
    hexDigit n ≠ 43 ∧ hexDigit n ≠ 45 := by
  decide

theorem stoul16_of_values {x y : UInt8} {a b : Nat} (hx : hexValue x = some a)
    (hy : hexValue y = some b) (hspace : isSpace x = false) (hplus : x ≠ 43) (hminus : x ≠ 45) :
    stoul16 [x, y] = .ok (16 * a + b) := by
  simp [stoul16, hspace, hplus, hminus, hx, hy, List.reduceOption]

theorem stoul16_pair {a b : Nat} (ha : a < 16) (hb : b < 16) :
    stoul16 [hexDigit a, hexDigit b] = .ok (16 * a + b) :=
  have h := hexDigit_spec a ha
  stoul16_of_values h.1 (hexDigit_spec b hb).1 h.2.1 h.2.2.1 h.2.2.2

/-- The two digits of a byte read as the byte. -/
theorem stoul16_hexDigits (b : UInt8) :
    stoul16 [hexDigit (b.toNat / 16), hexDigit (b.toNat % 16)] = .ok b.toNat := by
  have hlt := b.toNat_lt
  rw [stoul16_pair (by omega) (by omega), Nat.div_add_mod]

theorem hexPairs_bytesToHex : ∀ bytes : Bytes, hexPairs (bytesToHex bytes) = .ok bytes
  | [] => rfl
  | b :: bytes => by
    rw [bytesToHex_cons, hexPairs, stoul16_hexDigits, hexPairs_bytesToHex bytes]
    simp only [Except.bind, bind, pure, Except.pure, UInt8.ofNat_toNat]

/-- Reading the text of bytes gives the bytes back. -/
theorem hexToBytes_bytesToHex (bytes : Bytes) : hexToBytes (bytesToHex bytes) = .ok bytes := by
  unfold hexToBytes
  rw [length_bytesToHex, if_neg (by omega), hexPairs_bytesToHex]

/-- The text of bytes determines them. -/
theorem bytesToHex_inj {bytes bytes' : Bytes} (h : bytesToHex bytes = bytesToHex bytes') :
    bytes = bytes' := by
  have := hexToBytes_bytesToHex bytes
  rw [h, hexToBytes_bytesToHex] at this
  exact (Except.ok.inj this).symm

/-- Every digit is a digit of `0`..`9` or `a`..`f`, so neither a blank nor the end of a C string. -/
theorem mem_bytesToHex {bytes : Bytes} {c : UInt8} (h : c ∈ bytesToHex bytes) : c ≠ 0 ∧ c ≠ 32 := by
  have digit : ∀ n : Fin 16, hexDigit n.val ≠ 0 ∧ hexDigit n.val ≠ 32 := by decide
  obtain ⟨b, -, hb⟩ := List.mem_flatMap.1 h
  simp only [List.mem_cons, List.not_mem_nil, or_false] at hb
  have hlt : b.toNat < 256 := b.toNat_lt
  rcases hb with rfl | rfl
  · exact digit ⟨b.toNat / 16, by omega⟩
  · exact digit ⟨b.toNat % 16, by omega⟩

end LamaServer
