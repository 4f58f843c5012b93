import LamaServer.Generation
import LamaServer.GrammarParser

/-!
# Decoding base 64

Images in a request are data URLs. `base64_decode` collects the characters of a group in a buffer of
four, where it replaces them by their digits when the group is complete; what is in the buffer at
the end is filled up with NUL.
-/

namespace LamaServer

def base64Chars : Text :=
  "ABCDEFGHIJKLMNOPQRSTUVWXYZabcdefghijklmnopqrstuvwxyz0123456789+/".toList.map ascii

/-- `isalnum` in the C locale. -/
def isAlnum (c : UInt8) : Bool :=
  ascii '0' ≤ c ∧ c ≤ ascii '9' ∨ ascii 'A' ≤ c ∧ c ≤ ascii 'Z' ∨ ascii 'a' ≤ c ∧ c ≤ ascii 'z'

def isBase64 (c : UInt8) : Bool := isAlnum c ∨ c = ascii '+' ∨ c = ascii '/'

/-- `base64_chars.find(c)` as a `uint8_t`, which makes 255 of `npos`. -/
def base64Find (c : UInt8) : UInt8 :=
  match base64Chars.idxOf? c with
  | some i => UInt8.ofNat i
  | none => 255

/-- `char_array_3` of the characters in `char_array_4`. -/
def base64Group (chars : Text) : Text :=
  let c (i : Nat) : UInt8 := base64Find (chars.getD i 0)
  [(c 0 <<< 2) + ((c 1 &&& 0x30) >>> 4), ((c 1 &&& 0xf) <<< 4) + ((c 2 &&& 0x3c) >>> 2),
    ((c 2 &&& 0x3) <<< 6) + c 3]

/-- `base64_decode` between two characters. -/
structure Base64State where
  /-- the first `i` of `char_array_4` -/
  charArray4 : Text := []
  ret : Text := []
  deriving DecidableEq, Repr

namespace Base64State

def push (st : Base64State) (c : UInt8) : Base64State :=
  let chars := st.charArray4 ++ [c]
  if chars.length = 4 then ⟨[], st.ret ++ base64Group chars⟩ else ⟨chars, st.ret⟩

/-- The loop, where the string goes on with `rest` and ends in a NUL. There is no result where
`in_len--` overflows. -/
def loop (inLen : Int) (st : Base64State) (rest : Text) : Option Base64State :=
  if inLen = 0 then some st
  else if inLen = -2 ^ 31 then none
  else match rest with
    | [] => some st
    | c :: rest =>
      if c ≠ ascii '=' ∧ isBase64 c then loop (inLen - 1) (st.push c) rest else some st

/-- What is left in the buffer is decoded as well. -/
def finish (st : Base64State) : Text :=
  let i := st.charArray4.length
  if i ≠ 0 then
    st.ret ++ (base64Group (st.charArray4 ++ List.replicate (4 - i) 0)).take (i - 1)
  else st.ret

end Base64State

/-- `int in_len = encoded_string.size()`. -/
def base64InLen (encodedString : Text) : Int := Int.bmod encodedString.length (2 ^ 32)

/-- `base64_decode`; there is no result where its behaviour is undefined. -/
def base64Decode (encodedString : Text) : Option Text :=
  (Base64State.loop (base64InLen encodedString) {} encodedString).map Base64State.finish

end LamaServer
