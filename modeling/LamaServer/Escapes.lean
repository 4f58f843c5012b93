import LamaServer.Generation
import LamaServer.GrammarParser
import LamaServer.Hex

/-!
# Escapes on the command line

`string_process_escapes` replaces the escapes of a string in the buffer that it reads them from.
-/

namespace LamaServer

/-- The digits at the start of a string. -/
def hexDigits : Text → List Nat
  | [] => []
  | c :: s =>
    match hexValue c with
    | some d => d :: hexDigits s
    | none => []

/-- `strtol(s, &err_p, 16)` of the C string at the start of `s`, if it is too short to overflow: the
number, and how far `err_p` is behind. -/
def strtol16 (s : Text) : Int × Nat :=
  let s := s.takeWhile (· ≠ 0)
  let unsigned := s.dropWhile isSpace
  let negative := unsigned.head? = some (ascii '-')
  let unsigned := if unsigned.head? = some (ascii '+') ∨ negative then unsigned.tail else unsigned
  -- the prefix `0x` counts only before a digit
  let number := match unsigned with
    | 48 :: x :: d :: rest =>
      if (x = ascii 'x' ∨ x = ascii 'X') ∧ (hexValue d).isSome then d :: rest else unsigned
    | _ => unsigned
  let digits := hexDigits number
  let value : Int := digits.foldl (fun acc d => 16 * acc + d) 0
  if digits = [] then (0, 0)
  else (if negative then -value else value, s.length - (number.length - digits.length))

/-- The characters that one letter stands for. -/
def simpleEscape (c : UInt8) : Option UInt8 :=
  if c = ascii 'n' then some (ascii '\n')
  else if c = ascii 'r' then some (ascii '\r')
  else if c = ascii 't' then some (ascii '\t')
  else if c = ascii '\'' then some (ascii '\'')
  else if c = ascii '"' then some (ascii '"')
  else if c = ascii '\\' then some (ascii '\\')
  else none

/-- `string_process_escapes` between two characters. -/
structure EscapeState where
  input : Text
  inputIdx : Nat := 0
  outputIdx : Nat := 0
  /-- where it has written, with `inputIdx` at the time -/
  writes : List (Nat × Nat) := []
  deriving DecidableEq, Repr

namespace EscapeState

def get (st : EscapeState) (i : Nat) : UInt8 := st.input.getD i 0

/-- `input[output_idx++] = c`. -/
def put (st : EscapeState) (c : UInt8) : EscapeState where
  input := st.input.set st.outputIdx c
  inputIdx := st.inputIdx
  outputIdx := st.outputIdx + 1
  writes := st.writes ++ [(st.outputIdx, st.inputIdx)]

def advance (st : EscapeState) (n : Nat) : EscapeState := { st with inputIdx := st.inputIdx + n }

/-- The `switch`, where `inputIdx` is behind a backslash. -/
def escape (inputLen : Nat) (st : EscapeState) : EscapeState :=
  let c := st.get st.inputIdx
  match simpleEscape c with
  | some d => st.put d
  | none =>
    let (val, len) := strtol16 [st.get (st.inputIdx + 1), st.get (st.inputIdx + 2)]
    if c = ascii 'x' ∧ st.inputIdx + 2 < inputLen ∧ len = 2 then
      (st.advance 2).put (UInt8.ofInt val)
    else
      let st := st.put (ascii '\\')
      st.put (st.get st.inputIdx)

/-- The body of the loop and `++input_idx`. -/
def step (inputLen : Nat) (st : EscapeState) : EscapeState :=
  let c := st.get st.inputIdx
  if c = ascii '\\' ∧ st.inputIdx + 1 < inputLen then ((st.advance 1).escape inputLen).advance 1
  else (st.put c).advance 1

/-- The loop, which takes at most `fuel` rounds. -/
def loop (inputLen : Nat) : Nat → EscapeState → EscapeState
  | 0, st => st
  | fuel + 1, st => if st.inputIdx < inputLen then loop inputLen fuel (st.step inputLen) else st

end EscapeState

/-- The state at the end of the loop. -/
def escapeRun (input : Text) : EscapeState := EscapeState.loop input.length input.length { input }

/-- `string_process_escapes`. -/
def stringProcessEscapes (input : Text) : Text :=
  (escapeRun input).input.take (escapeRun input).outputIdx

end LamaServer
