import Mathlib.Data.List.Basic
import LamaServer.Lib.Except

/-!
# JSON values

What `nlohmann::ordered_json` holds, and `dump` with and without indentation: characters are kept
but for the quotation mark, the backslash and the control characters, which are escaped. Members
are looked up, and values read as strings, with the exceptions that the class has for it.
-/

namespace LamaServer

/-- A finite floating-point number, by the digits that `dump_float` writes of it. -/
structure FloatText where
  chars : List Char
  plain : ∀ c ∈ chars, c.isDigit ∨ c ∈ ['-', '+', '.', 'e']

inductive Json where
  | null
  | boolean (b : Bool)
  | integer (n : Int)
  | float (x : FloatText)
  | string (s : List Char)
  | array (values : List Json)
  | object (members : List (List Char × Json))

namespace Json

/-- `"\\u%04x"`. -/
def unicodeEscape (codepoint : Nat) : List Char :=
  ['\\', 'u', Nat.digitChar (codepoint / 4096 % 16), Nat.digitChar (codepoint / 256 % 16),
    Nat.digitChar (codepoint / 16 % 16), Nat.digitChar (codepoint % 16)]

/-- The loop of `dump_escaped`. -/
def escapeChar (c : Char) : List Char :=
  if c.toNat = 0x08 then ['\\', 'b']
  else if c.toNat = 0x09 then ['\\', 't']
  else if c.toNat = 0x0A then ['\\', 'n']
  else if c.toNat = 0x0C then ['\\', 'f']
  else if c.toNat = 0x0D then ['\\', 'r']
  else if c.toNat = 0x22 then ['\\', '"']
  else if c.toNat = 0x5C then ['\\', '\\']
  else if c.toNat ≤ 0x1F then unicodeEscape c.toNat
  else [c]

def dumpEscaped (s : List Char) : List Char := s.flatMap escapeChar

def dumpString (s : List Char) : List Char := '"' :: dumpEscaped s ++ ['"']

mutual

def dump : Json → List Char
  | null => ['n', 'u', 'l', 'l']
  | boolean true => ['t', 'r', 'u', 'e']
  | boolean false => ['f', 'a', 'l', 's', 'e']
  | integer n => (toString n).toList
  | float x => x.chars
  | string s => dumpString s
  | array values => '[' :: dumpValues values ++ [']']
  | object members => '{' :: dumpMembers members ++ ['}']

/-- The elements of an array. -/
def dumpValues : List Json → List Char
  | [] => []
  | [v] => v.dump
  | v :: values => v.dump ++ ',' :: dumpValues values

/-- The members of an object. -/
def dumpMembers : List (List Char × Json) → List Char
  | [] => []
  | [(key, v)] => dumpString key ++ ':' :: v.dump
  | (key, v) :: members => dumpString key ++ ':' :: v.dump ++ ',' :: dumpMembers members

end

def newLine (indent : Nat) : List Char := '\n' :: List.replicate indent ' '

mutual

/-- `dump(step)`, where `current` is the indentation so far. -/
def dumpIndented (step : Nat) (current : Nat) : Json → List Char
  | array [] => ['[', ']']
  | array (v :: values) =>
    '[' :: newLine (current + step) ++ v.dumpIndented step (current + step) ++
      indentedValues step (current + step) values ++ newLine current ++ [']']
  | object [] => ['{', '}']
  | object ((key, v) :: members) =>
    '{' :: newLine (current + step) ++ dumpString key ++ [':', ' '] ++
      v.dumpIndented step (current + step) ++ indentedMembers step (current + step) members ++
      newLine current ++ ['}']
  | null => null.dump
  | boolean b => (boolean b).dump
  | integer n => (integer n).dump
  | float x => (float x).dump
  | string s => (string s).dump

/-- The elements of an array behind the first one. -/
def indentedValues (step : Nat) (current : Nat) : List Json → List Char
  | [] => []
  | v :: values =>
    ',' :: newLine current ++ v.dumpIndented step current ++ indentedValues step current values

/-- The members of an object behind the first one. -/
def indentedMembers (step : Nat) (current : Nat) : List (List Char × Json) → List Char
  | [] => []
  | (key, v) :: members =>
    ',' :: newLine current ++ dumpString key ++ [':', ' '] ++ v.dumpIndented step current ++
      indentedMembers step current members

end

/-- The exceptions of the class, by their numbers. -/
inductive Exception where
  | parseError
  | typeError (id : Nat)
  | outOfRange (id : Nat)
  deriving DecidableEq

def contains (v : Json) (key : String) : Bool :=
  match v with
  | object members => (members.lookup key.toList).isSome
  | _ => false

/-- `v.at(key)`. -/
def atKey (v : Json) (key : String) : Except Exception Json :=
  match v with
  | object members => .ofOption (.outOfRange 403) (members.lookup key.toList)
  | _ => .error (.typeError 304)

/-- What `for (const auto & x : v)` runs over. -/
def elements : Json → List Json
  | null => []
  | array values => values
  | object members => members.map (·.2)
  | v => [v]

end Json

end LamaServer
