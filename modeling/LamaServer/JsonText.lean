import Mathlib.Computability.Language
import LamaServer.Chat

/-!
# JSON texts

What a JSON text spells, as `nlohmann::ordered_json` takes it: a key that comes again replaces the
value that it had. What a number amounts to is left to the library.
-/

namespace LamaServer

namespace Json

/-- `operator[]` of `ordered_map`, and an assignment to what it returns. -/
def assign (members : List (List Char × Json)) (key : List Char) (v : Json) :
    List (List Char × Json) :=
  if key ∈ members.map (·.1) then members.map fun m => if m.1 = key then (key, v) else m
  else members ++ [(key, v)]

/-- The object with these members, read one after the other. -/
def ofMembers (members : List (List Char × Json)) : Json :=
  object (members.foldl (fun ms m => assign ms m.1 m.2) [])

theorem foldl_assign : ∀ {ms members : List (List Char × Json)},
    ((ms ++ members).map (·.1)).Nodup →
      members.foldl (fun ms m => assign ms m.1 m.2) ms = ms ++ members
  | ms, [], _ => (List.append_nil ms).symm
  | ms, (key, v) :: members, h => by
    have hnot : key ∉ ms.map (·.1) := fun hmem => by
      rw [List.map_append, List.nodup_append] at h
      exact h.2.2 key hmem key List.mem_cons_self rfl
    rw [List.foldl_cons, assign, if_neg hnot, foldl_assign, List.append_assoc, List.singleton_append]
    rwa [List.append_assoc]

/-- Keys that differ replace nothing. -/
theorem ofMembers_of_nodup {members : List (List Char × Json)} (h : (members.map (·.1)).Nodup) :
    ofMembers members = object members := by
  rw [ofMembers, foldl_assign (by simpa using h), List.nil_append]

def isBlank (c : Char) : Bool := c = ' ' ∨ c = '\t' ∨ c = '\n' ∨ c = '\r'

/-! ## Strings -/

def hexDigit (c : Char) : Option Nat :=
  if '0' ≤ c ∧ c ≤ '9' then some (c.toNat - 48)
  else if 'a' ≤ c ∧ c ≤ 'f' then some (c.toNat - 87)
  else if 'A' ≤ c ∧ c ≤ 'F' then some (c.toNat - 55)
  else none

/-- The number of four hexadecimal digits. -/
def codeUnit (a b c d : Char) : Option Nat := do
  let a ← hexDigit a
  let b ← hexDigit b
  let c ← hexDigit c
  let d ← hexDigit d
  pure (4096 * a + 256 * b + 16 * c + d)

/-- What a character stands for behind a backslash. -/
def escaped : List (Char × Char) :=
  [('"', '"'), ('\\', '\\'), ('/', '/'), ('b', '\x08'), ('f', '\x0C'), ('n', '\n'), ('r', '\r'),
    ('t', '\t')]

/-- A text in a string that stands for one character. -/
inductive CharText : List Char → Char → Prop
  | plain {c : Char} : c ≠ '"' → c ≠ '\\' → 0x20 ≤ c.toNat → CharText [c] c
  | escape {e c : Char} : escaped.lookup e = some c → CharText ['\\', e] c
  | unit {a b c d : Char} {n : Nat} : codeUnit a b c d = some n → n < 0xD800 ∨ 0xE000 ≤ n →
      CharText ['\\', 'u', a, b, c, d] (Char.ofNat n)
  /-- two surrogates -/
  | pair {a b c d e f g h : Char} {high low : Nat} :
      codeUnit a b c d = some high → 0xD800 ≤ high → high < 0xDC00 →
      codeUnit e f g h = some low → 0xDC00 ≤ low → low < 0xE000 →
      CharText ['\\', 'u', a, b, c, d, '\\', 'u', e, f, g, h]
        (Char.ofNat (0x10000 + 1024 * (high - 0xD800) + (low - 0xDC00)))

/-- A text between quotation marks, and the string that it stands for. -/
inductive StringText : List Char → List Char → Prop
  | nil : StringText [] []
  | cons {w u : List Char} {c : Char} {s : List Char} :
      CharText w c → StringText u s → StringText (w ++ u) (c :: s)

/-! ## Values -/

def digits : Language Char := {w | w ≠ [] ∧ ∀ c ∈ w, c.isDigit}

def integers : Language Char := {w | w ∈ digits ∧ (w.head? = some '0' → w = ['0'])}

def fractions : Language Char := {w | ∃ u ∈ digits, w = '.' :: u}

def exponents : Language Char :=
  {w | ∃ e ∈ ['e', 'E'], ∃ sign ∈ [[], ['+'], ['-']], ∃ u ∈ digits, w = e :: sign ++ u}

/-- The texts of numbers. -/
def numbers : Language Char := (1 + {['-']}) * integers * (1 + fractions) * (1 + exponents)

/-- What a text can spell: a value, or what is between the brackets of one. -/
inductive Item where
  | value (v : Json)
  | elements (values : List Json)
  | members (members : List (List Char × Json))

/-- A text spells an item. There are no blanks around a value. -/
inductive Spells (J : JsonReader) : Item → List Char → Prop
  | null : Spells J (.value .null) ['n', 'u', 'l', 'l']
  | yes : Spells J (.value (.boolean true)) ['t', 'r', 'u', 'e']
  | no : Spells J (.value (.boolean false)) ['f', 'a', 'l', 's', 'e']
  | number {w : List Char} {v : Json} : w ∈ numbers → J.parse (Utf8.encode w) = some v →
      Spells J (.value v) w
  | string {w s : List Char} : StringText w s → Spells J (.value (.string s)) ('"' :: w ++ ['"'])
  | emptyArray {a : List Char} : a.all isBlank → Spells J (.value (.array [])) ('[' :: a ++ [']'])
  | array {values : List Json} {w : List Char} : Spells J (.elements values) w →
      Spells J (.value (.array values)) ('[' :: w ++ [']'])
  | emptyObject {a : List Char} : a.all isBlank →
      Spells J (.value (.object [])) ('{' :: a ++ ['}'])
  | object {members : List (List Char × Json)} {w : List Char} : Spells J (.members members) w →
      Spells J (.value (ofMembers members)) ('{' :: w ++ ['}'])
  | element {a w b : List Char} {v : Json} : a.all isBlank → Spells J (.value v) w →
      b.all isBlank → Spells J (.elements [v]) (a ++ w ++ b)
  | elements {a w b u : List Char} {v : Json} {values : List Json} : a.all isBlank →
      Spells J (.value v) w → b.all isBlank → Spells J (.elements values) u →
      Spells J (.elements (v :: values)) (a ++ w ++ b ++ ',' :: u)
  | member {a k b c w d : List Char} {key : List Char} {v : Json} : a.all isBlank →
      StringText k key → b.all isBlank → c.all isBlank → Spells J (.value v) w → d.all isBlank →
      Spells J (.members [(key, v)]) (a ++ '"' :: k ++ '"' :: b ++ ':' :: c ++ w ++ d)
  | members {a k b c w d u : List Char} {key : List Char} {v : Json}
      {members : List (List Char × Json)} : a.all isBlank → StringText k key → b.all isBlank →
      c.all isBlank → Spells J (.value v) w → d.all isBlank → Spells J (.members members) u →
      Spells J (.members ((key, v) :: members))
        (a ++ '"' :: k ++ '"' :: b ++ ':' :: c ++ w ++ d ++ ',' :: u)

/-- A JSON text and its value: blanks around it do not count. -/
def IsText (J : JsonReader) (w : List Char) (v : Json) : Prop :=
  ∃ a u b, a.all isBlank ∧ Spells J (.value v) u ∧ b.all isBlank ∧ w = a ++ u ++ b

end Json

/-- The library reads JSON texts. -/
structure JsonReader.Correct (J : JsonReader) : Prop where
  parse_eq : ∀ {w : List Char} {v : Json}, Json.IsText J w v → J.parse (Utf8.encode w) = some v
  errorAt_eq_none : ∀ {w : List Char} {v : Json}, Json.IsText J w v →
    J.errorAt (Utf8.encode w) = none
  /-- the reader stops at a character that no value goes on with -/
  errorAt_eq_some : ∀ {w : List Char} {v : Json} {c : Char} {rest : List Char}, Json.IsText J w v →
    c ∈ ['<', '\u0060', '\x7b'] →
      J.errorAt (Utf8.encode (w ++ c :: rest)) = some (Utf8.encode w).length

end LamaServer
