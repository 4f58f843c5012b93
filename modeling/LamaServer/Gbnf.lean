import LamaServer.GrammarParser
import LamaServer.Lib.Ebnf

/-!
# What a grammar says

The meaning that the guide gives to the text of a grammar: each rule stands for an expression, in
which `*`, `+`, `?` and the bounds in braces repeat the symbol or the group before them. Characters,
blanks and names are read as the parser reads them; nothing else of it is used.
-/

namespace LamaServer

namespace Gbnf

/-- Any character, or one of those between brackets. -/
inductive Letter where
  | any
  | cls (k : CharClass)
  deriving DecidableEq, Repr

/-- An empty class has no character, and negated it has all. -/
def Letter.Contains : Letter → UInt32 → Prop
  | any, _ => True
  | cls k, c => k.Contains c

abbrev Expr := Ebnf.Expr Text Letter

/-- A character of a literal. -/
def literalChar (c : UInt32) : Expr := .char (.cls ⟨false, [(c, c)]⟩)

/-- The characters of a literal, from the last one to the first. -/
def literal (chars : List UInt32) : Expr := .seqs (chars.map literalChar)

/-! ## Reading -/

/-- The characters up to the closing quote, behind those that have been read. -/
def readLiteral : Nat → Text → List UInt32 → Option (List UInt32 × Text)
  | 0, _, _ => none
  | _ + 1, [], _ => none
  | fuel + 1, c :: pos, chars =>
    if c = ascii '"' then some (chars, pos)
    else do
      let (chr, pos) ← (parseChar (c :: pos)).toOption
      readLiteral fuel pos (chr :: chars)

/-- The characters and ranges up to the closing bracket. -/
def readRanges : Nat → Text → Option (List (UInt32 × UInt32) × Text)
  | 0, _ => none
  | _ + 1, [] => none
  | fuel + 1, c :: pos =>
    if c = ascii ']' then some ([], pos)
    else do
      let (lo, pos) ← (parseChar (c :: pos)).toOption
      let (hi, pos) ← match pos with
        | d :: end_ =>
          if d = ascii '-' ∧ end_.head? ≠ some (ascii ']') then (parseChar end_).toOption
          else some (lo, pos)
        | [] => some (lo, pos)
      let (ranges, pos) ← readRanges fuel pos
      return ((lo, hi) :: ranges, pos)

/-- The number that is written. -/
def number (digits : Text) : Nat := digits.foldl (fun n d => 10 * n + (d - ascii '0').toNat) 0

/-- The bounds of `{m}`, `{m,}` or `{m,n}`, behind the opening brace. -/
def readBounds (isNested : Bool) (pos : Text) : Option (Nat × Option Nat × Text) :=
  let (digits, rest) := pos.span isDigitChar
  if digits = [] then none
  else
    let lo := number digits
    match parseSpace isNested rest with
    | c :: pos =>
      if c = ascii '}' then some (lo, some lo, parseSpace isNested pos)
      else if c = ascii ',' then
        let (digits, rest) := (parseSpace isNested pos).span isDigitChar
        let hi := if digits = [] then none else some (number digits)
        let pos := if digits = [] then rest else parseSpace isNested rest
        if pos.head? = some (ascii '}') then some (lo, hi, parseSpace isNested pos.tail) else none
      else none
    | [] => none

/-- The last symbol is repeated. -/
def repeatLast (lo : Nat) (hi : Option Nat) : List Expr → Option (List Expr)
  | [] => none
  | e :: items => some (.rep e lo hi :: items)

mutual

/-- The alternatives up to the end of the rule or of the group. -/
def readAlternates : Nat → Text → Bool → Option (Expr × Text)
  | 0, _, _ => none
  | fuel + 1, src, isNested => do
    let (items, pos) ← readSequence fuel src isNested []
    let (es, pos) ← readLater fuel pos isNested
    return (.alts (.seqs items) es, pos)

/-- The alternatives behind the first one. -/
def readLater : Nat → Text → Bool → Option (List Expr × Text)
  | 0, _, _ => none
  | fuel + 1, pos, isNested =>
    if pos.head? = some (ascii '|') then do
      let (items, pos) ← readSequence fuel (parseSpace true pos.tail) isNested []
      let (es, pos) ← readLater fuel pos isNested
      return (.seqs items :: es, pos)
    else some ([], pos)

/-- The symbols of an alternative, behind those that have been read, the last one first. -/
def readSequence : Nat → Text → Bool → List Expr → Option (List Expr × Text)
  | 0, _, _, _ => none
  | _ + 1, [], _, items => some (items, [])
  | fuel + 1, c :: pos, isNested, items => do
    if c = ascii '"' then
      let (chars, pos) ← readLiteral (pos.length + 1) pos []
      readSequence fuel (parseSpace isNested pos) isNested (literal chars :: items)
    else if c = ascii '[' then
      let isNot := pos.head? = some (ascii '^')
      let pos := if isNot then pos.tail else pos
      let (ranges, pos) ← readRanges (pos.length + 1) pos
      readSequence fuel (parseSpace isNested pos) isNested (.char (.cls ⟨isNot, ranges⟩) :: items)
    else if isWordChar c then
      let (name, pos) ← (parseName (c :: pos)).toOption
      readSequence fuel (parseSpace isNested pos) isNested (.rule name :: items)
    else if c = ascii '(' then
      let (e, pos) ← readAlternates fuel (parseSpace true pos) true
      if pos.head? = some (ascii ')') then
        readSequence fuel (parseSpace isNested pos.tail) isNested (e :: items)
      else none
    else if c = ascii '.' then
      readSequence fuel (parseSpace isNested pos) isNested (.char .any :: items)
    else if c = ascii '*' then
      readSequence fuel (parseSpace isNested pos) isNested (← repeatLast 0 none items)
    else if c = ascii '+' then
      readSequence fuel (parseSpace isNested pos) isNested (← repeatLast 1 none items)
    else if c = ascii '?' then
      readSequence fuel (parseSpace isNested pos) isNested (← repeatLast 0 (some 1) items)
    else if c = ascii '{' then
      let (lo, hi, pos) ← readBounds isNested (parseSpace isNested pos)
      readSequence fuel pos isNested (← repeatLast lo hi items)
    else some (items, c :: pos)

end

/-- `name ::= alternates`, up to the next rule. -/
def readRule (src : Text) : Option ((Text × Expr) × Text) := do
  let (name, rest) ← (parseName src).toOption
  let pos := parseSpace false rest
  if pos.take 3 = [ascii ':', ascii ':', ascii '='] then
    let pos := parseSpace true (pos.drop 3)
    let (e, pos) ← readAlternates (2 * pos.length + 4) pos false
    match pos with
    | c :: rest =>
      if c = ascii '\r' then
        let rest := if rest.head? = some (ascii '\n') then rest.tail else rest
        return ((name, e), parseSpace true rest)
      else if c = ascii '\n' then return ((name, e), parseSpace true rest)
      else none
    | [] => return ((name, e), [])
  else none

/-- The rules up to the end of the text. -/
def readRules : Nat → Text → Option (List (Text × Expr))
  | 0, _ => none
  | _ + 1, [] => some []
  | fuel + 1, c :: pos => do
    let (d, pos) ← readRule (c :: pos)
    let ds ← readRules fuel pos
    return d :: ds

/-- The rules of a grammar's text. -/
def read (src : Text) : Option (List (Text × Expr)) :=
  let src := parseSpace true (src.takeWhile (· ≠ 0))
  readRules (src.length + 1) src

/-! ## Meaning -/

/-- The rules that are read; a rule that is written again takes the place of the former. -/
def grammar (defs : List (Text × Expr)) : Ebnf.Grammar Text Letter UInt32 where
  body name := (defs.reverse.find? (·.1 = name)).map (·.2)
  Accepts := Letter.Contains

/-- The bounds of repetitions are in order and fit an `int`. -/
def Bounded : Expr → Prop
  | .seq a b => Bounded a ∧ Bounded b
  | .alt a b => Bounded a ∧ Bounded b
  | .rep e lo hi => Bounded e ∧ lo < 2 ^ 31 ∧ ∀ n ∈ hi, lo ≤ n ∧ n < 2 ^ 31
  | _ => True

/-- The expression with the empty string in the place of each empty class, negated or not. -/
def withoutEmpty : Expr → Expr
  | .char (.cls ⟨_, []⟩) => .empty
  | .seq a b => .seq (withoutEmpty a) (withoutEmpty b)
  | .alt a b => .alt (withoutEmpty a) (withoutEmpty b)
  | .rep e lo hi => .rep (withoutEmpty e) lo hi
  | e => e

/-- The rules with the empty string in the place of each empty class. -/
def defsWithoutEmpty (defs : List (Text × Expr)) : List (Text × Expr) :=
  defs.map (·.map id withoutEmpty)

end Gbnf

end LamaServer
