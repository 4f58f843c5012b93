import LamaServer.Grammar
import LamaServer.Generation
import LamaServer.Hex

/-!
# The parser of grammars

`llama_grammar_parser` reads a grammar and compiles it to rules. Groups and repetitions become rules
of their own. A position in the text is the rest of the text up to the terminating NUL.
-/

namespace LamaServer

/-- The `std::runtime_error`s of the parser, with the text they quote. `outOfRange` is thrown by
`std::stoul`. -/
inductive GbnfError where
  | outOfFuel
  | expectingHexChars (size : Nat) (src : Text)
  | expectingName (src : Text)
  | unknownEscape (src : Text)
  | unexpectedEnd
  | expectingPrecedingItem (src : Text)
  | expectingClosingParen (src : Text)
  | expectingInt (src : Text)
  | expectingClosingBrace (src : Text)
  | expectingComma (src : Text)
  | outOfRange
  | expectingAssign (src : Text)
  | expectingNewline (src : Text)
  | undefinedRule
  | undefinedRuleIdentifier (name : Text)
  deriving DecidableEq, Repr

/-- `llama_grammar_parser`. -/
structure GbnfParser where
  symbolIds : List (Text × Nat) := []
  rules : List GrammarRule := []
  deriving DecidableEq, Repr

/-! ## Characters -/

/-- A character literal of the source. -/
abbrev ascii (c : Char) : UInt8 := c.toUInt8

def isDigitChar (c : UInt8) : Bool := ascii '0' ≤ c ∧ c ≤ ascii '9'

def isWordChar (c : UInt8) : Bool :=
  ascii 'a' ≤ c ∧ c ≤ ascii 'z' ∨ ascii 'A' ≤ c ∧ c ≤ ascii 'Z' ∨ c = ascii '-' ∨ isDigitChar c

def isNewline (c : UInt8) : Bool := c = ascii '\r' ∨ c = ascii '\n'

/-- The bytes that continue a character, up to the end of the text. -/
def decodeTail : Nat → UInt32 → Text → UInt32 × Text
  | n + 1, value, b :: pos => decodeTail n ((value <<< 6) + (b &&& 0x3F).toUInt32) pos
  | _, value, pos => (value, pos)

/-- `lookup` of the `decode_utf8` for grammars: the length of a character by its first byte. -/
def utf8Length (first : UInt8) : Nat :=
  if first < 0xC0 then 1 else if first < 0xE0 then 2 else if first < 0xF0 then 3 else 4

/-- `decode_utf8`, which assumes valid UTF-8. -/
def decodeUtf8Char (first : UInt8) (pos : Text) : UInt32 × Text :=
  let len := utf8Length first
  let mask := UInt8.ofNat (2 ^ (8 - len) - 1)
  decodeTail (len - 1) (first &&& mask).toUInt32 pos

/-- `parse_hex`. -/
def parseHex (src : Text) (size : Nat) : Nat → UInt32 → Text → Except GbnfError (UInt32 × Text)
  | 0, value, pos => .ok (value, pos)
  | n + 1, value, c :: pos =>
    match hexValue c with
    | some d => parseHex src size n ((value <<< 4) + UInt32.ofNat d) pos
    | none => .error (.expectingHexChars size src)
  | _ + 1, _, [] => .error (.expectingHexChars size src)

/-- `parse_space`. -/
def skipSpace (newlineOk : Bool) : Bool → Text → Text
  | _, [] => []
  | inComment, c :: pos =>
    if isNewline c then
      if newlineOk then skipSpace newlineOk false pos else c :: pos
    else if inComment then skipSpace newlineOk true pos
    else if c = ascii '#' then skipSpace newlineOk true pos
    else if c = ascii ' ' ∨ c = ascii '\t' then skipSpace newlineOk false pos
    else c :: pos

def parseSpace (newlineOk : Bool) (src : Text) : Text := skipSpace newlineOk false src

/-- `parse_name`. -/
def parseName (src : Text) : Except GbnfError (Text × Text) :=
  match src.span isWordChar with
  | ([], _) => .error (.expectingName src)
  | (name, pos) => .ok (name, pos)

/-- `parse_char`. -/
def parseChar : Text → Except GbnfError (UInt32 × Text)
  | [] => .error .unexpectedEnd
  | c :: pos =>
    if c = ascii '\\' then
      match pos with
      | [] => .error (.unknownEscape [c])
      | e :: pos =>
        if e = ascii 'x' then parseHex pos 2 2 0 pos
        else if e = ascii 'u' then parseHex pos 4 4 0 pos
        else if e = ascii 'U' then parseHex pos 8 8 0 pos
        else if e = ascii 't' then .ok ('\t'.val, pos)
        else if e = ascii 'r' then .ok ('\r'.val, pos)
        else if e = ascii 'n' then .ok ('\n'.val, pos)
        else if e = ascii '\\' ∨ e = ascii '"' ∨ e = ascii '[' ∨ e = ascii ']' then
          .ok (e.toUInt32, pos)
        else .error (.unknownEscape (c :: e :: pos))
    else .ok (decodeUtf8Char c pos)

/-- `std::stoul`, converted to `int`. -/
def stoulInt (digits : Text) : Except GbnfError Int :=
  let n := digits.foldl (fun n d => 10 * n + (d - ascii '0').toNat) 0
  if n < 2 ^ 64 then .ok (Int.bmod n (2 ^ 32)) else .error .outOfRange

/-! ## Symbols and rules -/

namespace GbnfParser

/-- `get_symbol_id`. -/
def getSymbolId (p : GbnfParser) (name : Text) : Nat × GbnfParser :=
  match p.symbolIds.find? (·.1 = name) with
  | some (_, id) => (id, p)
  | none => (p.symbolIds.length,
      { p with symbolIds := p.symbolIds ++ [(name, p.symbolIds.length)] })

/-- `base_name + '_' + std::to_string(next_id)`. -/
def generatedName (baseName : Text) (nextId : Nat) : Text :=
  baseName ++ ascii '_' :: (Nat.toDigits 10 nextId).map Char.toUInt8

/-- `generate_symbol_id`. -/
def generateSymbolId (p : GbnfParser) (baseName : Text) : Nat × GbnfParser :=
  let nextId := p.symbolIds.length
  let name := generatedName baseName nextId
  (nextId, { p with symbolIds := p.symbolIds.filter (·.1 ≠ name) ++ [(name, nextId)] })

/-- `add_rule`. -/
def addRule (p : GbnfParser) (ruleId : Nat) (rule : GrammarRule) : GbnfParser :=
  { p with rules := (p.rules ++ List.replicate (ruleId + 1 - p.rules.length) []).set ruleId rule }

/-- The rules `S'` that stand for the optional repetitions of `prevRule`, and the last of them. -/
def addRepetitions (ruleName : Text) (prevRule : GrammarRule) (unbounded : Bool) :
    Nat → GbnfParser → Option Nat → GbnfParser × Option Nat
  | 0, p, lastRecRuleId => (p, lastRecRuleId)
  | n + 1, p, lastRecRuleId =>
    let (recRuleId, p) := p.generateSymbolId ruleName
    let next := if unbounded then some recRuleId else lastRecRuleId
    let recRule := prevRule ++ (next.map .ruleRef).toList ++ [.alt, .endRule]
    addRepetitions ruleName prevRule unbounded n (p.addRule recRuleId recRule) (some recRuleId)

/-- `handle_repetitions`. -/
def handleRepetitions (p : GbnfParser) (pos ruleName : Text) (rule : GrammarRule)
    (lastSymStart : Nat) (minTimes maxTimes : Int) : Except GbnfError (GbnfParser × GrammarRule) :=
  if lastSymStart = rule.length then .error (.expectingPrecedingItem pos)
  else
    let prevRule := rule.drop lastSymStart
    let rule := if minTimes = 0 then rule.take lastSymStart
      else rule ++ (List.replicate (minTimes - 1).toNat prevRule).flatten
    let nOpt := if maxTimes < 0 then 1 else maxTimes - minTimes
    let (p, lastRecRuleId) := addRepetitions ruleName prevRule (maxTimes < 0) nOpt.toNat p none
    .ok (p, rule ++ (lastRecRuleId.map .ruleRef).toList)

end GbnfParser

/-! ## Sequences and alternatives -/

/-- The characters of a literal string. -/
def parseLiteral : Nat → Text → GrammarRule → Except GbnfError (Text × GrammarRule)
  | 0, _, _ => .error .outOfFuel
  | _ + 1, [], _ => .error .unexpectedEnd
  | fuel + 1, c :: pos, rule =>
    if c = ascii '"' then .ok (pos, rule)
    else do
      let (chr, pos) ← parseChar (c :: pos)
      parseLiteral fuel pos (rule ++ [.char chr])

/-- The ranges of a character class. -/
def parseRanges (startType : UInt32 → GrammarElement) (lastSymStart : Nat) :
    Nat → Text → GrammarRule → Except GbnfError (Text × GrammarRule)
  | 0, _, _ => .error .outOfFuel
  | _ + 1, [], _ => .error .unexpectedEnd
  | fuel + 1, c :: pos, rule =>
    if c = ascii ']' then .ok (pos, rule)
    else do
      let (chr, pos) ← parseChar (c :: pos)
      let rule := rule ++ [if lastSymStart < rule.length then .charAlt chr else startType chr]
      match pos with
      | d :: end_ =>
        if d = ascii '-' ∧ end_.head? ≠ some (ascii ']') then do
          let (hi, pos) ← parseChar end_
          parseRanges startType lastSymStart fuel pos (rule ++ [.charRngUpper hi])
        else parseRanges startType lastSymStart fuel pos rule
      | [] => parseRanges startType lastSymStart fuel pos rule

/-- `min_times` and `max_times` of `{m}`, `{m,}` or `{m,n}`, behind the opening brace. -/
def parseBounds (isNested : Bool) (pos : Text) : Except GbnfError (Int × Int × Text) := do
  let (digits, rest) := pos.span isDigitChar
  if digits = [] then .error (.expectingInt pos)
  else
    let minTimes ← stoulInt digits
    match parseSpace isNested rest with
    | c :: pos =>
      if c = ascii '}' then return (minTimes, minTimes, parseSpace isNested pos)
      else if c = ascii ',' then
        let (digits, rest) := (parseSpace isNested pos).span isDigitChar
        let maxTimes ← if digits = [] then .ok (-1) else stoulInt digits
        let pos := if digits = [] then rest else parseSpace isNested rest
        if pos.head? = some (ascii '}') then
          return (minTimes, maxTimes, parseSpace isNested pos.tail)
        else .error (.expectingClosingBrace pos)
      else .error (.expectingComma (c :: pos))
    | [] => .error (.expectingComma [])

mutual

/-- `parse_alternates`. -/
def parseAlternates : Nat → GbnfParser → Text → Text → Nat → Bool →
    Except GbnfError (GbnfParser × Text)
  | 0, _, _, _, _, _ => .error .outOfFuel
  | fuel + 1, p, src, ruleName, ruleId, isNested => do
    let (p, pos, rule) ← parseSequence fuel p src ruleName isNested [] 0
    let (p, pos, rule) ← parseLater fuel p pos ruleName isNested rule
    return (p.addRule ruleId (rule ++ [.endRule]), pos)

/-- The loop of `parse_alternates`. -/
def parseLater : Nat → GbnfParser → Text → Text → Bool → GrammarRule →
    Except GbnfError (GbnfParser × Text × GrammarRule)
  | 0, _, _, _, _, _ => .error .outOfFuel
  | fuel + 1, p, pos, ruleName, isNested, rule =>
    if pos.head? = some (ascii '|') then do
      let rule := rule ++ [.alt]
      let (p, pos, rule) ←
        parseSequence fuel p (parseSpace true pos.tail) ruleName isNested rule rule.length
      parseLater fuel p pos ruleName isNested rule
    else .ok (p, pos, rule)

/-- `parse_sequence`, with the start of the last symbol. -/
def parseSequence : Nat → GbnfParser → Text → Text → Bool → GrammarRule → Nat →
    Except GbnfError (GbnfParser × Text × GrammarRule)
  | 0, _, _, _, _, _, _ => .error .outOfFuel
  | _ + 1, p, [], _, _, rule, _ => .ok (p, [], rule)
  | fuel + 1, p, c :: pos, ruleName, isNested, rule, lastSymStart => do
    if c = ascii '"' then
      let (pos, rule') ← parseLiteral (pos.length + 1) pos rule
      parseSequence fuel p (parseSpace isNested pos) ruleName isNested rule' rule.length
    else if c = ascii '[' then
      let isNot := pos.head? = some (ascii '^')
      let pos := if isNot then pos.tail else pos
      let (pos, rule') ← parseRanges (if isNot then .charNot else .char) rule.length
        (pos.length + 1) pos rule
      parseSequence fuel p (parseSpace isNested pos) ruleName isNested rule' rule.length
    else if isWordChar c then
      let (name, pos) ← parseName (c :: pos)
      let (refRuleId, p) := p.getSymbolId name
      parseSequence fuel p (parseSpace isNested pos) ruleName isNested
        (rule ++ [.ruleRef refRuleId]) rule.length
    else if c = ascii '(' then
      let (subRuleId, p) := p.generateSymbolId ruleName
      let (p, pos) ← parseAlternates fuel p (parseSpace true pos) ruleName subRuleId true
      if pos.head? = some (ascii ')') then
        parseSequence fuel p (parseSpace isNested pos.tail) ruleName isNested
          (rule ++ [.ruleRef subRuleId]) rule.length
      else .error (.expectingClosingParen pos)
    else if c = ascii '.' then
      parseSequence fuel p (parseSpace isNested pos) ruleName isNested (rule ++ [.charAny])
        rule.length
    else if c = ascii '*' then
      let pos := parseSpace isNested pos
      let (p, rule) ← p.handleRepetitions pos ruleName rule lastSymStart 0 (-1)
      parseSequence fuel p pos ruleName isNested rule lastSymStart
    else if c = ascii '+' then
      let pos := parseSpace isNested pos
      let (p, rule) ← p.handleRepetitions pos ruleName rule lastSymStart 1 (-1)
      parseSequence fuel p pos ruleName isNested rule lastSymStart
    else if c = ascii '?' then
      let pos := parseSpace isNested pos
      let (p, rule) ← p.handleRepetitions pos ruleName rule lastSymStart 0 1
      parseSequence fuel p pos ruleName isNested rule lastSymStart
    else if c = ascii '{' then
      let (minTimes, maxTimes, pos) ← parseBounds isNested (parseSpace isNested pos)
      let (p, rule) ← p.handleRepetitions pos ruleName rule lastSymStart minTimes maxTimes
      parseSequence fuel p pos ruleName isNested rule lastSymStart
    else .ok (p, c :: pos, rule)

end

/-- `parse_rule`. -/
def GbnfParser.parseRule (p : GbnfParser) (src : Text) : Except GbnfError (GbnfParser × Text) := do
  let (name, rest) ← parseName src
  let pos := parseSpace false rest
  let (ruleId, p) := p.getSymbolId name
  if pos.take 3 = [ascii ':', ascii ':', ascii '='] then
    let pos := parseSpace true (pos.drop 3)
    let (p, pos) ← parseAlternates (2 * pos.length + 4) p pos name ruleId false
    match pos with
    | c :: rest =>
      if c = ascii '\r' then
        let rest := if rest.head? = some (ascii '\n') then rest.tail else rest
        return (p, parseSpace true rest)
      else if c = ascii '\n' then return (p, parseSpace true rest)
      else .error (.expectingNewline pos)
    | [] => return (p, [])
  else .error (.expectingAssign pos)

/-- The rules up to the end of the text. -/
def GbnfParser.parseRules : Nat → GbnfParser → Text → Except GbnfError GbnfParser
  | 0, _, _ => .error .outOfFuel
  | _ + 1, p, [] => .ok p
  | fuel + 1, p, c :: pos => do
    let (p, pos) ← p.parseRule (c :: pos)
    parseRules fuel p pos

/-- The check that a referenced rule is defined. -/
def GbnfParser.checkElement (p : GbnfParser) : GrammarElement → Except GbnfError Unit
  | .ruleRef rule =>
    if p.rules.getD rule [] = [] then
      match p.symbolIds.find? (·.2 = rule) with
      | some (name, _) => .error (.undefinedRuleIdentifier name)
      | none => .ok ()
    else .ok ()
  | _ => .ok ()

/-- The check that all rules are defined. -/
def GbnfParser.checkRules (p : GbnfParser) : Except GbnfError Unit :=
  p.rules.forM fun rule =>
    if rule = [] then .error .undefinedRule else rule.forM p.checkElement

/-- `llama_grammar_parser::parse`. -/
def GbnfParser.parse (src : Text) : Except GbnfError GbnfParser := do
  let src := parseSpace true (src.takeWhile (· ≠ 0))
  let p ← GbnfParser.parseRules (src.length + 1) {} src
  p.checkRules
  return p

/-- What `llama_grammar_init_impl` makes of a grammar before it builds the stacks: the rules and
the rule to start with, if the grammar is accepted. -/
def acceptGrammar (src grammarRoot : Text) : Option (List GrammarRule × Nat) :=
  match GbnfParser.parse src with
  | .error _ => none
  | .ok p =>
    if p.rules = [] then none
    else if p.symbolIds.all (·.1 ≠ "root".toUTF8.toList) then none
    else
      -- the rules are copied up to their first end
      let rules := p.rules.map fun rule => rule.takeWhile (· ≠ .endRule) ++ [.endRule]
      match p.symbolIds.find? (·.1 = grammarRoot), isLeftRecursive rules with
      | some (_, start), .ok false => some (rules, start)
      | _, _ => none

end LamaServer
