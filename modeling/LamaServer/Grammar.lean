import LamaServer.Lib.Leftmost

/-!
# Grammars for sampling

The compiled rules of a grammar, and the pushdown stacks that say what a grammar allows next. A
rule is one list of elements: its alternatives are separated by `alt`, and a class of characters
is several elements. A pointer into a rule is the rest of the rule from there, so two stacks that
read the same are one stack.
-/

namespace LamaServer

/-- `llama_grammar_element`; the value is the id of a rule or a code point. -/
inductive GrammarElement where
  | endRule
  | alt
  | ruleRef (rule : Nat)
  | char (c : UInt32)
  | charNot (c : UInt32)
  | charRngUpper (c : UInt32)
  | charAlt (c : UInt32)
  | charAny
  deriving DecidableEq, Repr

abbrev GrammarRule := List GrammarElement

/-- `const llama_grammar_element *`. -/
abbrev GrammarPos := List GrammarElement

/-- `llama_grammar_stack`, from the top down. -/
abbrev GrammarStack := List GrammarPos

/-- How the code may fail: in a `GGML_ABORT` or `GGML_ASSERT`, by reading beyond a vector, or by
an exception. A computation that has not come to its end is out of fuel. -/
inductive GrammarError where
  | outOfFuel
  | abort
  | outOfRange
  | emptyStacks
  deriving DecidableEq, Repr

/-- `llama_partial_utf8`. -/
structure PartialUtf8 where
  value : UInt32 := 0
  nRemain : Int := 0
  deriving DecidableEq, Repr

namespace GrammarElement

/-- The code point of a character. -/
def value : GrammarElement → UInt32
  | char c => c
  | charNot c => c
  | charRngUpper c => c
  | charAlt c => c
  | _ => 0

@[simp] theorem value_charAlt (c : UInt32) : (charAlt c).value = c := rfl

def isEnd (e : GrammarElement) : Bool := e = endRule ∨ e = alt

end GrammarElement

namespace GrammarPos

/-- `llama_grammar_is_end_of_sequence`. -/
def isEndOfSequence (pos : GrammarPos) : Bool := pos.head?.all (·.isEnd)

def startsAlt (pos : GrammarPos) : Bool := pos.head?.any fun e => e matches .charAlt _

@[simp] theorem startsAlt_charAlt (c : UInt32) (pos : GrammarPos) :
    startsAlt (.charAlt c :: pos) = true := rfl

/-- The loop of `llama_grammar_match_char`. -/
def matchLoop (chr : UInt32) : Bool → GrammarPos → Bool × GrammarPos
  | found, e :: .charRngUpper hi :: pos =>
    let found := found || (e.value ≤ chr && chr ≤ hi)
    if startsAlt pos then matchLoop chr found pos else (found, pos)
  | found, e :: pos =>
    let found := found || e = .charAny || e.value = chr
    if startsAlt pos then matchLoop chr found pos else (found, pos)
  | found, [] => (found, [])

/-- `llama_grammar_match_char`. -/
def matchChar (pos : GrammarPos) (chr : UInt32) : Except GrammarError (Bool × GrammarPos) :=
  match pos with
  | .char _ :: _ => .ok (matchLoop chr false pos)
  | .charAny :: _ => .ok (matchLoop chr false pos)
  | .charNot _ :: _ => .ok ((matchLoop chr false pos).map (!·) id)
  | _ => .error .abort

/-- The loop of `llama_grammar_match_partial_char`. -/
def matchPartialLoop (low high : UInt32) (isPositive : Bool) : GrammarPos → Bool
  | e :: .charRngUpper hi :: pos =>
    if e.value ≤ high ∧ low ≤ hi then isPositive
    else if startsAlt pos then matchPartialLoop low high isPositive pos
    else !isPositive
  | e :: pos =>
    if e = .charAny then true
    else if low ≤ e.value ∧ e.value ≤ high then isPositive
    else if startsAlt pos then matchPartialLoop low high isPositive pos
    else !isPositive
  | [] => !isPositive

/-- `llama_grammar_match_partial_char`. -/
def matchPartialChar (pos : GrammarPos) (p : PartialUtf8) : Except GrammarError Bool :=
  let go (isPositive : Bool) : Bool :=
    if p.nRemain < 0 ∨ p.nRemain = 1 ∧ p.value < 2 then false
    else
      let shift := UInt32.ofNat (p.nRemain.toNat * 6)
      let low := p.value <<< shift
      let high := low ||| ((1 <<< shift) - 1)
      let low : UInt32 :=
        if low = 0 ∧ p.nRemain = 2 then (1 : UInt32) <<< 11
        else if low = 0 ∧ p.nRemain = 3 then (1 : UInt32) <<< 16
        else low
      matchPartialLoop low high isPositive pos
  match pos with
  | .char _ :: _ => .ok (go true)
  | .charAny :: _ => .ok (go true)
  | .charNot _ :: _ => .ok (go false)
  | _ => .error .abort

/-- Where the alternatives behind the next one start. -/
def laterAlternates : GrammarPos → List GrammarPos
  | .endRule :: _ => []
  | .alt :: pos => pos :: laterAlternates pos
  | _ :: pos => laterAlternates pos
  | [] => []

end GrammarPos

namespace GrammarRule

/-- Where the alternatives of a rule start. -/
def alternates (rule : GrammarRule) : List GrammarPos := rule :: GrammarPos.laterAlternates rule

end GrammarRule

namespace GrammarStack

/-- A position is pushed, unless nothing is left there. -/
def push (pos : GrammarPos) (stack : GrammarStack) : GrammarStack :=
  if pos.isEndOfSequence then stack else pos :: stack

end GrammarStack

/-- A stack is added to the stacks. -/
def addStack (stack : GrammarStack) (stackSet : List GrammarStack) : List GrammarStack :=
  if stack ∈ stackSet then stackSet else stackSet ++ [stack]

/-- `llama_grammar_advance_stack`. -/
def advanceStack (rules : List GrammarRule) :
    Nat → GrammarStack → List GrammarStack → Except GrammarError (List GrammarStack)
  | 0, _, _ => .error .outOfFuel
  | _ + 1, [], newStacks => .ok (addStack [] newStacks)
  | fuel + 1, pos :: stack, newStacks =>
    match pos with
    | .ruleRef rule :: next =>
      match rules[rule]? with
      | none => .error .outOfRange
      | some rule => rule.alternates.foldlM (fun newStacks subpos =>
          advanceStack rules fuel ((GrammarStack.push next stack).push subpos) newStacks)
            newStacks
    | .char _ :: _ => .ok (addStack (pos :: stack) newStacks)
    | .charNot _ :: _ => .ok (addStack (pos :: stack) newStacks)
    | .charAny :: _ => .ok (addStack (pos :: stack) newStacks)
    | _ => .error .abort

/-- The stacks at the start of a rule. -/
def initStacks (rules : List GrammarRule) (fuel start : Nat) :
    Except GrammarError (List GrammarStack) :=
  match rules[start]? with
  | none => .error .outOfRange
  | some rule => rule.alternates.foldlM (fun stackSet pos =>
      advanceStack rules fuel (GrammarStack.push pos []) stackSet) []

/-- One stack of `llama_grammar_accept`. -/
def acceptOne (rules : List GrammarRule) (fuel : Nat) (chr : UInt32)
    (newStacks : List GrammarStack) : GrammarStack → Except GrammarError (List GrammarStack)
  | [] => .ok newStacks
  | pos :: stack => do
    let (matched, pos) ← pos.matchChar chr
    if matched then advanceStack rules fuel (GrammarStack.push pos stack) newStacks
    else return newStacks

/-- `llama_grammar_accept`. -/
def acceptChr (rules : List GrammarRule) (fuel : Nat) (stackSet : List GrammarStack)
    (chr : UInt32) : Except GrammarError (List GrammarStack) :=
  stackSet.foldlM (acceptOne rules fuel chr) []

/-- `llama_grammar_accept` for one character after the other. -/
def acceptAll (rules : List GrammarRule) (fuel start : Nat) (chrs : List UInt32) :
    Except GrammarError (List GrammarStack) := do
  chrs.foldlM (acceptChr rules fuel) (← initStacks rules fuel start)

/-! ## The check for left recursion -/

/-- `rules_visited`, `rules_in_progress` and `rules_may_be_empty`. -/
structure DetectState where
  visited : List Bool
  inProgress : List Bool
  mayBeEmpty : List Bool
  deriving DecidableEq, Repr

/-- The loop over a rule that finds out whether it has an empty alternative. -/
def hasEmptyAlternate : Bool → GrammarRule → Bool
  | _, [] => false
  | atRuleStart, e :: rule =>
    if e.isEnd then atRuleStart || hasEmptyAlternate true rule else hasEmptyAlternate false rule

/-- The loop that recurses into the leftmost nonterminals of a rule. -/
def detectElements (detect : Nat → DetectState → Except GrammarError (Bool × DetectState)) :
    Bool → GrammarRule → DetectState → Except GrammarError (Bool × DetectState)
  | _, [], st => .ok (false, st)
  | true, .ruleRef rule :: rest, st => do
    let (found, st) ← detect rule st
    if found then return (true, st)
    else detectElements detect (st.mayBeEmpty.getD rule false) rest st
  | _, e :: rest, st => detectElements detect e.isEnd rest st

/-- `llama_grammar_detect_left_recursion`. -/
def detectLeftRecursion (rules : List GrammarRule) :
    Nat → Nat → DetectState → Except GrammarError (Bool × DetectState)
  | 0, _, _ => .error .outOfFuel
  | fuel + 1, ruleIndex, st =>
    if st.inProgress.getD ruleIndex false then .ok (true, st)
    else
      match rules[ruleIndex]? with
      | none => .error .outOfRange
      | some rule => do
        let st := { st with
          inProgress := st.inProgress.set ruleIndex true
          mayBeEmpty := if hasEmptyAlternate true rule then st.mayBeEmpty.set ruleIndex true
            else st.mayBeEmpty }
        let (found, st) ← detectElements (detectLeftRecursion rules fuel) true rule st
        if found then return (true, st)
        else return (false, { st with
          inProgress := st.inProgress.set ruleIndex false
          visited := st.visited.set ruleIndex true })

/-- The check of all rules; no rule is in progress when it starts, so the recursion is no deeper
than there are rules. -/
def isLeftRecursive (rules : List GrammarRule) : Except GrammarError Bool := do
  let none := List.replicate rules.length false
  let (found, _) ← (List.range rules.length).foldlM (fun (found, st) i =>
    if found ∨ st.visited.getD i false then .ok (found, st)
    else detectLeftRecursion rules (rules.length + 1) i st) (false, ⟨none, none, none⟩)
  return found

/-! ## The language of a grammar -/

/-- A class of characters, by its ranges. -/
structure CharClass where
  negated : Bool
  ranges : List (UInt32 × UInt32)
  deriving DecidableEq, Repr

/-- The character is in a range, or in none if the class is negated. -/
def CharClass.Contains (k : CharClass) (c : UInt32) : Prop :=
  (∃ r ∈ k.ranges, r.1 ≤ c ∧ c ≤ r.2) ↔ k.negated = false

namespace GrammarPos

/-- The range that starts with `c`. -/
def rangeFrom (c : UInt32) : GrammarPos → UInt32 × UInt32
  | .charRngUpper hi :: _ => (c, hi)
  | _ => (c, c)

/-- The ranges that follow the first one of a class. -/
def altRanges : GrammarPos → List (UInt32 × UInt32)
  | .charAlt c :: pos => rangeFrom c pos :: altRanges pos
  | .charRngUpper _ :: pos => altRanges pos
  | _ => []

@[simp] theorem rangeFrom_charRngUpper (c hi : UInt32) (pos : GrammarPos) :
    rangeFrom c (.charRngUpper hi :: pos) = (c, hi) := rfl

@[simp] theorem rangeFrom_charAlt (c d : UInt32) (pos : GrammarPos) :
    rangeFrom c (.charAlt d :: pos) = (c, c) := rfl

@[simp] theorem altRanges_charAlt (c : UInt32) (pos : GrammarPos) :
    altRanges (.charAlt c :: pos) = rangeFrom c pos :: altRanges pos := rfl

@[simp] theorem altRanges_charRngUpper (c : UInt32) (pos : GrammarPos) :
    altRanges (.charRngUpper c :: pos) = altRanges pos := rfl

/-- What an alternative consists of. -/
def symbols : GrammarPos → Cfg.Form Nat CharClass
  | .ruleRef rule :: pos => .rule rule :: symbols pos
  | .char c :: pos => .char ⟨false, rangeFrom c pos :: altRanges pos⟩ :: symbols pos
  | .charNot c :: pos => .char ⟨true, rangeFrom c pos :: altRanges pos⟩ :: symbols pos
  | .charAny :: pos => .char ⟨true, []⟩ :: symbols pos
  | .charAlt _ :: pos => symbols pos
  | .charRngUpper _ :: pos => symbols pos
  | _ => []

end GrammarPos

/-- The context-free grammar of the rules. -/
def grammarOf (rules : List GrammarRule) : Cfg.Grammar Nat CharClass UInt32 where
  alts i := (rules[i]?.map fun rule => rule.alternates.map GrammarPos.symbols).getD []
  Accepts := CharClass.Contains

/-- What is left to derive from a stack, read from the top to the bottom. -/
def GrammarStack.form (stack : GrammarStack) : Cfg.Form Nat CharClass :=
  stack.flatMap GrammarPos.symbols

end LamaServer
