import LamaServer.Grammar
import LamaServer.Generation
import Mathlib.Data.Rat.Defs
import Mathlib.Order.WithBot

/-!
# Sampling with a grammar

A grammar masks the tokens that it does not allow and accepts the token that is sampled. A token is
a sequence of bytes and may end in the middle of a character: what has been read of it is kept
until the next token.
-/

namespace LamaServer

/-! ## The decoder -/

/-- The loop of `decode_utf8` that goes on with the character of the previous call. There is no
result if a byte does not belong to a character. -/
def continueDecode : List UInt8 → UInt32 → Int → Option (List UInt8 × UInt32 × Int)
  | nextByte :: pos, value, nRemain =>
    if nRemain > 0 then
      if nextByte >>> 6 ≠ 2 then none
      else continueDecode pos ((value <<< 6) + (nextByte &&& 0x3F).toUInt32) (nRemain - 1)
    else some (nextByte :: pos, value, nRemain)
  | [], value, nRemain => some ([], value, nRemain)

/-- `lookup` of `decode_utf8`. -/
def decodeLookup : List Int := [1, 1, 1, 1, 1, 1, 1, 1, 0, 0, 0, 0, 2, 2, 3, 4]

/-- The loop of `decode_utf8` over the characters that follow, and the loop over the rest of each,
which reads whatever comes: `nRemain` is positive within the latter. There is no result if a
character cannot start with a byte. -/
def decodeLoop : List UInt8 → UInt32 → Int → Option (List UInt32 × PartialUtf8)
  | [], value, nRemain => some ([], ⟨value, nRemain⟩)
  | byte :: pos, value, nRemain =>
    let (value, nRemain) :=
      if nRemain > 0 then ((value <<< 6) + (byte &&& 0x3F).toUInt32, nRemain - 1)
      else
        let nRemain := decodeLookup.getD (byte >>> 4).toNat 0 - 1
        let mask : UInt8 := (1 <<< UInt8.ofNat (7 - nRemain).toNat) - 1
        ((byte &&& mask).toUInt32, nRemain)
    if nRemain < 0 then none
    else do
      let (codePoints, partialUtf8) ← decodeLoop pos value nRemain
      return (if nRemain = 0 then value :: codePoints else codePoints, partialUtf8)

/-- `decode_utf8`; the code points end with a 0. -/
def decodeUtf8 (src : Text) (partialStart : PartialUtf8) : List UInt32 × PartialUtf8 :=
  -- `src.c_str()` ends at the first NUL
  match continueDecode (src.takeWhile (· ≠ 0)) partialStart.value partialStart.nRemain with
  | none => ([0], ⟨0, -1⟩)
  | some (pos, value, nRemain) =>
    match decodeLoop pos value nRemain with
    | none => ([0], ⟨0, -1⟩)
    | some (codePoints, partialUtf8) =>
      let first := if partialStart.nRemain > 0 ∧ nRemain = 0 then [value] else []
      (first ++ codePoints ++ [0], partialUtf8)

/-! ## Rejecting candidates -/

/-- `llama_grammar_candidate`; `pos` is where `code_points` points to. -/
structure GrammarCandidate where
  index : Nat
  codePoints : List UInt32
  pos : Nat
  partialUtf8 : PartialUtf8
  deriving DecidableEq, Repr

namespace GrammarCandidate

/-- `*tok.code_points`. -/
def chr (tok : GrammarCandidate) : UInt32 := tok.codePoints.getD tok.pos 0

end GrammarCandidate

/-- The loop of `llama_grammar_reject_candidates_for_stack` that looks at the next character of
each candidate: the rejected ones, and those that go on. -/
def splitCandidates (stackPos : GrammarPos) : List GrammarCandidate →
    Except GrammarError (List GrammarCandidate × List GrammarCandidate)
  | [] => .ok ([], [])
  | tok :: candidates => do
    if tok.chr = 0 then
      let reject ← if tok.partialUtf8.nRemain ≠ 0 then
        (!·) <$> stackPos.matchPartialChar tok.partialUtf8 else .ok false
      let (rejects, next) ← splitCandidates stackPos candidates
      return (if reject then tok :: rejects else rejects, next)
    else
      let (found, _) ← stackPos.matchChar tok.chr
      let (rejects, next) ← splitCandidates stackPos candidates
      if found then return (rejects, { tok with pos := tok.pos + 1 } :: next)
      else return (tok :: rejects, next)

/-- `llama_grammar_reject_candidates`: each stack looks at what those before it reject. -/
def rejectCandidatesBy (forStack : GrammarStack → List GrammarCandidate →
    Except GrammarError (List GrammarCandidate)) (stackSet : List GrammarStack)
    (candidates : List GrammarCandidate) : Except GrammarError (List GrammarCandidate) :=
  if stackSet = [] then .error .abort
  else if candidates = [] then .ok []
  else stackSet.foldlM (fun rejects stack => forStack stack rejects) candidates

/-- `llama_grammar_reject_candidates_for_stack`. -/
def rejectCandidatesForStack (rules : List GrammarRule) : Nat → GrammarStack →
    List GrammarCandidate → Except GrammarError (List GrammarCandidate)
  | 0, _, _ => .error .outOfFuel
  | _ + 1, [], candidates =>
    .ok (candidates.filter fun tok => tok.chr ≠ 0 ∨ tok.partialUtf8.nRemain ≠ 0)
  | fuel + 1, stackPos :: stack, candidates => do
    let (rejects, nextCandidates) ← splitCandidates stackPos candidates
    let (_, stackPosAfter) ← stackPos.matchChar 0
    let nextStacks ← advanceStack rules fuel (GrammarStack.push stackPosAfter stack) []
    let nextRejects ←
      rejectCandidatesBy (rejectCandidatesForStack rules fuel) nextStacks nextCandidates
    return rejects ++ nextRejects.map fun tok => { tok with pos := tok.pos - 1 }

def rejectCandidates (rules : List GrammarRule) (fuel : Nat) :
    List GrammarStack → List GrammarCandidate → Except GrammarError (List GrammarCandidate) :=
  rejectCandidatesBy (rejectCandidatesForStack rules fuel)

/-! ## The grammar of a sampler -/

/-- `llama_vocab`. -/
structure Vocab where
  tokenToPiece : Token → Text
  isEog : Token → Bool

/-- `llama_grammar_trigger_pattern`: where the first group starts in a text that the regular
expression matches. -/
abbrev TriggerPattern := Text → Option Nat

/-- `llama_grammar`. -/
structure Grammar where
  rules : List GrammarRule
  stackSet : List GrammarStack
  partialUtf8 : PartialUtf8
  awaitingTrigger : Bool
  triggerBuffer : Text
  triggerTokens : List Token
  triggerPatterns : List TriggerPattern

/-- `llama_token_data`; a logit of `-INFINITY` is `⊥`. -/
structure TokenData where
  id : Token
  logit : WithBot ℚ
  deriving DecidableEq

namespace Grammar

/-- `llama_grammar_init_impl`, after the grammar has been accepted. -/
def initImpl (rules : List GrammarRule) (fuel start : Nat) (lazyGrammar : Bool)
    (triggerTokens : List Token) (triggerPatterns : List TriggerPattern) :
    Except GrammarError Grammar := do
  return ⟨rules, ← initStacks rules fuel start, {}, lazyGrammar, [], triggerTokens,
    triggerPatterns⟩

def allowEog (grammar : Grammar) : Bool := grammar.stackSet.any (· = [])

/-- The loop of `llama_grammar_apply_impl` over the tokens, the next one being `curP[i]`. -/
def applyLoop (vocab : Vocab) (grammar : Grammar) :
    Nat → List TokenData → List TokenData × List GrammarCandidate
  | _, [] => ([], [])
  | i, tok :: curP =>
    let piece := vocab.tokenToPiece tok.id
    let (rest, candidates) := applyLoop vocab grammar (i + 1) curP
    if vocab.isEog tok.id then
      (if grammar.allowEog then tok :: rest else { tok with logit := ⊥ } :: rest, candidates)
    else if piece = [] ∨ piece.head? = some 0 then ({ tok with logit := ⊥ } :: rest, candidates)
    else
      let (codePoints, partialUtf8) := decodeUtf8 piece grammar.partialUtf8
      (tok :: rest, ⟨i, codePoints, 0, partialUtf8⟩ :: candidates)

/-- `llama_grammar_apply_impl`. -/
def applyImpl (vocab : Vocab) (fuel : Nat) (grammar : Grammar) (curP : List TokenData) :
    Except GrammarError (List TokenData) :=
  if grammar.awaitingTrigger then .ok curP
  else do
    let (curP, candidates) := grammar.applyLoop vocab 0 curP
    let rejects ← rejectCandidates grammar.rules fuel grammar.stackSet candidates
    return rejects.foldl
      (fun curP reject => curP.modify reject.index fun tok => { tok with logit := ⊥ }) curP

/-- `llama_grammar_accept_str`. -/
def acceptStr (fuel : Nat) (grammar : Grammar) (piece : Text) : Except GrammarError Grammar := do
  let (codePoints, partialUtf8) := decodeUtf8 piece grammar.partialUtf8
  let stackSet ← codePoints.dropLast.foldlM (acceptChr grammar.rules fuel) grammar.stackSet
  if stackSet = [] then throw .emptyStacks
  return { grammar with stackSet := stackSet, partialUtf8 := partialUtf8 }

/-- `llama_grammar_accept_impl`. -/
def acceptImpl (vocab : Vocab) (fuel : Nat) (grammar : Grammar) (token : Token) :
    Except GrammarError Grammar :=
  let piece := vocab.tokenToPiece token
  if grammar.awaitingTrigger then
    if token ∈ grammar.triggerTokens then
      acceptStr fuel { grammar with awaitingTrigger := false, triggerBuffer := [] } piece
    else
      let buffer := grammar.triggerBuffer ++ piece
      match grammar.triggerPatterns.findSome? (· buffer) with
      | some position =>
        acceptStr fuel { grammar with awaitingTrigger := false, triggerBuffer := [] }
          (buffer.drop position)
      | none => .ok { grammar with triggerBuffer := buffer }
  else if vocab.isEog token then
    if grammar.allowEog then .ok grammar else .error .abort
  else acceptStr fuel grammar piece

end Grammar

end LamaServer
