import LamaServer.Lib.Viterbi
import LamaServer.Rwkv
import Mathlib.Algebra.Order.Ring.Unbundled.Rat

/-!
# Tokenizing with the UGM tokenizer

Behind the normalization the session looks for the tokens with the highest sum of scores: at every
code point the trie of the tokens is walked along the rest of the text, and each token on the way
is an edge to where it ends. Scores are exact numbers here.
-/

namespace LamaServer

/-- A vocabulary as it is loaded: the tokens have texts that are not empty and differ. -/
structure LoadedUgm extends UgmVocab where
  tokenUnk : Token
  text_ne_nil : ∀ data ∈ idToToken, data.text ≠ []
  -- `GGML_ASSERT(id_to_token.size() == token_to_id.size())`
  text_nodup : (idToToken.map (·.text)).Nodup

/-- `FLT_MAX`. -/
def fltMax : ℚ := (2 ^ 24 - 1) * 2 ^ 104

/-- `best_tokenization`: the label of an entry is the `token_id`, its source the `input_offset` and
its score the `score_sum`. -/
abbrev BestTokenization := Viterbi.Entry Token ℚ

/-- A token that is emitted, and the bytes that it stands for. -/
structure EmittedToken where
  token : Token
  start : Nat
  stop : Nat
  deriving DecidableEq, Repr

namespace LoadedUgm

variable (v : LoadedUgm)

/-! ## The constructor of the tokenizer -/

/-- The tokens of the matcher. -/
def inMatcher (data : VocabToken) : Bool :=
  data.attr.normal || data.attr.userDefined || data.attr.unused

def tokenMatcher : NaiveTrie :=
  (v.idToToken.zipIdx.filter fun data => inMatcher data.1).foldl
    (fun trie data => trie.insert data.1.text data.2) .empty

def minScore : ℚ :=
  v.idToToken.foldl (fun minScore data => if data.attr.normal then min minScore data.score
    else minScore) fltMax

def unknownTokenScorePenalty : ℚ := 10

def unknownTokenScore : ℚ := v.minScore - unknownTokenScorePenalty

/-! ## The session -/

/-- `token_score`, of an id of the matcher. -/
def tokenScore (tokenId : Token) : ℚ :=
  match v.idToToken[tokenId.toNat]? with
  | some tokenData => if tokenData.attr.userDefined then 0 else tokenData.score
  | none => 0

/-- The inner loop, from a node of the trie on, and `single_codepoint_token_found`. -/
def matchTokens (inputOffset nUtf8CodeUnits : Nat) : NaiveTrie → Nat → Text →
    Bool × (Nat → BestTokenization) → Bool × (Nat → BestTokenization)
  | _, _, [], st => st
  | node, prefixOffset, c :: rest, st =>
    match node.traverse c with
    | none => st
    | some node =>
      let prefixOffset := prefixOffset + 1
      let st := if node.hasValue then
          (st.1 || prefixOffset - inputOffset = nUtf8CodeUnits,
            Viterbi.relax st.2 ⟨inputOffset, prefixOffset, node.value, v.tokenScore node.value⟩)
        else st
      matchTokens inputOffset nUtf8CodeUnits node prefixOffset rest st

/-- The outer loop, from what is left of the input on. -/
def fillResults : Nat → Nat → Text → (Nat → BestTokenization) →
    Except UgmError (Nat → BestTokenization)
  | _, _, [], results => .ok results
  | 0, _, _ :: _, _ => .error .outOfFuel
  | fuel + 1, inputOffset, c :: rest, results =>
    let nUtf8CodeUnits := min (unicodeLenUtf8 c) (rest.length + 1)
    let (singleCodepointTokenFound, results) := v.matchTokens inputOffset nUtf8CodeUnits
      v.tokenMatcher inputOffset (c :: rest) (false, results)
    let results := if singleCodepointTokenFound then results
      else Viterbi.relax results
        ⟨inputOffset, inputOffset + nUtf8CodeUnits, v.tokenUnk, v.unknownTokenScore⟩
    fillResults fuel (inputOffset + nUtf8CodeUnits) ((c :: rest).drop nUtf8CodeUnits) results

/-- `tokenization_results` before the loops. -/
def initialResults (i : Nat) : BestTokenization :=
  if i = 0 then ⟨v.tokenUnk, 0, 0⟩ else ⟨v.tokenUnk, 0, -fltMax⟩

/-- The loop that backtracks, with the last token first. -/
def backtrack (results : Nat → BestTokenization) : Nat → Nat → Except UgmError (List EmittedToken)
  | 0, _ => .error .outOfFuel
  | fuel + 1, offset =>
    let tokenization := results offset
    if tokenization.source = 0 then .ok [⟨tokenization.label, 0, offset⟩]
    else do
      let later ← backtrack results fuel tokenization.source
      return ⟨tokenization.label, tokenization.source, offset⟩ :: later

/-- The tokens of a normalized text, before runs of unknown ones are merged. -/
def tokenizeNormalized (normalized : Text) : Except UgmError (List EmittedToken) :=
  if normalized = [] then .ok []
  else do
    let results ← v.fillResults normalized.length 0 normalized v.initialResults
    return (← backtrack results normalized.length normalized.length).reverse

/-- `is_prev_unknown`: only the first one of a run of unknown tokens is kept. -/
def mergeUnknown : Bool → List Token → List Token
  | _, [] => []
  | isPrevUnknown, tokenId :: output =>
    let isUnknown := tokenId = v.tokenUnk
    if isPrevUnknown && isUnknown then mergeUnknown isUnknown output
    else tokenId :: mergeUnknown isUnknown output

/-- `llm_tokenizer_ugm_session::tokenize`. -/
def tokenize (text : Text) : Except UgmError (List Token) := do
  let tok ← v.tokenizer
  let emitted ← v.tokenizeNormalized (← v.normalize tok text)
  return (v.mergeUnknown false (emitted.reverse.map (·.token))).reverse

end LoadedUgm

end LamaServer
