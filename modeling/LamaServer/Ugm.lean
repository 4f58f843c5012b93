import LamaServer.Vocab
import Mathlib.Logic.Function.Basic

/-!
# The UGM tokenizer

A text is normalized before it is tokenized. What it starts with is looked up in a trie of the
user-defined tokens and in the charsmap of the model file: a double array that a text is walked
through byte by byte, and the texts that stand for the ones it knows.
-/

namespace LamaServer

/-- `naive_trie`. -/
inductive NaiveTrie where
  | node (children : UInt8 → Option NaiveTrie) (hasValue : Bool) (value : Token)

namespace NaiveTrie

def empty : NaiveTrie := node (fun _ => none) false 0

/-- `children.find`, and `traverse`. -/
def traverse : NaiveTrie → UInt8 → Option NaiveTrie
  | node children _ _, c => children c

def insert : Text → Token → NaiveTrie → NaiveTrie
  | [], value, node children _ _ => node children true value
  | c :: key, value, node children hasValue value' =>
    node (Function.update children c (some (insert key value ((children c).getD empty))))
      hasValue value'

/-- `get_longest_prefix`, the length of it. -/
def getLongestPrefix : NaiveTrie → Text → Nat
  | _, [] => 0
  | trie, c :: key =>
    match trie.traverse c with
    | some res => res.getLongestPrefix key + 1
    | none => 0

end NaiveTrie

/-- What the constructor and the session throw; `undefined` is a read beyond the charsmap. -/
inductive UgmError where
  | runtimeError (what : String)
  | undefined
  | outOfFuel
  deriving DecidableEq, Repr

/-- What the tokenizer uses of `llama_vocab::impl`. -/
structure UgmVocab where
  idToToken : List VocabToken
  precompiledCharsmap : Text := []
  addSpacePrefix : Bool := false
  treatWhitespaceAsSuffix : Bool := false
  removeExtraWhitespaces : Bool := false
  escapeWhitespaces : Bool := true

/-- `llm_tokenizer_ugm`. The arrays are parts of the charsmap, by their offsets in it. -/
structure LlmTokenizerUgm where
  precompiledCharsmap : Text
  xcdaArray : Nat := 0
  xcdaArraySize : Nat := 0
  prefixReplacements : Nat := 0
  prefixReplacementsSize : Nat := 0
  userDefinedTokenMatcher : NaiveTrie

/-- The 32 bits at an offset, the lowest byte first. -/
def readU32 (bytes : Text) (offset : Nat) : Except UgmError UInt32 :=
  match bytes.drop offset with
  | b0 :: b1 :: b2 :: b3 :: _ =>
    .ok (b0.toUInt32 ||| (b1.toUInt32 <<< 8) ||| (b2.toUInt32 <<< 16) ||| (b3.toUInt32 <<< 24))
  | _ => .error .undefined

namespace UgmVocab

def userDefinedTokens (v : UgmVocab) : List Text :=
  (v.idToToken.filter (·.attr.userDefined)).map (·.text)

/-- The constructor of `llm_tokenizer_ugm`. -/
def tokenizer (v : UgmVocab) : Except UgmError LlmTokenizerUgm :=
  let matcher := v.userDefinedTokens.foldl (fun trie text => trie.insert text 0) .empty
  let charsmap := v.precompiledCharsmap
  if charsmap = [] then
    .ok { precompiledCharsmap := charsmap, userDefinedTokenMatcher := matcher }
  else do
    let xcdaBlobSize := (← readU32 charsmap 0).toNat
    if xcdaBlobSize + 4 ≥ charsmap.length then
      .error (.runtimeError "Index out of array bounds in precompiled charsmap!")
    else return {
      precompiledCharsmap := charsmap
      xcdaArray := 4
      xcdaArraySize := xcdaBlobSize / 4
      prefixReplacements := 4 + xcdaBlobSize
      prefixReplacementsSize := charsmap.length - (4 + xcdaBlobSize)
      userDefinedTokenMatcher := matcher }

end UgmVocab

namespace LlmTokenizerUgm

variable (tok : LlmTokenizerUgm)

/-! ## The charsmap -/

def getNode (index : UInt32) : Except UgmError UInt32 :=
  if index.toNat > tok.xcdaArraySize then
    .error (.runtimeError "Index out of array bounds in XCDA array!")
  else readU32 tok.precompiledCharsmap (tok.xcdaArray + 4 * index.toNat)

def getBase (index : UInt32) : Except UgmError UInt32 := do
  let packedNode ← tok.getNode index
  return (packedNode >>> 10) <<< ((packedNode &&& ((1 : UInt32) <<< 9)) >>> 6)

def getLcheck (index : UInt32) : Except UgmError UInt32 := do
  let packedNode ← tok.getNode index
  return packedNode &&& (((1 : UInt32) <<< 31) ||| 0xff)

def getLeaf (index : UInt32) : Except UgmError Bool := do
  let packedNode ← tok.getNode index
  return (packedNode >>> 8) &&& 1 ≠ 0

def getValue (index : UInt32) : Except UgmError UInt32 := do
  let packedNode ← tok.getNode index
  return packedNode &&& (((1 : UInt32) <<< 31) - 1)

/-- The node that a byte leads to, with the value of the text up to there if it is a leaf. -/
def xcdaChild (nodeIndex : UInt32) (c : UInt8) :
    Except UgmError (Option (UInt32 × Option UInt32)) := do
  if c = 0 then return none
  let nodeIndex := nodeIndex ^^^ c.toUInt32
  if (← tok.getLcheck nodeIndex) ≠ c.toUInt32 then return none
  let isLeaf ← tok.getLeaf nodeIndex
  let nodeIndex := nodeIndex ^^^ (← tok.getBase nodeIndex)
  if isLeaf then return some (nodeIndex, some (← tok.getValue nodeIndex))
  return some (nodeIndex, none)

/-- The loop of `normalize_prefix` over the charsmap, `n` bytes from the start: the length of the
longest text that is found, and its value. -/
def xcdaLoop (nodeIndex : UInt32) (n : Nat) (longest : Nat × UInt32) :
    Text → Except UgmError (Nat × UInt32)
  | [] => .ok longest
  | c :: input => do
    match ← tok.xcdaChild nodeIndex c with
    | none => return longest
    | some (nodeIndex, none) => xcdaLoop nodeIndex (n + 1) longest input
    | some (nodeIndex, some value) => xcdaLoop nodeIndex (n + 1) (n + 1, value) input

/-- `longest_prefix_length` and `longest_prefix_offset`. -/
def longestPrefix (input : Text) : Except UgmError (Nat × UInt32) :=
  if tok.xcdaArraySize > 0 then do tok.xcdaLoop (← tok.getBase 0) 0 (0, 0) input else .ok (0, 0)

/-- The text that ends with a NUL in the replacements. -/
def prefixReplacement (offset : UInt32) : Except UgmError Text :=
  if offset.toNat ≥ tok.prefixReplacementsSize then
    .error (.runtimeError "Index out of array bounds in precompiled charsmap!")
  else
    let bytes := tok.precompiledCharsmap.drop (tok.prefixReplacements + offset.toNat)
    if (0 : UInt8) ∈ bytes then .ok (bytes.takeWhile (· ≠ 0)) else .error .undefined

/-! ## Normalizing -/

/-- `normalization_result`. -/
structure NormalizationResult where
  normalized : Text
  consumedInput : Nat
  deriving DecidableEq, Repr

/-- U+FFFD. -/
def replacementCharacter : Text := [0xEF, 0xBF, 0xBD]

/-- `normalize_prefix`, of what is left of the input. -/
def normalizePrefix (input : Text) : Except UgmError NormalizationResult :=
  if input = [] then .ok ⟨[], 0⟩
  else
    let userDefined := tok.userDefinedTokenMatcher.getLongestPrefix input
    if userDefined > 0 then .ok ⟨input.take userDefined, userDefined⟩
    else do
      let longest ← tok.longestPrefix input
      if longest.1 > 0 then return ⟨← tok.prefixReplacement longest.2, longest.1⟩
      else match unicodeCptFromUtf8 input with
        | some (_, n) => return ⟨input.take n, n⟩
        | none => return ⟨replacementCharacter, 1⟩

/-- The variables of `normalize`. -/
structure Normalized where
  normalized : Text := []
  isSpacePrepended : Bool := false
  processingNonWs : Bool := false
  deriving DecidableEq, Repr

end LlmTokenizerUgm

namespace UgmVocab

open LlmTokenizerUgm

variable (v : UgmVocab)

def space : Text := if v.escapeWhitespaces then spaceMark else [ascii ' ']

def shallPrependSpace : Bool := !v.treatWhitespaceAsSuffix && v.addSpacePrefix

def shallAppendSpace : Bool := v.treatWhitespaceAsSuffix && v.addSpacePrefix

/-- The loop body of `normalize` for a byte of the replacement. -/
def normalizeByte (st : Normalized) (c : UInt8) : Normalized :=
  if c ≠ ascii ' ' then
    if !st.processingNonWs then
      if (v.shallPrependSpace && !st.isSpacePrepended) || v.removeExtraWhitespaces then
        ⟨st.normalized ++ v.space ++ [c], true, true⟩
      else { st with normalized := st.normalized ++ [c], processingNonWs := true }
    else { st with normalized := st.normalized ++ [c] }
  else
    let st := { st with processingNonWs := false }
    if !v.removeExtraWhitespaces then { st with normalized := st.normalized ++ v.space } else st

/-- The loop of `normalize`, from what is left of the input on. -/
def normalizeLoop (tok : LlmTokenizerUgm) :
    Nat → Text → Normalized → Except UgmError Normalized
  | _, [], st => .ok st
  | 0, _ :: _, _ => .error .outOfFuel
  | fuel + 1, input, st => do
    let res ← tok.normalizePrefix input
    normalizeLoop tok fuel (input.drop res.consumedInput) (res.normalized.foldl v.normalizeByte st)

def normalize (tok : LlmTokenizerUgm) (input : Text) : Except UgmError Text := do
  let st ← v.normalizeLoop tok input.length input {}
  return if v.shallAppendSpace then st.normalized ++ v.space else st.normalized

end UgmVocab

end LamaServer
