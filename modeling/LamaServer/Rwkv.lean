import LamaServer.Ugm

/-!
# The RWKV tokenizer

The tokens are bytes that the vocabulary has as escaped texts. At each position of a text the trie
of the tokens is walked as far as it goes, and the last token on the way is taken.
-/

namespace LamaServer

namespace NaiveTrie

def hasValue : NaiveTrie → Bool
  | node _ hasValue _ => hasValue

def value : NaiveTrie → Token
  | node _ _ value => value

end NaiveTrie

/-- The variables of `llama_unescape_rwkv_token`. -/
structure RwkvUnescape where
  output : Text := []
  escaping : Bool := false
  hexRemaining : Nat := 0
  hexAcc : UInt8 := 0

/-- `value`; a `char` from 0x80 on is negative. -/
def rwkvHexValue (c : UInt8) : UInt8 :=
  if ascii 'a' ≤ c ∧ c < 0x80 then c - ascii 'a' + 10 else c - ascii '0'

def RwkvUnescape.step (st : RwkvUnescape) (c : UInt8) : RwkvUnescape :=
  if st.hexRemaining ≠ 0 then
    let hexAcc := (st.hexAcc <<< 4) + rwkvHexValue c
    if st.hexRemaining - 1 = 0 then
      { st with output := st.output ++ [hexAcc], hexRemaining := 0, hexAcc := 0 }
    else { st with hexRemaining := st.hexRemaining - 1, hexAcc := hexAcc }
  else if st.escaping then
    if c = ascii 't' then { st with output := st.output ++ [ascii '\t'], escaping := false }
    else if c = ascii 'n' then { st with output := st.output ++ [ascii '\n'], escaping := false }
    else if c = ascii 'r' then { st with output := st.output ++ [ascii '\r'], escaping := false }
    else if c = ascii 'x' then { st with hexRemaining := 2, escaping := false }
    else { st with output := st.output ++ [c], escaping := false }
  else if c = ascii '\\' then { st with escaping := true }
  else { st with output := st.output ++ [c] }

def llamaUnescapeRwkvToken (escaped : Text) : Text := (escaped.foldl RwkvUnescape.step {}).output

/-- What the tokenizer uses of `llama_vocab::impl`. -/
structure RwkvVocab where
  idToToken : List VocabToken
  tokenUnk : Token

/-- A read behind the terminator of the text. -/
inductive RwkvError where
  | undefined
  | outOfFuel
  deriving DecidableEq, Repr

/-- `text[position]`; at the end of the text the terminator. -/
def textAt (text : Text) (position : Nat) : Except RwkvError UInt8 :=
  if position = text.length then .ok 0
  else match text[position]? with
    | some c => .ok c
    | none => .error .undefined

/-- The next one of the 32 bits of a position. -/
def nextPosition (position : Nat) : Nat := (position + 1) % 2 ^ 32

namespace RwkvVocab

/-- The bytes of the tokens, by their ids. -/
def tokens (v : RwkvVocab) : List Text := v.idToToken.map (llamaUnescapeRwkvToken ·.text)

/-- The constructor of `llm_tokenizer_rwkv`. -/
def tokenMatcher (v : RwkvVocab) : NaiveTrie :=
  v.tokens.zipIdx.foldl (fun trie data => trie.insert data.1 data.2) .empty

/-- The inner loop of `tokenize`, at a node: the last token on the way, and the position behind
it. -/
def walk (text : Text) : Nat → NaiveTrie → Nat → Token × Nat → Except RwkvError (Token × Nat)
  | 0, _, _, _ => .error .outOfFuel
  | fuel + 1, node, position, found => do
    let found := if node.hasValue then (node.value, nextPosition position) else found
    match node.traverse (← textAt text (nextPosition position)) with
    | some node => walk text fuel node (nextPosition position) found
    | none => return found

/-- The outer loop of `tokenize`. -/
def tokenizeLoop (v : RwkvVocab) (text : Text) :
    Nat → Nat → List Token → Except RwkvError (List Token)
  | 0, _, _ => .error .outOfFuel
  | fuel + 1, position, output =>
    if position < text.length then do
      match v.tokenMatcher.traverse (← textAt text position) with
      | none => tokenizeLoop v text fuel (nextPosition position) (output ++ [v.tokenUnk])
      | some node =>
        let found ← walk text fuel node position (0, 0)
        tokenizeLoop v text fuel found.2 (output ++ [found.1])
    else .ok output

/-- `llm_tokenizer_rwkv_session::tokenize`. -/
def tokenize (v : RwkvVocab) (fuel : Nat) (text : Text) : Except RwkvError (List Token) :=
  v.tokenizeLoop text fuel 0 []

end RwkvVocab

end LamaServer
