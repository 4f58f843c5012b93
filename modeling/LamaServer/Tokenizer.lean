import LamaServer.Vocab

/-!
# The SPM and BPE tokenizers

A word is split into its characters, and neighbours are joined as long as a pair of them is known,
the best pair first. The symbols are a linked list in an array; a symbol that has been joined to the
one before it stays in the array with no text. A queue holds the pairs, also those that have been
outdated by another pair.
-/

namespace LamaServer

/-- `llm_symbol`; `text` is where its text starts. -/
structure LlmSymbol where
  prev : Int
  next : Int
  text : Nat
  n : Nat
  deriving DecidableEq, Repr

/-- `llm_bigram_spm` and `llm_bigram_bpe`: the score or the rank is the key. The text of an SPM
bigram is used for its size only. -/
structure Bigram (κ : Type) where
  left : Nat
  right : Nat
  key : κ
  text : Text
  deriving DecidableEq, Repr

/-- What the two tokenizers do in their own way: the key of the pair of two texts, the order of the
queue, and when a bigram has been outdated, by the texts that its symbols have now. -/
structure BigramRule (κ : Type) where
  key : Text → Text → Except TokenizeError (Option κ)
  less : Bigram κ → Bigram κ → Bool
  outdated : Text → Text → Bigram κ → Bool

/-- A session: `revMerge` has every bigram that has been in the queue, the last one first. -/
structure TokenizerSession (κ : Type) where
  symbols : List LlmSymbol
  workQueue : List (Bigram κ) := []
  revMerge : List (Bigram κ) := []

/-- The characters of a word, from the index and the offset of the first one. -/
def splitSymbols (index offset : Nat) : Text → List LlmSymbol
  | [] => []
  | c :: word =>
    let n := min (unicodeLenUtf8 c) (word.length + 1)
    let word := word.drop (n - 1)
    ⟨index - 1, if word = [] then -1 else index + 1, offset, n⟩ ::
      splitSymbols (index + 1) (offset + n) word
  termination_by word => word.length
  decreasing_by
    rw [List.length_cons]
    exact Nat.lt_succ_of_le (List.drop_suffix _ _).length_le

/-- The top of a `std::priority_queue`, and what is left. -/
def popTop {β : Type} (less : β → β → Bool) : List β → Option (β × List β)
  | [] => none
  | b :: queue =>
    match popTop less queue with
    | none => some (b, [])
    | some (top, rest) => some (if less b top then (top, b :: rest) else (b, queue))

namespace TokenizerSession

variable {κ : Type}

def symbolText (word : Text) (symbol : LlmSymbol) : Text := (word.drop symbol.text).take symbol.n

/-- The text of a symbol by its index. -/
def textAt (word : Text) (symbols : List LlmSymbol) (i : Nat) : Text :=
  (symbols[i]?).elim [] (symbolText word)

/-- `try_add_bigram` and `add_new_bigram`. -/
def addBigram (rule : BigramRule κ) (word : Text) (left right : Int) (st : TokenizerSession κ) :
    Except TokenizeError (TokenizerSession κ) :=
  if left = -1 ∨ right = -1 then .ok st
  else do
    let leftText := textAt word st.symbols left.toNat
    let rightText := textAt word st.symbols right.toNat
    match ← rule.key leftText rightText with
    | none => return st
    | some key =>
      let bigram := ⟨left.toNat, right.toNat, key, leftText ++ rightText⟩
      return { st with workQueue := bigram :: st.workQueue, revMerge := bigram :: st.revMerge }

/-- The right symbol is joined to the left one and removed from the chain. -/
def merge (symbols : List LlmSymbol) (left right : Nat) : List LlmSymbol :=
  match symbols[left]?, symbols[right]? with
  | some l, some r =>
    let symbols := (symbols.set left { l with n := l.n + r.n, next := r.next }).set right
      { r with n := 0 }
    if r.next ≥ 0 then symbols.modify r.next.toNat fun s => { s with prev := left } else symbols
  | _, _ => symbols

/-- The loop over the queue. -/
def run (rule : BigramRule κ) (word : Text) :
    Nat → TokenizerSession κ → Except TokenizeError (TokenizerSession κ)
  | 0, _ => .error .outOfFuel
  | fuel + 1, st =>
    match popTop rule.less st.workQueue with
    | none => .ok st
    | some (bigram, queue) =>
      let st := { st with workQueue := queue }
      let left := textAt word st.symbols bigram.left
      let right := textAt word st.symbols bigram.right
      if left = [] ∨ right = [] ∨ rule.outdated left right bigram then run rule word fuel st
      else do
        let st := { st with symbols := merge st.symbols bigram.left bigram.right }
        let st ← addBigram rule word ((st.symbols[bigram.left]?).elim (-1) (·.prev)) bigram.left st
        let st ← addBigram rule word bigram.left ((st.symbols[bigram.left]?).elim (-1) (·.next)) st
        run rule word fuel st

/-- The symbols are seeded with the pairs of neighbours, and joined. -/
def tokenizeSymbols (rule : BigramRule κ) (word : Text) (symbols : List LlmSymbol) :
    Except TokenizeError (TokenizerSession κ) := do
  let st ← (List.range (symbols.length - 1)).foldlM
    (fun st (i : Nat) => addBigram rule word i (i + 1 : Nat) st) { symbols := symbols }
  run rule word (3 * symbols.length + 1) st

end TokenizerSession

namespace VocabImpl

variable (v : VocabImpl)

/-! ## SPM -/

/-- `try_add_bigram` and `llm_bigram_spm::comparator`. -/
def spmRule : BigramRule ℚ where
  key left right :=
    let token := v.textToToken (left ++ right)
    if token = tokenNull then .ok none
    else if token.toNat ≥ v.idToToken.length then .ok none
    else do return some (← v.getTokenData token).score
  less l r := l.key < r.key || l.key = r.key && l.left > r.left
  outdated left right bigram := left.length + right.length ≠ bigram.text.length

/-- `resegment`, of the symbol with the given index. -/
def resegment (word : Text) (st : TokenizerSession ℚ) :
    Nat → Nat → Except TokenizeError (List Token)
  | 0, _ => .error .outOfFuel
  | fuel + 1, i => do
    let text := TokenizerSession.textAt word st.symbols i
    let token := v.textToToken text
    if token ≠ tokenNull then return [token]
    match st.revMerge.find? (·.text = text) with
    | none => text.mapM v.byteToToken
    | some p => return (← resegment word st fuel p.left) ++ (← resegment word st fuel p.right)

/-- The loop over the chain, from the symbol `i` on. -/
def resegmentChain (word : Text) (st : TokenizerSession ℚ) :
    Nat → Int → Except TokenizeError (List Token)
  | 0, _ => .error .outOfFuel
  | fuel + 1, i =>
    if i = -1 then .ok []
    else match st.symbols[i.toNat]? with
      | none => .error .outOfRange
      | some symbol => do
        let tokens ← v.resegment word st (st.symbols.length + 1) i.toNat
        return tokens ++ (← resegmentChain word st fuel symbol.next)

/-- `llm_tokenizer_spm_session::tokenize`. -/
def spmTokenize (text : Text) : Except TokenizeError (List Token) := do
  let st ← TokenizerSession.tokenizeSymbols v.spmRule text (splitSymbols 0 0 text)
  v.resegmentChain text st (st.symbols.length + 1) 0

/-! ## BPE -/

/-- `find_bpe_rank`; there is none where it returns -1. -/
def findBpeRank (left right : Text) : Except TokenizeError (Option Nat) :=
  if ascii ' ' ∈ left ∨ ascii '\n' ∈ left ∨ ascii ' ' ∈ right ∨ ascii '\n' ∈ right then
    .error .abort
  else .ok (v.bpeMerges.findIdx? (· = (left, right)))

/-- `add_new_bigram` and `llm_bigram_bpe::comparator`. -/
def bpeRule : BigramRule Nat where
  key := v.findBpeRank
  less l r := l.key > r.key || l.key = r.key && l.left > r.left
  outdated left right bigram := left ++ right ≠ bigram.text

/-- The texts of the symbols that a word is left with. -/
def bpeSymbols (word : Text) : Except TokenizeError (List Text) := do
  let symbols := if v.ignoreMerges && v.textToToken word ≠ tokenNull then [⟨-1, -1, 0, word.length⟩]
    else splitSymbols 0 0 word
  let st ← TokenizerSession.tokenizeSymbols v.bpeRule word symbols
  return (st.symbols.filter (·.n > 0)).map (TokenizerSession.symbolText word)

/-- The tokens of a symbol; what is not found, not even as a byte, is left out. -/
def bpeTokens (str : Text) : List Token :=
  let token := v.textToToken str
  if token = tokenNull then
    (str.map fun j => v.textToToken [j]).filter (· ≠ tokenNull)
  else [token]

/-- `llm_tokenizer_bpe_session::tokenize`. -/
def bpeTokenize (env : UnicodeEnv) (text : Text) : Except TokenizeError (List Token) := do
  let wordCollection ← ofUnicode (unicodeRegexSplit env text v.regexExprs)
  let symbolsFinal ← wordCollection.mapM v.bpeSymbols
  return symbolsFinal.flatten.flatMap v.bpeTokens

/-! ## Tokenizing -/

/-- The loop of `tokenize` over the fragments, for SPM. -/
def spmFragments : Bool → List Fragment → Except TokenizeError (List Token)
  | _, [] => .ok []
  | _, .token token :: fragments => do return token :: (← spmFragments true fragments)
  | isPrevSpecial, .rawText raw :: fragments => do
    let text := if v.addSpacePrefix ∧ isPrevSpecial then ascii ' ' :: raw else raw
    let tokens ← v.spmTokenize (llamaEscapeWhitespace text)
    return tokens ++ (← spmFragments false fragments)

/-- The loop of `tokenize` over the fragments, for BPE. -/
def bpeFragments (env : UnicodeEnv) (fragments : List Fragment) :
    Except TokenizeError (List Token) :=
  List.flatten <$> fragments.mapM fun
    | .token token => .ok [token]
    | .rawText raw => v.bpeTokenize env raw

/-- `tokenize`. -/
def tokenize (env : UnicodeEnv) (rawText : Text) (addSpecial parseSpecial : Bool) :
    Except TokenizeError (List Token) := do
  let fragments := if rawText = [] then []
    else v.tokenizerStPartition parseSpecial [.rawText rawText]
  -- `GGML_ASSERT(special_bos_id != LLAMA_TOKEN_NULL)`, and so for EOS
  if addSpecial ∧ v.addBos ∧ v.specialBosId = tokenNull then throw .abort
  let bos := if addSpecial ∧ v.addBos then [v.specialBosId] else []
  let tokens ← match v.type with
    | .spm => v.spmFragments true fragments
    | .bpe => v.bpeFragments env fragments
  if addSpecial ∧ v.addEos ∧ v.specialEosId = tokenNull then throw .abort
  let eos := if addSpecial ∧ v.addEos then [v.specialEosId] else []
  return bos ++ tokens ++ eos

end VocabImpl

end LamaServer
