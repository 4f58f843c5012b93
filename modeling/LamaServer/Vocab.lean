import LamaServer.Lib.Except
import LamaServer.ServerTokens
import LamaServer.Unicode
import Mathlib.Data.List.DropRight
import Mathlib.Data.List.Sort
import Mathlib.Data.Rat.Defs

/-!
# The vocabulary

The tokens of an SPM or BPE vocabulary, the pieces that they stand for, and what is done around the
tokenizers: special tokens are cut out of a text before it is tokenized, and the pieces are put
together again.
-/

namespace LamaServer

/-- `llama_token_attr`: the bits that are set. -/
structure TokenAttr where
  unknown : Bool := false
  unused : Bool := false
  normal : Bool := false
  control : Bool := false
  userDefined : Bool := false
  byte : Bool := false
  lstrip : Bool := false
  rstrip : Bool := false
  deriving DecidableEq, Repr

/-- `llama_vocab::token_data`. -/
structure VocabToken where
  text : Text
  score : ℚ := 0
  attr : TokenAttr := { normal := true }
  deriving DecidableEq

/-- `llama_vocab_type`, of the tokenizers that are modelled. -/
inductive VocabType where
  | spm | bpe
  deriving DecidableEq, Repr

/-- `llama_vocab::impl`. A merge has its position in the list as rank. -/
structure VocabImpl where
  type : VocabType
  idToToken : List VocabToken
  bpeMerges : List (Text × Text) := []
  specialBosId : Token := tokenNull
  specialEosId : Token := tokenNull
  addSpacePrefix : Bool := false
  addBos : Bool := false
  addEos : Bool := false
  ignoreMerges : Bool := false
  cleanSpaces : Bool := false
  regexExprs : List Text := []
  text_ne_nil : ∀ data ∈ idToToken, data.text ≠ []
  -- `GGML_ASSERT(id_to_token.size() == token_to_id.size())`
  text_nodup : (idToToken.map (·.text)).Nodup

/-- What is thrown, or aborts. -/
inductive TokenizeError where
  | outOfFuel
  | abort
  | outOfRange
  | unicode (e : UnicodeError)
  deriving DecidableEq, Repr

def ofUnicode {α : Type} (x : Except UnicodeError α) : Except TokenizeError α :=
  x.mapError .unicode

/-- `replace_all`, for a `search` that is not empty. -/
def replaceAll (search replace : Text) : Text → Text
  | [] => []
  | c :: s =>
    if search.isPrefixOf (c :: s) then
      replace ++ replaceAll search replace (s.drop (search.length - 1))
    else c :: replaceAll search replace s
  termination_by s => s.length

/-- U+2581, which stands for a space. -/
def spaceMark : Text := [0xE2, 0x96, 0x81]

def llamaEscapeWhitespace (text : Text) : Text := replaceAll [ascii ' '] spaceMark text

def llamaUnescapeWhitespace (word : Text) : Text := replaceAll spaceMark [ascii ' '] word

namespace VocabImpl

variable (v : VocabImpl)

/-- `text_to_token`. -/
def textToToken (text : Text) : Token :=
  match v.idToToken.findIdx? (·.text = text) with
  | some id => id
  | none => tokenNull

/-- `id_to_token.at(id)`. -/
def getTokenData (id : Token) : Except TokenizeError VocabToken :=
  if 0 ≤ id then Except.ofOption .outOfRange v.idToToken[id.toNat]? else .error .outOfRange

/-- The text of `byte_to_token` for a byte. -/
def byteText (ch : UInt8) : Text :=
  let hex (n : Nat) : UInt8 := ("0123456789ABCDEF".toList.map ascii).getD n 0
  [ascii '<', ascii '0', ascii 'x', hex (ch.toNat / 16), hex (ch.toNat % 16), ascii '>']

/-- `byte_to_token`, of an SPM vocabulary. -/
def byteToToken (ch : UInt8) : Except TokenizeError Token :=
  let token := v.textToToken (byteText ch)
  if token ≠ tokenNull then .ok token
  else
    -- `buf2` is a C string
    let token := v.textToToken (if ch = 0 then [] else [ch])
    if token ≠ tokenNull then .ok token else .error .outOfRange

/-- `token_to_byte`, of an SPM vocabulary; `strtol` returns 0 where there is no number. -/
def tokenToByte (data : VocabToken) : Except TokenizeError UInt8 :=
  if data.text.length < 3 then .error .outOfRange
  else match stoul16 ((data.text.drop 3).take 2) with
    | .ok value => .ok (UInt8.ofNat value)
    | .error _ => .ok 0

/-- What `token_to_piece` copies, with special tokens. -/
def pieceText (data : VocabToken) : Except TokenizeError Text :=
  if data.attr.unknown || data.attr.control || data.attr.userDefined then .ok data.text
  else match v.type with
    | .spm =>
      if data.attr.normal then .ok (llamaUnescapeWhitespace data.text)
      else if data.attr.byte then do return [← tokenToByte data]
      else .ok []
    | .bpe => if data.attr.normal then ofUnicode (llamaDecodeText data.text) else .ok []

/-- `_try_copy`: the size, negative if `length` is less, and the bytes that are copied. -/
def tryCopy (length : Int) : Nat → Text → Int × Text
  | 0, piece => if length < piece.length then (-piece.length, []) else (piece.length, piece)
  | lstrip + 1, piece =>
    if piece.head? = some (ascii ' ') then tryCopy length lstrip piece.tail
    else tryCopy length 0 piece

/-- `token_to_piece`. The cache holds what it would copy without `lstrip`. -/
def tokenToPiece (token : Token) (length : Int) (lstrip : Nat) (special : Bool) :
    Except TokenizeError (Int × Text) := do
  let data ← getTokenData v token
  if !special && (data.attr.unknown || data.attr.control) then return (0, [])
  return tryCopy length lstrip (← v.pieceText data)

/-! ## Special tokens -/

/-- `fragment_buffer_variant`. -/
inductive Fragment where
  | token (token : Token)
  | rawText (text : Text)
  deriving DecidableEq, Repr

/-- `cache_special_tokens`: the longest first. -/
def cacheSpecialTokens : List Nat :=
  ((List.range v.idToToken.length).filter fun id => (v.idToToken[id]?).any fun data =>
    data.attr.control || data.attr.userDefined || data.attr.unknown).insertionSort fun a b =>
      ((v.idToToken[b]?).elim 0 (·.text.length)) ≤ ((v.idToToken[a]?).elim 0 (·.text.length))

theorem indexOf_le {word : Text} : ∀ {text : Text} {pos : Nat}, Text.indexOf word text = some pos →
    pos + word.length ≤ text.length
  | [], pos, h => by
    rw [Text.indexOf] at h
    split_ifs at h with hword
    cases h
    simp [hword]
  | c :: text, pos, h => by
    rw [Text.indexOf] at h
    split_ifs at h with hprefix
    · cases h
      simpa using (List.isPrefixOf_iff_prefix.1 hprefix).length_le
    · obtain ⟨pos, hpos, rfl⟩ := Option.map_eq_some_iff.1 h
      have := indexOf_le hpos
      rw [List.length_cons]
      omega

/-- The loop of `tokenizer_st_partition` over the occurrences of a special token in a fragment. -/
def splitFragment (specialId : Token) (data : VocabToken) (hdata : data.text ≠ []) (raw : Text) :
    List Fragment :=
  match _h : Text.indexOf data.text raw with
  | none => [.rawText raw]
  | some pos =>
    let left := if data.attr.lstrip then (raw.take pos).rdropWhile isSpace else raw.take pos
    let right := raw.drop (pos + data.text.length)
    let right := if data.attr.rstrip then right.dropWhile isSpace else right
    (if left ≠ [] then [.rawText left] else []) ++ .token specialId ::
      (if right ≠ [] then splitFragment specialId data hdata right else [])
  termination_by raw.length
  decreasing_by
    have hlen := List.length_pos_iff.2 hdata
    have hle := indexOf_le _h
    have hdrop : (raw.drop (pos + data.text.length)).length < raw.length := by
      rw [List.length_drop]
      omega
    split_ifs
    · exact Nat.lt_of_le_of_lt (List.dropWhile_suffix _).length_le hdrop
    · exact hdrop

/-- A special token is cut out of the fragments that are still text. -/
def splitFragments (specialId : Token) (data : VocabToken) (hdata : data.text ≠ [])
    (buffer : List Fragment) : List Fragment :=
  buffer.flatMap fun
    | .token token => [.token token]
    | .rawText raw => splitFragment specialId data hdata raw

/-- `tokenizer_st_partition`. -/
def tokenizerStPartition (parseSpecial : Bool) (buffer : List Fragment) : List Fragment :=
  v.cacheSpecialTokens.foldl (fun buffer (specialId : Nat) =>
    match h : v.idToToken[specialId]? with
    | none => buffer
    | some data =>
      if !parseSpecial && (data.attr.control || data.attr.unknown) then buffer
      else splitFragments specialId data (v.text_ne_nil data (List.mem_of_getElem? h)) buffer)
    buffer

/-! ## Putting pieces together -/

/-- A pass of `clean_spaces`. Behind a space, `rule` says for a character and what follows it
whether the space is removed, and how many of the characters that follow are. -/
def cleanPass (rule : UInt8 → Text → Option Nat) (written : Text) (prev : UInt8) : Text → Text
  | [] => written
  | x :: text =>
    match if prev = ascii ' ' then rule x text else none with
    | none => cleanPass rule (written ++ [x]) x text
    | some n => cleanPass rule (written.dropLast ++ [x]) (if n = 0 then x else 0) (text.drop n)
  termination_by text => text.length

/-- ` ?`, ` !`, ` .` and ` ,`. -/
def cleanPunctuation (x : UInt8) (_ : Text) : Option Nat :=
  if x = ascii '?' ∨ x = ascii '!' ∨ x = ascii '.' ∨ x = ascii ',' then some 0 else none

/-- ` ' `. -/
def cleanApostrophe (x : UInt8) (text : Text) : Option Nat :=
  if x = ascii '\'' ∧ text.head? = some (ascii ' ') then some 1 else none

/-- ` 's`, ` 'm`, ` 're` and ` 've`. -/
def cleanContraction (x : UInt8) (text : Text) : Option Nat :=
  if x = ascii '\'' ∧ (text.head? = some (ascii 's') ∨ text.head? = some (ascii 'm') ∨
    text.take 2 = "re".toList.map ascii ∨ text.take 2 = "ve".toList.map ascii) then some 0
  else none

def cleanText (text : Text) : Text :=
  [cleanPunctuation, cleanApostrophe, cleanContraction].foldl (fun text rule =>
    match text with
    | [] => []
    | c :: text => cleanPass rule [c] c text) text

/-- The loop of `detokenize`: the number of bytes that there are, and those that fit. -/
def detokenizeLoop (unparseSpecial : Bool) : List Token → Int → Bool →
    Except TokenizeError (Int × Text)
  | [], _, _ => .ok (0, [])
  | token :: tokens, avail, removeSpace => do
    if avail < 0 then throw .abort
    let (nChars, piece) ← v.tokenToPiece token avail removeSpace.toNat unparseSpecial
    let avail := if nChars < 0 then 0 else avail - nChars
    let (total, text) ← detokenizeLoop unparseSpecial tokens avail false
    return (total + nChars.natAbs, piece ++ text)

/-- `detokenize`: what it returns, and the text. -/
def detokenize (tokens : List Token) (textLenMax : Int) (removeSpecial unparseSpecial : Bool) :
    Except TokenizeError (Int × Text) := do
  let removeBos := removeSpecial && v.addBos && tokens.head? = some v.specialBosId
  let tokens := if removeBos then tokens.tail else tokens
  let removeEos := removeSpecial && v.addEos && tokens.getLast? = some v.specialEosId
  let tokens := if removeEos then tokens.dropLast else tokens
  let (total, text) ← v.detokenizeLoop unparseSpecial tokens textLenMax
    (v.addSpacePrefix && !removeBos)
  if total > textLenMax then return (-total, [])
  let text := if v.cleanSpaces then cleanText text else text
  return (text.length, text)

end VocabImpl

end LamaServer
