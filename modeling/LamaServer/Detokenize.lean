import LamaServer.Rwkv
import Mathlib.Tactic.Basic

/-!
# Detokenizing into a buffer

`token_to_piece` and `detokenize` of a vocabulary of any type, with sizes as `int32_t` and a buffer
that the bytes are written to. When a vocabulary is loaded, the piece of each token is put into a
cache, which is then used in place of the text of the token.
-/

namespace LamaServer

/-- `llama_vocab_type`. -/
inductive LlamaVocabType where
  | none | spm | bpe | wpm | ugm | rwkv
  deriving DecidableEq, Repr

/-- What is thrown, or aborts; `undefined` is an `int32_t` that overflows, or a write behind the
buffer. -/
inductive PieceError where
  | tokenize (e : TokenizeError)
  | undefined
  deriving DecidableEq, Repr

/-- A result of `int32_t` arithmetic. -/
def checkedInt32 (n : Int) : Except PieceError Int :=
  if -2 ^ 31 ≤ n ∧ n < 2 ^ 31 then .ok n else .error .undefined

/-- `(int32_t) size`. -/
def sizeToInt32 (size : Nat) : Int :=
  let low : Nat := size % 2 ^ 32
  if low < 2 ^ 31 then low else low - 2 ^ 32

/-- `memcpy` of a text to where `room` bytes are left. -/
def copyOut (room : Nat) (text : Text) : Except PieceError Text :=
  if text.length ≤ room then .ok text else .error .undefined

/-- `std::string::resize`. -/
def resizeText (text : Text) (n : Nat) : Text :=
  (text ++ List.replicate (n - text.length) 0).take n

/-- Up to `lstrip` leading spaces are skipped. -/
def skipSpaces : Nat → Text → Text
  | lstrip + 1, c :: text => if c = ascii ' ' then skipSpaces lstrip text else c :: text
  | _, text => text

/-- `_try_copy` of `token_to_piece`: what it returns, and the bytes that it writes. -/
def tryCopy (length : Int) (room lstrip : Nat) (token : Text) : Except PieceError (Int × Text) := do
  let token := skipSpaces lstrip token
  if length < sizeToInt32 token.length then
    return (← checkedInt32 (-sizeToInt32 token.length), [])
  return (sizeToInt32 token.length, ← copyOut room token)

/-- What `token_to_piece` does for an RWKV token. -/
def copyRwkvToken (length : Int) (room : Nat) (result : Text) :
    Except PieceError (Int × Text) := do
  -- `length` is cast to `size_t`
  if result.length > length % 2 ^ 64 then
    return (← checkedInt32 (-sizeToInt32 result.length), [])
  return (sizeToInt32 result.length, ← copyOut room result)

/-- What `token_to_piece` and `detokenize` use of `llama_vocab::impl`. -/
structure PieceVocab where
  type : LlamaVocabType
  idToToken : List VocabToken
  specialBosId : Token := tokenNull
  specialEosId : Token := tokenNull
  addSpacePrefix : Bool := false
  addBos : Bool := false
  addEos : Bool := false
  cleanSpaces : Bool := false
  cacheTokenToPiece : List Text := []

namespace PieceVocab

variable (v : PieceVocab)

/-- `id_to_token.at(id)`. -/
def tokenData (id : Token) : Except PieceError VocabToken :=
  if v.type = .none then .error (.tokenize .abort)
  else if 0 ≤ id then Except.ofOption (.tokenize .outOfRange) v.idToToken[id.toNat]?
  else .error (.tokenize .outOfRange)

/-- `token_to_byte`. -/
def tokenToByte (data : VocabToken) : Except PieceError UInt8 :=
  match v.type with
  | .spm | .ugm => (VocabImpl.tokenToByte data).mapError .tokenize
  | _ => .error (.tokenize .abort)

/-- `token_to_piece`: what it returns, and the bytes that it writes to a buffer with `room` bytes
left. -/
def tokenToPiece (token : Token) (length : Int) (room lstrip : Nat) (special : Bool) :
    Except PieceError (Int × Text) := do
  let data ← v.tokenData token
  let attrSpecial := data.attr.unknown || data.attr.control
  if !special && attrSpecial then return (0, [])
  if v.cacheTokenToPiece ≠ [] then
    let result ← Except.ofOption (.tokenize .outOfRange) v.cacheTokenToPiece[token.toNat]?
    tryCopy length room lstrip result
  else
    match v.type with
    | .wpm | .spm | .ugm =>
      if attrSpecial || data.attr.userDefined then tryCopy length room lstrip data.text
      else if data.attr.normal then
        tryCopy length room lstrip (llamaUnescapeWhitespace data.text)
      else if data.attr.byte then tryCopy length room lstrip [← v.tokenToByte data]
      else return (0, [])
    | .bpe =>
      if attrSpecial || data.attr.userDefined then tryCopy length room lstrip data.text
      else if data.attr.normal then
        let result ← (ofUnicode (llamaDecodeText data.text)).mapError .tokenize
        tryCopy length room lstrip result
      else return (0, [])
    | .rwkv => copyRwkvToken length room (llamaUnescapeRwkvToken data.text)
    | .none => .error (.tokenize .abort)

/-- `token_to_piece_for_cache`, with the capacity of an empty string. -/
def tokenToPieceForCache (capacity : Nat) (token : Token) : Except PieceError Text := do
  let (nChars, piece) ← v.tokenToPiece token capacity capacity 0 true
  if nChars < 0 then
    let (check, piece) ← v.tokenToPiece token (-nChars) (-nChars).toNat 0 true
    if check ≠ -nChars then throw (.tokenize .abort)
    return resizeText piece (-nChars).toNat
  return resizeText piece nChars.toNat

/-- The cache that `load` fills. -/
def loadCache (capacity : Nat) : Except PieceError (List Text) :=
  (List.range v.idToToken.length).mapM fun id =>
    { v with cacheTokenToPiece := [] }.tokenToPieceForCache capacity (id : Nat)

/-- The loop of `detokenize`, for a buffer of `textLenMax` bytes. -/
def detokenizeLoop (unparseSpecial : Bool) (textLenMax : Nat) :
    List Token → Int → Int → Text → Bool → Except PieceError (Int × Text)
  | [], _, total, text, _ => .ok (total, text)
  | token :: tokens, avail, total, text, removeSpace =>
    if avail < 0 then .error (.tokenize .abort)
    else do
      let (nChars, piece) ←
        v.tokenToPiece token avail (textLenMax - text.length) removeSpace.toNat unparseSpecial
      if nChars < 0 then
        let total ← checkedInt32 (total - nChars)
        detokenizeLoop unparseSpecial textLenMax tokens 0 total text false
      else if nChars > 0 then
        let total ← checkedInt32 (total + nChars)
        detokenizeLoop unparseSpecial textLenMax tokens (avail - nChars) total (text ++ piece) false
      else detokenizeLoop unparseSpecial textLenMax tokens avail total text false

/-- The special tokens that are removed from the ends, and whether a leading space is. -/
def trimSpecial (tokens : List Token) (removeSpecial : Bool) : List Token × Bool :=
  let removeBos := removeSpecial && v.addBos && tokens.head? = some v.specialBosId
  let tokens := if removeBos then tokens.tail else tokens
  let removeEos := removeSpecial && v.addEos && tokens.getLast? = some v.specialEosId
  (if removeEos then tokens.dropLast else tokens, v.addSpacePrefix && !removeBos)

/-- `detokenize`: what it returns, and the bytes in the buffer. -/
def detokenize (tokens : List Token) (textLenMax : Nat) (removeSpecial unparseSpecial : Bool) :
    Except PieceError (Int × Text) := do
  if v.type = .none then return (0, [])
  let (tokens, removeSpace) := v.trimSpecial tokens removeSpecial
  let (total, text) ←
    v.detokenizeLoop unparseSpecial textLenMax tokens textLenMax 0 [] removeSpace
  if total > textLenMax then return (← checkedInt32 (-total), text)
  if v.cleanSpaces then return ((VocabImpl.cleanText text).length, VocabImpl.cleanText text)
  return (total, text)

end PieceVocab

/-- A vocabulary as `load` leaves it. -/
structure LoadedVocab extends PieceVocab where
  capacity : Nat
  capacity_lt : capacity < 2 ^ 31
  loaded : type ≠ .none → toPieceVocab.loadCache capacity = .ok cacheTokenToPiece

end LamaServer
