import Mathlib.Data.List.Basic
import Mathlib.Order.Lattice.Nat

/-!
# The tokens of a prompt with images

`server_tokens`: the list of tokens, where an image holds one null token for each of its positions,
and the map from the position where an image starts to its chunk. An image chunk is known by its id
and its number of positions, which is what the operations read of it. `str`, `detokenize` and the
processing of a chunk are left out.
-/

namespace LamaServer

/-- `LLAMA_TOKEN_NULL`. -/
def tokenNull : Int := -1

/-- An image chunk: `mtmd_image_tokens_get_id` and `mtmd_image_tokens_get_n_pos`. -/
structure ImageChunk where
  id : String
  nPos : Nat
  deriving DecidableEq

structure ServerTokens where
  hasMtmd : Bool
  mapPosToImage : Nat → Option ImageChunk := fun _ => none
  tokens : List Int := []

/-- What an operation comes to that does not return: an exception, or a failed assertion. -/
inductive TokensError where
  | thrown (message : String)
  | aborted
  deriving DecidableEq

namespace ServerTokens

def findChunk (s : ServerTokens) (pos : Nat) : Except TokensError ImageChunk :=
  match s.mapPosToImage pos with
  | some chunk => .ok chunk
  | none => .error (.thrown "Chunk not found")

/-- `push_back` of a token. -/
def pushBack (s : ServerTokens) (tok : Int) : Except TokensError ServerTokens :=
  if tok = tokenNull then .error (.thrown "Invalid token")
  else .ok { s with tokens := s.tokens ++ [tok] }

/-- `push_back` of an image chunk. -/
def pushBackImage (s : ServerTokens) (chunk : ImageChunk) : Except TokensError ServerTokens :=
  if !s.hasMtmd then .error .aborted
  else .ok { s with
    tokens := s.tokens ++ List.replicate chunk.nPos tokenNull
    mapPosToImage := Function.update s.mapPosToImage s.tokens.length (some chunk) }

/-- `push_back` of a text chunk: the value it leaves, and whether it threw. -/
def pushBackText (s : ServerTokens) : List Int → ServerTokens × Option TokensError
  | [] => (s, none)
  | tok :: toks =>
    match s.pushBack tok with
    | .ok s => s.pushBackText toks
    | .error e => (s, some e)

def insert (s : ServerTokens) (inpTokens : List Int) : Except TokensError ServerTokens :=
  if s.hasMtmd then .error .aborted
  else .ok { s with tokens := s.tokens ++ inpTokens }

/-- The map is not cleared. -/
def clear (s : ServerTokens) : ServerTokens := { s with tokens := [] }

/-- The check of `keep_first` that no image is cut. -/
def checkCut (s : ServerTokens) (n : Nat) : Except TokensError Unit :=
  if s.hasMtmd ∧ 0 < n ∧ s.tokens[n - 1]? = some tokenNull then do
    let _ ← s.findChunk (n - 1)
    .ok ()
  else .ok ()

def keepFirst (s : ServerTokens) (n : Nat) : Except TokensError ServerTokens :=
  if s.tokens.length < n then .error .aborted
  else do
    s.checkCut n
    .ok { s with
      mapPosToImage := if s.hasMtmd then fun pos => if n ≤ pos then none else s.mapPosToImage pos
        else s.mapPosToImage
      tokens := s.tokens.take n }

/-- The loop of `get_common_prefix` from `i` on; the first argument bounds the rounds. -/
def commonPrefixFrom (a b : ServerTokens) : Nat → Nat → Except TokensError Nat
  | 0, i => .ok i
  | r + 1, i =>
    match a.tokens[i]?, b.tokens[i]? with
    | some ai, some bi =>
      if ai = tokenNull ∧ bi = tokenNull then
        if !a.hasMtmd then .error .aborted
        else do
          let aChunk ← a.findChunk i
          let bChunk ← b.findChunk i
          if aChunk.id = bChunk.id ∧ aChunk.nPos = bChunk.nPos then
            if aChunk.nPos = 0 then .error .aborted
            else commonPrefixFrom a b r (i + aChunk.nPos)
          else .ok i
      else if ai = bi then commonPrefixFrom a b r (i + 1)
      else .ok i
    | _, _ => .ok (min a.tokens.length b.tokens.length)

def getCommonPrefix (a b : ServerTokens) : Except TokensError Nat :=
  commonPrefixFrom a b (min a.tokens.length b.tokens.length + 1) 0

end ServerTokens

end LamaServer
