import LamaServer.Slot
import Mathlib.Data.Rat.Defs

/-!
# Drafting

`common_speculative_gen_draft`. The draft model keeps the tokens of the last call in sequence 0 of
its context; what it can use again of them for the next prompt is moved to the front, the rest is
removed, and the new tokens are decoded. Of the context there is what is stored for the sequence:
tokens at positions, in the order in which they were decoded.
-/

namespace LamaServer

/-- `common_speculative_params`. -/
structure SpeculativeParams where
  nDraft : Int := 16
  nReuse : Int := 256
  pMin : ℚ := 3 / 4
  deriving DecidableEq

/-- The draft model and its context. -/
structure DraftEnv where
  /-- `llama_n_ctx` -/
  nCtx : Int
  /-- `llama_n_batch` -/
  nBatch : Nat
  /-- the best candidate and its probability, for what is stored in the sequence -/
  best : List (Int × Token) → Token × ℚ
  /-- what is sampled where the last `llama_decode` failed -/
  stale : List (Int × Token) → Token × ℚ

/-- `common_speculative`. -/
structure CommonSpeculative where
  prompt : List Token := []
  /-- sequence 0 of `ctx` -/
  cells : List (Int × Token) := []
  /-- the last `llama_decode` returned 0 -/
  fresh : Bool := false
  /-- ghost: how much of the prompt was not drafted -/
  given : Nat := 0
  deriving DecidableEq

/-- A call. `decodes` says of its first `llama_decode`, which is for the prompt, of the second,
which is for the last token, and so on whether they return 0. -/
structure DraftCall where
  params : SpeculativeParams := {}
  promptTgt : List Token
  idLast : Token
  decodes : Nat → Bool := fun _ => true

inductive DraftError where
  /-- what `reserve` throws -/
  | lengthError
  /-- `llama_batch size exceeded` -/
  | abort
  deriving DecidableEq, Repr

/-! ## The sequence -/

def inSeqRange (p0 p1 : Int) (cell : Int × Token) : Bool :=
  p0 ≤ cell.1 ∧ (p1 < 0 ∨ cell.1 < p1)

/-- `llama_kv_self_seq_rm`. -/
def seqRmCells (p0 p1 : Int) (cells : List (Int × Token)) : List (Int × Token) :=
  cells.filter fun cell => !inSeqRange p0 p1 cell

/-- `llama_kv_self_seq_add`. -/
def seqAddCells (p0 p1 delta : Int) (cells : List (Int × Token)) : List (Int × Token) :=
  cells.filterMap fun cell =>
    if inSeqRange p0 p1 cell then
      if cell.1 + delta < 0 then none else some (cell.1 + delta, cell.2)
    else some cell

/-- Tokens for positions in a row. -/
def placeFrom (pos : Nat) : List Token → List (Int × Token)
  | [] => []
  | token :: tokens => ((pos : Int), token) :: placeFrom (pos + 1) tokens

/-! ## What is used again -/

/-- `reuse_i` and `reuse_n`. -/
structure ReuseWindow where
  i : Nat
  n : Nat
  deriving DecidableEq, Repr

namespace DraftCall

variable (call : DraftCall) (env : DraftEnv)

/-- `n_ctx`. -/
def nCtx : Int := env.nCtx - call.params.nDraft

def iStart : Nat := (call.promptTgt.length - call.nCtx env).toNat

/-- The loop over the old prompt. -/
def findReuse (prompt : List Token) : ReuseWindow :=
  (List.range prompt.length).foldl (fun reuse i =>
    let cur := getCommonPrefix (call.promptTgt.drop (call.iStart env)) (prompt.drop i)
    if (call.params.nReuse ≤ cur ∨ call.promptTgt.length ≤ call.nCtx env) ∧ reuse.n < cur then
      ⟨i, cur⟩
    else reuse) ⟨0, 0⟩

/-- The last token comes behind what is used again: the tokens behind it are passed back. -/
def PassesBack (s : CommonSpeculative) : Prop :=
  let reuse := call.findReuse env s.prompt
  0 < reuse.n ∧ s.prompt[reuse.i + reuse.n]? = some call.idLast

instance (s : CommonSpeculative) : Decidable (call.PassesBack env s) :=
  inferInstanceAs (Decidable (_ ∧ _))

end DraftCall

/-- The loop that passes tokens back. -/
def passBack (nDraft : Int) : List Token → List Token → List Token
  | result, [] => result
  | result, token :: tokens =>
    if nDraft ≤ (result ++ [token]).length then result ++ [token]
    else passBack nDraft (result ++ [token]) tokens

namespace CommonSpeculative

/-- The tokens in front of what is used again. -/
def dropFront (s : CommonSpeculative) (reuseI : Nat) : CommonSpeculative :=
  if 0 < reuseI then
    { s with
      cells := seqAddCells reuseI (-1) (-reuseI) (seqRmCells 0 reuseI s.cells)
      prompt := s.prompt.drop reuseI }
  else s

/-- The tokens behind it. -/
def cutBack (s : CommonSpeculative) (reuseN : Nat) : CommonSpeculative :=
  if reuseN < s.prompt.length then
    { s with cells := seqRmCells reuseN (-1) s.cells, prompt := s.prompt.take reuseN }
  else s

/-- What is left of the old prompt. -/
def keep (s : CommonSpeculative) (reuse : ReuseWindow) : CommonSpeculative :=
  if reuse.n = 0 then { s with cells := [], prompt := [] }
  else (s.dropFront reuse.i).cutBack reuse.n

/-- `llama_decode`, whose result is not looked at. -/
def decode (s : CommonSpeculative) (ok : Bool) (batch : List (Int × Token)) : CommonSpeculative :=
  if ok then { s with cells := s.cells ++ batch, fresh := true } else { s with fresh := false }

/-- The new tokens of the prompt are decoded in one batch. -/
def decodePrompt (s : CommonSpeculative) (ok : Bool) (pos : Nat) (tokens : List Token) :
    CommonSpeculative :=
  { (if tokens ≠ [] then s.decode ok (placeFrom pos tokens) else s) with
    prompt := s.prompt ++ tokens }

/-- The last token is decoded at `n_past`. -/
def decodeLast (s : CommonSpeculative) (ok : Bool) (idLast : Token) : CommonSpeculative :=
  let nPast := s.prompt.length
  { s.decode ok [((nPast : Int), idLast)] with
    prompt := s.prompt ++ [idLast]
    given := nPast + 1 }

/-- `cur_p->data[0]`. -/
def candidate (s : CommonSpeculative) (env : DraftEnv) : Token × ℚ :=
  if s.fresh then env.best s.cells else env.stale s.cells

/-- The loop that samples; `rounds` counts those that are left. -/
def draft (env : DraftEnv) (call : DraftCall) (nPast : Nat) (s : CommonSpeculative)
    (rounds : Nat) (result : List Token) : CommonSpeculative × List Token :=
  match rounds with
  | 0 => (s, result)
  | rounds + 1 =>
    let id := (s.candidate env).1
    let result := result ++ [id]
    if call.params.nDraft ≤ result.length ∨ (s.candidate env).2 < call.params.pMin then (s, result)
    else
      let s := s.decode (call.decodes (result.length + 1)) [((nPast + result.length : Nat), id)]
      draft env call nPast { s with prompt := s.prompt ++ [id] } rounds result

/-- `common_speculative_gen_draft`. -/
def genDraft (env : DraftEnv) (s : CommonSpeculative) (call : DraftCall) :
    Except DraftError (CommonSpeculative × List Token) :=
  let reuse := call.findReuse env s.prompt
  if call.params.nDraft < 0 then .error .lengthError
  else if call.PassesBack env s then
    .ok (s, passBack call.params.nDraft [] (s.prompt.drop (reuse.i + reuse.n + 1)))
  else
    let tokens := call.promptTgt.drop (call.iStart env + reuse.n)
    if env.nBatch < tokens.length ∨ env.nBatch = 0 then .error .abort
    else
      let s := (s.keep reuse).decodePrompt (call.decodes 0) reuse.n tokens
      .ok ((s.decodeLast (call.decodes 1) call.idLast).draft env call s.prompt.length
        call.params.nDraft.toNat [])

/-- What a call leaves behind and returns: nothing where it throws, and there is no more where the
program ends. -/
def call (env : DraftEnv) (s : CommonSpeculative) (call : DraftCall) :
    Option (CommonSpeculative × List Token) :=
  match s.genDraft env call with
  | .ok r => some r
  | .error .lengthError => some (s, [])
  | .error .abort => none

end CommonSpeculative

end LamaServer
