import LamaServer.KvCache
import LamaServer.Slot

/-!
# Taking up a prompt

What `update_slots` does first with the prompt of a slot that was started. Too long a prompt is
turned down or truncated; of the tokens in the cache the common prefix is kept, and with
`n_cache_reuse` also later chunks that occur again, whose KV cells are shifted to their new
positions. Prompts and caches are lists of text tokens.
-/

namespace LamaServer

/-- What the server reads when it takes up a prompt. `load_model` turns both features off when it
loads a multimodal projector. -/
structure PromptEnv where
  /-- `mctx != nullptr` -/
  mctx : Bool
  ctxShift : Bool
  nCacheReuse : Int
  nUbatch : Int
  ctxShift_of_mctx : mctx = true → ctxShift = false
  nCacheReuse_of_mctx : mctx = true → nCacheReuse = 0

/-- Why a prompt is not processed. -/
inductive PromptFault where
  /-- the slot is released with an empty response -/
  | empty
  /-- the slot is released with an error -/
  | rejected (message : String)
  /-- `GGML_ABORT` or a failed `GGML_ASSERT` -/
  | aborted
  | divisionByZero
  /-- an iterator outside of the tokens -/
  | outOfRange
  deriving DecidableEq

namespace Slot

/-- A slot that was started. -/
def beginPrompt (slot : Slot) : Slot :=
  { slot with
    nPast := 0
    nPromptTokens := slot.promptTokens.length
    state := .processingPrompt }

/-- The bounds on `n_keep`. -/
def clampKeep (slot : Slot) : Slot :=
  let nKeep := if slot.params.nKeep < 0 then slot.nPromptTokens else slot.params.nKeep
  { slot with params := { slot.params with nKeep := min (slot.nCtx - 4) nKeep } }

/-- `n_block_size`: half of what is left. -/
def blockSize (slot : Slot) : Int := (slot.nCtx - slot.params.nKeep).tdiv 2

/-- The truncation of a prompt that is too big. -/
def truncatePrompt (mctx : Bool) (slot : Slot) : Except PromptFault Slot :=
  if slot.nPromptTokens < slot.nCtx then .ok slot
  else if mctx then .error .aborted
  else if slot.blockSize = 0 then .error .divisionByZero
  else
    let nKeep := slot.params.nKeep
    let erasedBlocks :=
      (slot.nPromptTokens - nKeep - slot.blockSize).tdiv slot.blockSize
    let resume := nKeep + erasedBlocks * slot.blockSize
    if nKeep < 0 ∨ slot.promptTokens.length < nKeep ∨
        resume < 0 ∨ slot.promptTokens.length < resume then .error .outOfRange
    else
      let newTokens := slot.promptTokens.take nKeep.toNat ++ slot.promptTokens.drop resume.toNat
      if (newTokens.length : Int) < slot.nCtx then
        .ok { slot with
          promptTokens := newTokens
          truncated := true
          nPromptTokens := newTokens.length }
      else .error .aborted

end Slot

/-! ## Reusing chunks of the cache -/

/-- The variables of the loop: the heads in the cache and in the prompt, and what it changes. -/
structure Reuse (m : KvParams) (size : Nat) where
  headC : Nat
  headP : Nat
  nPast : Int
  cacheTokens : List Token
  kv : KvCache m size

variable {m : KvParams} {size : Nat}

/-- Copies `n` tokens from `headC` on to `headP` on, one by one. -/
def moveTokens (headC headP n : Nat) (tokens : List Token) : List Token :=
  (List.range n).foldl (fun tokens i =>
    match tokens[headC + i]? with
    | some tok => tokens.set (headP + i) tok
    | none => tokens) tokens

/-- One round. -/
def Reuse.step (env : PromptEnv) (id : Int) (prompt : List Token) (s : Reuse m size) :
    Reuse m size :=
  let nMatch := getCommonPrefix (s.cacheTokens.drop s.headC) (prompt.drop s.headP)
  if env.nCacheReuse ≤ nMatch then
    let kvShift : Int := s.headP - s.headC
    { headC := s.headC + nMatch
      headP := s.headP + nMatch
      nPast := s.nPast + nMatch
      cacheTokens := moveTokens s.headC s.headP nMatch s.cacheTokens
      kv := (s.kv.seqRm id s.headP s.headC).seqAdd id s.headC (s.headC + nMatch : Nat) kvShift }
  else { s with headC := s.headC + 1 }

/-- The loop; the first argument bounds the rounds. -/
def Reuse.loop (env : PromptEnv) (id : Int) (prompt : List Token) :
    Nat → Reuse m size → Option (Reuse m size)
  | 0, _ => none
  | r + 1, s =>
    if s.headC < s.cacheTokens.length ∧ s.headP < prompt.length then
      loop env id prompt r (s.step env id prompt)
    else some s

/-- What a slot keeps of its cache. It takes no more rounds than there are tokens in the cache. -/
def Slot.reuseCache (env : PromptEnv) (slot : Slot) (kv : KvCache m size) :
    Except PromptFault (Slot × KvCache m size) :=
  if slot.params.cachePrompt then
    let nPast := getCommonPrefix slot.cacheTokens slot.promptTokens
    if 0 < env.nCacheReuse then
      if env.mctx then .error .aborted
      else
        let s : Reuse m size := ⟨nPast, nPast, nPast, slot.cacheTokens, kv⟩
        match s.loop env slot.id slot.promptTokens (slot.cacheTokens.length + 1) with
        | some s => .ok ({ slot with nPast := s.nPast, cacheTokens := s.cacheTokens }, s.kv)
        | none => .error .aborted
    else .ok ({ slot with nPast := nPast }, kv)
  else .ok ({ slot with nPast := 0, cacheTokens := [] }, kv.seqRm slot.id 0 (-1))

/-- At least one token is evaluated to generate logits. -/
def Slot.leaveOne (slot : Slot) : Slot :=
  if slot.nPast = slot.nPromptTokens ∧ 0 < slot.nPast then { slot with nPast := slot.nPast - 1 }
  else slot

/-- All of it, for a slot in the state `SLOT_STATE_STARTED`. -/
def Slot.takeUpPrompt (env : PromptEnv) (slot : Slot) (kv : KvCache m size) :
    Except PromptFault (Slot × KvCache m size) :=
  let slot := slot.beginPrompt
  if slot.promptTokens = [] then .error .empty
  else if slot.isNonCausal then
    if env.nUbatch < slot.nPromptTokens then
      .error (.rejected ("input is too large (" ++ toString slot.nPromptTokens ++
        " tokens, normally limited to " ++ toString env.nUbatch ++
        " tokens) to process. increase the physical batch size"))
    else if slot.nCtx < slot.nPromptTokens then
      .error (.rejected "input is larger than the max context size. skipping")
    else .ok (slot.leaveOne, kv)
  else if !env.ctxShift ∧ slot.nCtx ≤ slot.nPromptTokens then
    .error (.rejected ("the request exceeds the available context size. " ++
      "try increasing the context size or enable context shift"))
  else do
    let slot ← slot.clampKeep.truncatePrompt env.mctx
    let (slot, kv) ← slot.reuseCache env kv
    .ok (slot.leaveOne, kv)

end LamaServer
