import LamaServer.Generation

/-!
# Decoding with and without a draft

A slot that generates decodes its last token and samples the next one. With a draft model it then
decodes a whole draft at once and takes as many of its tokens as the sampler chooses itself. The
target model with its sampler is a function of the tokens generated so far, and so is what the
draft model proposes; the KV cache and the sampler's state follow from these tokens.
-/

namespace LamaServer

/-- The models, the clock and the parameters of the server that decoding reads. -/
structure DecodeEnv extends GenConfig where
  /-- the sampler's choice after the tokens generated so far -/
  next : List Token → Token
  /-- `common_speculative_gen_draft` -/
  draft : List Token → List Token
  /-- the time limit has passed when that many tokens are generated -/
  late : Nat → Bool
  /-- `params_base.ctx_shift` -/
  ctxShift : Bool
  /-- `add_bos_token` -/
  addBosToken : Int
  /-- `ctx_dft != nullptr` -/
  hasDraft : Bool

/-- A slot and the tokens it has processed. -/
structure Generation where
  slot : GenSlot
  tokens : List Token := []
  deriving DecidableEq, Repr

/-- A generation that goes on, got its final response, or ended in an error. -/
inductive Status where
  | running (g : Generation)
  | done (g : Generation)
  | failed (g : Generation)
  deriving DecidableEq, Repr

def Status.isRunning : Status → Bool
  | .running _ => true
  | _ => false

def Status.generation : Status → Generation
  | .running g => g
  | .done g => g
  | .failed g => g

def Status.bind (st : Status) (f : Generation → Status) : Status :=
  match st with
  | .running g => f g
  | st => st

/-- `server_slot::can_speculate`. -/
def GenSlot.canSpeculate (env : DecodeEnv) (slot : GenSlot) : Bool :=
  env.hasDraft ∧ 0 < slot.params.speculativeNMax ∧ slot.params.cachePrompt

/-- The context shift of `update_slots`, which fails if it is disabled. -/
def GenSlot.shiftContext (env : DecodeEnv) (slot : GenSlot) : Option GenSlot :=
  if slot.nCtx ≤ slot.nPast + 1 then
    if env.ctxShift then
      let nKeep := slot.params.nKeep + env.addBosToken
      let nLeft := slot.nPast - nKeep
      let nDiscard := if slot.params.nDiscard ≠ 0 then slot.params.nDiscard else nLeft.tdiv 2
      some { slot with nPast := slot.nPast - nDiscard, truncated := true }
    else none
  else some slot

/-- `common_sampler_sample_and_accept_n`. -/
def sampleAndAcceptN (next : List Token → Token) (tokens : List Token) :
    List Token → List Token
  | [] => [next tokens]
  | d :: draft =>
    let id := next tokens
    if d ≠ id then [id] else id :: sampleAndAcceptN next (tokens ++ [id]) draft

namespace Generation

variable (env : DecodeEnv)

/-- `process_token`. -/
def process (g : Generation) (tok : Token) : Generation where
  slot := (processToken env.toGenConfig false (env.late g.tokens.length) g.slot tok).1
  tokens := g.tokens ++ [tok]

/-- The slot is released when it has no next token. -/
def status (g : Generation) : Status := if g.slot.hasNextToken then .running g else .done g

/-- A token is sampled and processed. -/
def sample (g : Generation) : Status :=
  (({ g with slot := { g.slot with nDecoded := g.slot.nDecoded + 1 } } : Generation).process env
    (env.next g.tokens)).status

/-- The next `update_slots` decodes the last token and samples another. -/
def step (g : Generation) : Status :=
  match g.slot.shiftContext env with
  | none => .failed g
  | some slot =>
    ({ g with slot := { slot with nPast := slot.nPast + 1 } } : Generation).sample env

/-- The tokens accepted from a draft are processed until one ends generation. -/
def processAll (g : Generation) : List Token → Status
  | [] => .running g
  | id :: ids => (g.process env id).status.bind fun g => processAll g ids

/-- The most tokens a draft may have. -/
def nDraftMax (g : Generation) : Int :=
  let n := min g.slot.params.speculativeNMax (g.slot.nCtx - g.slot.nPast - 2)
  if 0 < g.slot.nRemaining then min n (g.slot.nRemaining - 1) else n

/-- The tokens accepted in the speculative step, if there is one. -/
def accepted (g : Generation) : List Token :=
  if g.slot.canSpeculate env ∧ g.slot.params.speculativeNMin ≤ g.nDraftMax ∧
      g.slot.params.speculativeNMin ≤ (env.draft g.tokens).length then
    sampleAndAcceptN env.next g.tokens (env.draft g.tokens)
  else []

/-- The speculative decoding of `update_slots`. -/
def speculate (g : Generation) : Status :=
  let ids := g.accepted env
  ({ g with slot := { g.slot with
      nPast := g.slot.nPast + ids.length
      nDecoded := g.slot.nDecoded + ids.length } } : Generation).processAll env ids

/-- One iteration without a draft model. -/
def plainStep (st : Status) : Status := st.bind (step env)

/-- The generation without a draft model, `n` iterations after its first token. -/
def plainAt (g : Generation) (n : Nat) : Status := (plainStep env)^[n] (g.sample env)

/-- One iteration with a draft model: what an iteration without one does, then speculation. -/
def specStep (st : Status) : Status := (plainStep env st).bind (speculate env)

/-- The generation with a draft model, `n` iterations after its first. -/
def specAt (g : Generation) (n : Nat) : Status :=
  (specStep env)^[n] ((g.sample env).bind (speculate env))

/-- The generation with a draft model before the speculation of its `n`th iteration. -/
def beforeSpec (g : Generation) : Nat → Status
  | 0 => g.sample env
  | n + 1 => plainStep env (specAt env g n)

/-- The prompt has been processed. -/
def start (slot : GenSlot) : Generation where
  slot := { slot with nDecoded := 0 }

end Generation

/-- What a generation ends with. -/
structure Outcome where
  tokens : List Token
  generatedText : Text
  stop : StopType
  nDecoded : Int
  error : Bool
  deriving DecidableEq, Repr

def Generation.outcome (g : Generation) (error : Bool) : Outcome where
  tokens := g.tokens
  generatedText := g.slot.generatedText
  stop := g.slot.stop
  nDecoded := g.slot.nDecoded
  error := error

def Status.outcome : Status → Option Outcome
  | .running _ => none
  | .done g => some (g.outcome false)
  | .failed g => some (g.outcome true)

/-- With and without a draft model the same tokens and the same text are generated, with the same
counts on the way, and generation ends in the same way or not at all. -/
structure SameGeneration (env : DecodeEnv) (g : Generation) : Prop where
  onTheWay : ∀ n, ∃ k, (g.plainAt env k).generation.outcome false =
    (g.specAt env n).generation.outcome false
  atTheEnd : ∀ o, (∃ n, (g.specAt env n).outcome = some o) ↔
    ∃ k, (g.plainAt env k).outcome = some o

/-- Speculative decoding agrees with plain decoding. -/
def SpeculationLaw : Prop :=
  ∀ (env : DecodeEnv) (slot : GenSlot), 0 ≤ slot.params.speculativeNMin →
    SameGeneration env (.start slot)

/-- The counters are below their limits. -/
def GenSlot.Room (cfg : GenConfig) (slot : GenSlot) : Prop :=
  (slot.hasBudget cfg).2 = true ∧ slot.nPast < slot.nCtx ∧
    ¬ (slot.params.nPredict < 1 ∧ slot.nPredict < 1 ∧
      cfg.nCtxTrain ≤ slot.nPromptTokens + slot.nDecoded)

/-- A speculative step that accepts no token of the draft, or one after whose whole run the
counters are below their limits and of whose run only the last token may end generation. -/
def Generation.Smooth (env : DecodeEnv) (g : Generation) : Prop :=
  let n := (g.accepted env).length
  n ≤ 1 ∨
    ({ g.slot with nPast := g.slot.nPast + n, nDecoded := g.slot.nDecoded + n } : GenSlot).Room
      env.toGenConfig ∧
    ((plainStep env)^[n - 1] (.running g)).isRunning = true

end LamaServer
