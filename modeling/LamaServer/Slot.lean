import Mathlib.Data.Rat.Defs
import Mathlib.Data.List.FinRange

/-!
# Tasks and slots

`Task` and `Slot` are the fields of `server_task` and `server_slot` that queueing, launching and
cache reuse read or write; the generated text, the sampler's state and the statistics are left
out. What the code asks of the model, whether a token is in the vocabulary and whether the
grammar of a request parses, and the float comparison of the prompt similarity, are fields of
`Config`.
-/

namespace LamaServer

/-- `llama_token`. -/
abbrev Token := Int

/-- `server_task_type`. -/
inductive TaskType where
  | completion | embedding | rerank | infill | cancel | nextResponse | metrics
  | slotSave | slotRestore | slotErase | setLora
  deriving DecidableEq, Repr

/-- `slot_state`. -/
inductive SlotState where
  | idle | started | processingPrompt | donePrompt | generating
  deriving DecidableEq, Repr

/-- `common_adapter_lora_info`: the adapter and its scale, which is what `are_lora_equal` reads. -/
structure LoraInfo where
  ptr : Nat
  scale : Rat
  deriving DecidableEq, Repr

/-- `slot_params`. -/
structure SlotParams where
  cachePrompt : Bool := true
  nKeep : Int := 0
  nDiscard : Int := 0
  nPredict : Int := -1
  lora : List LoraInfo := []
  grammar : String := ""
  speculativeNMin : Int := 0
  speculativeNMax : Int := 16
  deriving DecidableEq, Repr

/-- `server_task`. -/
structure Task where
  id : Int := -1
  type : TaskType
  idTarget : Int := -1
  params : SlotParams := {}
  promptTokens : List Token := []
  idSelectedSlot : Int := -1
  /-- `slot_action.slot_id` -/
  slotId : Int := 0
  deriving DecidableEq, Repr

/-- `server_slot`. -/
structure Slot where
  id : Nat
  idTask : Int := -1
  taskType : TaskType := .completion
  params : SlotParams := {}
  state : SlotState := .idle
  tLastUsed : Int := -1
  nCtx : Int := 0
  nPast : Int := 0
  nDecoded : Int := 0
  nRemaining : Int := -1
  iBatch : Int := -1
  nPredict : Int := -1
  nPromptTokens : Int := 0
  promptTokens : List Token := []
  lora : List LoraInfo := []
  cacheTokens : List Token := []
  truncated : Bool := false
  sampled : Token := 0
  deriving DecidableEq, Repr

/-- What the server is started with, and what its tasks ask of the model. -/
structure Config where
  /-- `params_base.n_parallel`; `init` reads `slots[0]`, so there is a slot. -/
  nParallel : Nat
  nParallel_pos : 0 < nParallel
  /-- `n_ctx / n_parallel` -/
  nCtxSlot : Int
  nPredict : Int
  /-- `mctx != nullptr` -/
  hasMtmd : Bool
  /-- `llama_vocab_n_tokens` -/
  nVocab : Int
  /-- `slot_prompt_similarity != 0.0f` -/
  useSimilarity : Bool
  /-- `(float) cur_lcs_len / size > slot_prompt_similarity` -/
  similar : Nat → Nat → Bool
  /-- `common_sampler_init` returns a sampler: the grammar parses -/
  samplerInit : String → Bool

/-- The task types a slot is launched for. -/
def TaskType.isInference : TaskType → Bool
  | .completion | .infill | .embedding | .rerank => true
  | _ => false

namespace Slot

/-- `server_slot::is_processing`. -/
def isProcessing (slot : Slot) : Bool := slot.state ≠ .idle

/-- `server_slot::is_non_causal`. -/
def isNonCausal (slot : Slot) : Bool := slot.taskType = .embedding ∨ slot.taskType = .rerank

/-- `server_slot::can_batch_with`. -/
def canBatchWith (slot other : Slot) : Bool :=
  slot.isNonCausal = other.isNonCausal ∧ slot.lora = other.lora

/-- `server_slot::reset`. -/
def reset (slot : Slot) : Slot :=
  { slot with
    nPromptTokens := 0
    truncated := false
    nPast := 0
    taskType := .completion }

/-- `server_slot::release` without the callback, which `Queue.popDeferredTask` models. -/
def release (slot : Slot) (now : Int) : Slot :=
  if slot.isProcessing then { slot with tLastUsed := now, state := .idle } else slot

end Slot

/-- `server_tokens::validate`, for text tokens. -/
def validate (cfg : Config) (tokens : List Token) : Bool :=
  tokens.all fun t => 0 ≤ t ∧ t < cfg.nVocab

/-- `server_tokens::get_common_prefix`, for text tokens. -/
def getCommonPrefix : List Token → List Token → Nat
  | a :: as, b :: bs => if a = b then getCommonPrefix as bs + 1 else 0
  | _, _ => 0

/-- The slot as `launch_slot_with_task` hands it the task, before the task is checked. -/
def Slot.assign (slot : Slot) (task : Task) : Slot :=
  let slot := { slot.reset with
    idTask := task.id
    taskType := task.type
    params := task.params
    promptTokens := task.promptTokens }
  -- if lora is changed, we cannot reuse cached tokens
  if slot.params.lora ≠ slot.lora then
    { slot with cacheTokens := [], lora := slot.params.lora }
  else slot

/-- `launch_slot_with_task`'s bound on a request's `n_predict`. -/
def Slot.limitPredict (slot : Slot) : Slot :=
  if 0 < slot.nPredict ∧ slot.nPredict < slot.params.nPredict then
    { slot with params := { slot.params with nPredict := slot.nPredict } }
  else slot

/-- `server_context::launch_slot_with_task`. -/
def launchSlotWithTask (cfg : Config) (slot : Slot) (task : Task) : Slot × Bool :=
  let slot := slot.assign task
  if ¬ validate cfg slot.promptTokens then (slot, false) else
  let slot := slot.limitPredict
  if ¬ cfg.samplerInit slot.params.grammar then (slot, false) else
  ({ slot with state := .started }, true)

/-- `server_context::get_slot_by_id`. -/
def getSlotById (slots : List Slot) (id : Int) : Option (Fin slots.length) :=
  (List.finRange slots.length).find? fun i => (slots.get i).id = id

/-- One slot of the first half of `server_context::get_available_slot`, which looks for the free
slot whose cached tokens share the longest similar prefix with the prompt. -/
def similarityStep (cfg : Config) (slots : List Slot) (task : Task)
    (ret : Option (Fin slots.length) × Nat) (i : Fin slots.length) :
    Option (Fin slots.length) × Nat :=
  let slot := slots.get i
  if slot.isProcessing then ret
  else if slot.cacheTokens = [] then ret
  else
    let curLcsLen := getCommonPrefix slot.cacheTokens task.promptTokens
    if ret.2 < curLcsLen ∧ cfg.similar curLcsLen slot.cacheTokens.length then
      (some i, curLcsLen)
    else ret

/-- One slot of the second half, which looks for the free slot used least recently. -/
def lruStep (slots : List Slot) (ret : Option (Fin slots.length) × Int) (i : Fin slots.length) :
    Option (Fin slots.length) × Int :=
  let slot := slots.get i
  if slot.isProcessing then ret
  else if slot.tLastUsed < ret.2 then (some i, slot.tLastUsed)
  else ret

def slotBySimilarity (cfg : Config) (slots : List Slot) (task : Task) :
    Option (Fin slots.length) :=
  ((List.finRange slots.length).foldl (similarityStep cfg slots task) (none, 0)).1

def slotByLru (now : Int) (slots : List Slot) : Option (Fin slots.length) :=
  ((List.finRange slots.length).foldl (lruStep slots) (none, now)).1

/-- `server_context::get_available_slot`. -/
def getAvailableSlot (cfg : Config) (now : Int) (slots : List Slot) (task : Task) :
    Option (Fin slots.length) :=
  if cfg.useSimilarity then
    (slotBySimilarity cfg slots task).orElse fun _ => slotByLru now slots
  else slotByLru now slots

/-- The slots `server_context::init` creates. -/
def initSlots (cfg : Config) : List Slot :=
  (List.range cfg.nParallel).map fun i =>
    { id := i, nCtx := cfg.nCtxSlot, nPredict := cfg.nPredict }

/-! ## Which slot a task gets -/

theorem slotBySimilarity_idle {cfg : Config} {slots : List Slot} {task : Task}
    {i : Fin slots.length} (h : slotBySimilarity cfg slots task = some i) :
    (slots.get i).isProcessing = false := by
  have key : ∀ (l : List (Fin slots.length)) (ret : Option (Fin slots.length) × Nat),
      (∀ j, ret.1 = some j → (slots.get j).isProcessing = false) →
      ∀ j, (l.foldl (similarityStep cfg slots task) ret).1 = some j →
        (slots.get j).isProcessing = false := by
    intro l
    induction l with
    | nil => exact fun ret hret => hret
    | cons k l ih =>
      intro ret hret
      refine ih _ fun j hj => ?_
      simp only [similarityStep] at hj
      split_ifs at hj with h1 h2 h3
      · exact hret j hj
      · exact hret j hj
      · simp only [Option.some.injEq] at hj
        subst hj
        simpa using h1
      · exact hret j hj
  exact key _ _ (by simp) i h

/-- The least recently used slot is free, and there is none only when every free slot was released
at this very moment. -/
theorem slotByLru_spec (now : Int) (slots : List Slot) :
    (∀ i, slotByLru now slots = some i → (slots.get i).isProcessing = false) ∧
    (slotByLru now slots = none →
      ∀ i, (slots.get i).isProcessing = false → now ≤ (slots.get i).tLastUsed) := by
  have key : ∀ (l : List (Fin slots.length)) (ret : Option (Fin slots.length) × Int),
      (∀ j, ret.1 = some j → (slots.get j).isProcessing = false) →
      (ret.1 = none → ret.2 = now) →
      (∀ j, (l.foldl (lruStep slots) ret).1 = some j → (slots.get j).isProcessing = false) ∧
        ((l.foldl (lruStep slots) ret).1 = none → ret.1 = none ∧
          ∀ i ∈ l, (slots.get i).isProcessing = false → now ≤ (slots.get i).tLastUsed) := by
    intro l
    induction l with
    | nil => exact fun ret hret _ => ⟨hret, fun h => ⟨h, by simp⟩⟩
    | cons k l ih =>
      intro ret hret hnow
      simp only [List.foldl_cons]
      by_cases hp : (slots.get k).isProcessing = true
      · have hk : lruStep slots ret k = ret := by simp only [lruStep, hp, if_true]
        obtain ⟨h1, h2⟩ := ih ret hret hnow
        rw [hk]
        refine ⟨h1, fun h => ⟨(h2 h).1, fun i hi hidle => ?_⟩⟩
        rcases List.mem_cons.1 hi with rfl | hi
        · rw [hp] at hidle
          exact absurd hidle (by simp)
        · exact (h2 h).2 i hi hidle
      by_cases ht : (slots.get k).tLastUsed < ret.2
      · have hk : lruStep slots ret k = (some k, (slots.get k).tLastUsed) := by
          simp only [lruStep, hp, ht, if_true, if_false, Bool.false_eq_true]
        rw [hk]
        obtain ⟨h1, h2⟩ := ih (some k, (slots.get k).tLastUsed)
          (fun j hj => by
            simp only [Option.some.injEq] at hj
            subst hj
            simpa using hp) (by simp)
        exact ⟨h1, fun h => absurd (h2 h).1 (by simp)⟩
      · have hk : lruStep slots ret k = ret := by
          simp only [lruStep, hp, ht, if_false, Bool.false_eq_true]
        obtain ⟨h1, h2⟩ := ih ret hret hnow
        rw [hk]
        refine ⟨h1, fun h => ⟨(h2 h).1, fun i hi hidle => ?_⟩⟩
        rcases List.mem_cons.1 hi with rfl | hi
        · have := hnow (h2 h).1
          omega
        · exact (h2 h).2 i hi hidle
  obtain ⟨h1, h2⟩ := key (List.finRange slots.length) (none, now) (by simp) (by simp)
  exact ⟨h1, fun h i => (h2 h).2 i (List.mem_finRange i)⟩

/-- The slot a task gets without asking for one is free. -/
theorem getAvailableSlot_idle {cfg : Config} {now : Int} {slots : List Slot} {task : Task}
    {i : Fin slots.length} (h : getAvailableSlot cfg now slots task = some i) :
    (slots.get i).isProcessing = false := by
  unfold getAvailableSlot at h
  split_ifs at h
  · rcases hs : slotBySimilarity cfg slots task with _ | j <;> rw [hs] at h
    · exact (slotByLru_spec now slots).1 i h
    · obtain rfl : j = i := by simpa using h
      exact slotBySimilarity_idle hs
  · exact (slotByLru_spec now slots).1 i h

/-! ## What a launch does -/

namespace Slot

@[simp] theorem assign_id (slot : Slot) (task : Task) : (slot.assign task).id = slot.id := by
  unfold assign
  dsimp only
  split_ifs <;> rfl

@[simp] theorem assign_idTask (slot : Slot) (task : Task) :
    (slot.assign task).idTask = task.id := by
  unfold assign
  dsimp only
  split_ifs <;> rfl

@[simp] theorem assign_state (slot : Slot) (task : Task) :
    (slot.assign task).state = slot.state := by
  unfold assign
  dsimp only
  split_ifs <;> rfl

@[simp] theorem assign_promptTokens (slot : Slot) (task : Task) :
    (slot.assign task).promptTokens = task.promptTokens := by
  unfold assign
  dsimp only
  split_ifs <;> rfl

@[simp] theorem assign_params (slot : Slot) (task : Task) :
    (slot.assign task).params = task.params := by
  unfold assign
  dsimp only
  split_ifs <;> rfl

@[simp] theorem limitPredict_id (slot : Slot) : slot.limitPredict.id = slot.id := by
  unfold limitPredict
  split_ifs <;> rfl

@[simp] theorem limitPredict_idTask (slot : Slot) :
    slot.limitPredict.idTask = slot.idTask := by
  unfold limitPredict
  split_ifs <;> rfl

@[simp] theorem limitPredict_state (slot : Slot) : slot.limitPredict.state = slot.state := by
  unfold limitPredict
  split_ifs <;> rfl

@[simp] theorem limitPredict_grammar (slot : Slot) :
    slot.limitPredict.params.grammar = slot.params.grammar := by
  unfold limitPredict
  split_ifs <;> rfl

end Slot

theorem launchSlotWithTask_idTask (cfg : Config) (slot : Slot) (task : Task) :
    (launchSlotWithTask cfg slot task).1.idTask = task.id := by
  unfold launchSlotWithTask
  dsimp only
  split_ifs <;> simp

/-- A launch that succeeds leaves the slot started, one that fails leaves its state as it was. -/
theorem launchSlotWithTask_state (cfg : Config) (slot : Slot) (task : Task) :
    (launchSlotWithTask cfg slot task).1.state =
      if (launchSlotWithTask cfg slot task).2 then .started else slot.state := by
  unfold launchSlotWithTask
  dsimp only
  split_ifs <;> simp_all

/-- A launch succeeds when the prompt's tokens are in the vocabulary and the grammar parses. -/
theorem launchSlotWithTask_ok (cfg : Config) (slot : Slot) (task : Task) :
    (launchSlotWithTask cfg slot task).2 = true ↔
      validate cfg task.promptTokens = true ∧ cfg.samplerInit task.params.grammar = true := by
  unfold launchSlotWithTask
  simp only [Slot.assign_promptTokens, Slot.limitPredict_grammar, Slot.assign_params]
  split_ifs with h1 h2 <;> simp_all

end LamaServer
