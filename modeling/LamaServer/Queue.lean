import LamaServer.Lib.Transition
import LamaServer.Slot

/-!
# The task queue and its threads

HTTP threads number tasks (`get_new_id`), post them, alone or as a vector, at either end, and
cancel what they posted; the one thread of `start_loop` takes tasks off the queue, processes them
and updates the slots. Every operation of `server_queue` holds the mutex, so it is one action, and
between two of them any thread may run: `step` is the system's next state under an action of any
of them. The slots belong to the loop's thread. What one `update_slots` does to them and to the
queue is a `NEXT_RESPONSE` post, then any number of slots that progress or are released, in any
order.
-/

namespace LamaServer

/-- `server_queue`. -/
structure Queue where
  id : Int := 0
  running : Bool := true
  queueTasks : List Task := []
  queueTasksDeferred : List Task := []
  deriving DecidableEq, Repr

namespace Queue

/-- `server_queue::cleanup_pending_task`. -/
def cleanupPendingTask (q : Queue) (idTarget : Int) : Queue :=
  { q with
    queueTasks := q.queueTasks.filter (·.idTarget ≠ idTarget)
    queueTasksDeferred := q.queueTasksDeferred.filter (·.idTarget ≠ idTarget) }

/-- The single-task `server_queue::post`, whose tasks are numbered already. -/
def post (q : Queue) (task : Task) (front : Bool) : Queue :=
  let q := if task.type = .cancel then q.cleanupPendingTask task.idTarget else q
  if front then { q with queueTasks := task :: q.queueTasks }
  else { q with queueTasks := q.queueTasks ++ [task] }

/-- The multi-task `server_queue::post`, which numbers the tasks that are not. -/
def postAll (q : Queue) (tasks : List Task) (front : Bool) : Queue :=
  tasks.foldl (fun q task =>
    if task.id = -1 then { q with id := q.id + 1 }.post { task with id := q.id } front
    else q.post task front) q

/-- `server_queue::defer`. -/
def defer (q : Queue) (task : Task) : Queue :=
  { q with queueTasksDeferred := q.queueTasksDeferred ++ [task] }

/-- `server_queue::pop_deferred_task`. -/
def popDeferredTask (q : Queue) : Queue :=
  match q.queueTasksDeferred with
  | [] => q
  | task :: rest => { q with queueTasks := q.queueTasks ++ [task], queueTasksDeferred := rest }

end Queue

/-- `server_slot::release` with its callback. -/
def releaseSlot (now : Int) (slots : List Slot) (q : Queue) (i : Fin slots.length) :
    List Slot × Queue :=
  if (slots.get i).isProcessing then
    (slots.set i ((slots.get i).release now), q.popDeferredTask)
  else (slots, q)

/-- A task aimed at one slot (`SLOT_SAVE`, `SLOT_RESTORE`, `SLOT_ERASE`): refused with multimodal
models and on a slot that does not exist, deferred while the slot is busy, else `act` on it. -/
def slotAction (cfg : Config) (slots : List Slot) (q : Queue) (task : Task)
    (act : Slot → Slot) : List Slot × Queue :=
  if cfg.hasMtmd then (slots, q) else
  match getSlotById slots task.slotId with
  | none => (slots, q)
  | some i =>
    if (slots.get i).isProcessing then (slots, q.defer task)
    else (slots.set i (act (slots.get i)), q)

/-- The slot `process_single_task` picks for a task that needs one. -/
def slotForTask (cfg : Config) (now : Int) (slots : List Slot) (task : Task) :
    Option (Fin slots.length) :=
  if task.idSelectedSlot ≠ -1 then getSlotById slots task.idSelectedSlot
  else getAvailableSlot cfg now slots task

/-- The slot `process_single_task` releases for a `CANCEL`. -/
def cancelledSlot (slots : List Slot) (task : Task) : Option (Fin slots.length) :=
  (List.finRange slots.length).find? fun i => (slots.get i).idTask = task.idTarget

/-- `server_context::process_single_task`; `loaded` are the tokens a `SLOT_RESTORE` reads, if it
can. -/
def processSingleTask (cfg : Config) (now : Int) (loaded : Option (List Token))
    (slots : List Slot) (q : Queue) (task : Task) : List Slot × Queue :=
  match task.type with
  | .completion | .infill | .embedding | .rerank =>
    match slotForTask cfg now slots task with
    | none => (slots, q.defer task)
    | some i =>
      if (slots.get i).isProcessing then (slots, q.defer task)
      else (slots.set i (launchSlotWithTask cfg (slots.get i) task).1, q)
  | .cancel =>
    match cancelledSlot slots task with
    | none => (slots, q)
    | some i => releaseSlot now slots q i
  | .slotSave => slotAction cfg slots q task id
  | .slotRestore => slotAction cfg slots q task fun slot =>
      { slot with cacheTokens := loaded.getD [] }
  | .slotErase => slotAction cfg slots q task fun slot => { slot with cacheTokens := [] }
  | .nextResponse | .metrics | .setLora => (slots, q)

/-- Where `start_loop` is. -/
inductive Loop where
  /-- about to take the next task off the queue -/
  | fetch
  /-- about to process the task it took -/
  | task (t : Task)
  /-- about to call `update_slots` -/
  | update
  /-- in `update_slots`, about to post the `NEXT_RESPONSE` it has numbered -/
  | posting (id : Int)
  /-- in the body of `update_slots` -/
  | slots
  /-- about to wait for new tasks -/
  | wait
  | stopped
  deriving DecidableEq, Repr

/-- The state all threads share, with the tasks the HTTP threads have numbered but not posted. -/
structure Server where
  queue : Queue
  slots : List Slot
  loop : Loop
  drafts : List Task
  /-- `ggml_time_us` -/
  now : Int
  deriving DecidableEq, Repr

inductive Action where
  /-- a handler numbers a task -/
  | newTask (t : Task)
  | post (t : Task) (front : Bool)
  /-- a handler posts the vector of the tasks numbered `ids` -/
  | postAll (ids : List Int) (front : Bool)
  /-- `server_context::cancel_tasks` -/
  | cancelTasks (ids : List Int)
  | terminate
  | tick (us : Nat)
  | fetch
  | process (loaded : Option (List Token))
  | update
  | postNext
  /-- a processing slot is changed by `update_slots` and stays processing -/
  | progress (i : Nat) (slot : Slot)
  /-- a processing slot is released by `update_slots` -/
  | release (i : Nat)
  | endUpdate
  | wake
  deriving DecidableEq, Repr

/-- `server_context::cancel_tasks`' task for one target. -/
def cancelTask (idTarget : Int) : Task := { type := .cancel, idTarget }

def step (cfg : Config) (s : Server) : Action → Option Server
  | .newTask t =>
    -- handlers build neither `CANCEL` (`cancel_tasks`) nor `NEXT_RESPONSE` (`update_slots`)
    if t.type ≠ .cancel ∧ t.type ≠ .nextResponse ∧ t.idTarget = -1 then
      some { s with
        queue := { s.queue with id := s.queue.id + 1 }
        drafts := s.drafts ++ [{ t with id := s.queue.id }] }
    else none
  | .post t front =>
    if t ∈ s.drafts then
      some { s with queue := s.queue.post t front, drafts := s.drafts.erase t }
    else none
  | .postAll ids front =>
    some { s with
      queue := s.queue.postAll (s.drafts.filter fun t => t.id ∈ ids) front
      drafts := s.drafts.filter fun t => t.id ∉ ids }
  | .cancelTasks ids =>
    -- a handler cancels tasks it has posted
    if ∀ i ∈ ids, 0 ≤ i ∧ i < s.queue.id ∧ ∀ t ∈ s.drafts, t.id ≠ i then
      some { s with queue := s.queue.postAll (ids.map cancelTask) true }
    else none
  | .terminate => some { s with queue := { s.queue with running := false } }
  | .tick us => some { s with now := s.now + us }
  | .fetch =>
    if s.loop ≠ .fetch then none
    else if s.queue.running = false then some { s with loop := .stopped }
    else match s.queue.queueTasks with
      | [] => some { s with loop := .update }
      | t :: rest => some { s with queue := { s.queue with queueTasks := rest }, loop := .task t }
  | .process loaded =>
    match s.loop with
    | .task t =>
      let r := processSingleTask cfg s.now loaded s.slots s.queue t
      some { s with slots := r.1, queue := r.2, loop := .fetch }
    | _ => none
  | .update =>
    if s.loop ≠ .update then none
    else if s.slots.all fun slot => !slot.isProcessing then some { s with loop := .wait }
    else some { s with
      queue := { s.queue with id := s.queue.id + 1 }
      loop := .posting s.queue.id }
  | .postNext =>
    match s.loop with
    | .posting id => some { s with
        queue := s.queue.post { id, type := .nextResponse } false
        loop := .slots }
    | _ => none
  | .progress i slot =>
    if h : i < s.slots.length then
      if s.loop = .slots ∧ (s.slots[i]).isProcessing ∧ slot.isProcessing ∧
          slot.id = (s.slots[i]).id ∧ slot.idTask = (s.slots[i]).idTask then
        some { s with slots := s.slots.set i slot }
      else none
    else none
  | .release i =>
    if h : i < s.slots.length then
      if s.loop = .slots ∧ (s.slots[i]).isProcessing then
        let r := releaseSlot s.now s.slots s.queue ⟨i, h⟩
        some { s with slots := r.1, queue := r.2 }
      else none
    else none
  | .endUpdate => if s.loop = .slots then some { s with loop := .wait } else none
  | .wake =>
    if s.loop ≠ .wait then none
    else if s.queue.running = false then some { s with loop := .stopped }
    else if s.queue.queueTasks = [] then none
    else some { s with loop := .fetch }

/-- The system before `start_loop`: HTTP threads may have numbered and posted tasks by then. -/
def initServer (cfg : Config) : Server :=
  { queue := {}, slots := initSlots cfg, loop := .fetch, drafts := [], now := 0 }

/-- The system's steps. -/
def Step (cfg : Config) (s : Server) (a : Action) (s' : Server) : Prop := step cfg s a = some s'

/-- The task of the given id is running on a slot. -/
def Server.Running (s : Server) (id : Int) : Prop :=
  ∃ slot ∈ s.slots, slot.isProcessing ∧ slot.idTask = id

/-- The loop is about to launch a slot with the task of the given id. -/
def Server.Launches (cfg : Config) (s : Server) (id : Int) : Prop :=
  ∃ t i, s.loop = .task t ∧ t.type.isInference ∧ t.id = id ∧
    slotForTask cfg s.now s.slots t = some i ∧ (s.slots.get i).isProcessing = false

/-- A task that a slot would be launched for waits in the main or the deferred queue. -/
def Queue.Waits (q : Queue) (id : Int) : Prop :=
  ∃ t ∈ q.queueTasks ++ q.queueTasksDeferred, t.type.isInference ∧ t.id = id

instance (s : Server) (id : Int) : Decidable (s.Running id) :=
  inferInstanceAs (Decidable (∃ slot ∈ s.slots, slot.isProcessing ∧ slot.idTask = id))

instance (q : Queue) (id : Int) : Decidable (q.Waits id) :=
  inferInstanceAs (Decidable (∃ t ∈ q.queueTasks ++ q.queueTasksDeferred,
    t.type.isInference ∧ t.id = id))

/-- A server with one slot, no prompt similarity and every grammar accepted. -/
def oneSlot : Config where
  nParallel := 1
  nParallel_pos := Nat.one_pos
  nCtxSlot := 512
  nPredict := -1
  hasMtmd := false
  nVocab := 32000
  useSimilarity := false
  similar := fun _ _ => false
  samplerInit := fun _ => true

end LamaServer
