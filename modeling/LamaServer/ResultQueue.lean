import Mathlib.Data.Finset.Basic
import Mathlib.Data.Int.Basic
import LamaServer.Lib.Transition

/-!
# The result queue and the handlers that wait on it

The HTTP thread of a request numbers its tasks, adds their ids to `waiting_task_ids` and posts
them; the thread of the slots sends results, which the queue keeps while somebody waits for their
id; the HTTP thread receives them, and when it is done it removes its ids. Each operation of
`server_response` holds the mutex, so it is one action of the system, and between two of them any
other thread may run. What the slots send, and when, is left open.
-/

namespace LamaServer

/-- The subclasses of `server_task_result`. -/
inductive ResultKind where
  | error
  | cmplPartial
  | cmplFinal
  | embd
  | rerank
  /-- metrics, slot files and adapters -/
  | other
  deriving DecidableEq, Repr

/-- `server_task_result`. -/
structure TaskResult where
  id : Int
  index : Int
  kind : ResultKind
  deriving DecidableEq, Repr

namespace TaskResult

def isError (res : TaskResult) : Bool := res.kind = .error

def isStop (res : TaskResult) : Bool := res.kind = .cmplFinal

end TaskResult

/-- `server_response`. -/
structure ServerResponse where
  waitingTaskIds : Finset Int := ∅
  queueResults : List TaskResult := []
  deriving DecidableEq

namespace ServerResponse

def addWaitingTaskId (q : ServerResponse) (idTask : Int) : ServerResponse :=
  { q with waitingTaskIds := insert idTask q.waitingTaskIds }

/-- `add_waiting_tasks`, of the tasks numbered `ids`. -/
def addWaitingTasks (q : ServerResponse) (ids : List Int) : ServerResponse :=
  { q with waitingTaskIds := q.waitingTaskIds ∪ ids.toFinset }

def removeWaitingTaskId (q : ServerResponse) (idTask : Int) : ServerResponse where
  waitingTaskIds := q.waitingTaskIds.erase idTask
  queueResults := q.queueResults.filter (·.id ≠ idTask)

def removeWaitingTaskIds (q : ServerResponse) (idTasks : List Int) : ServerResponse :=
  { q with waitingTaskIds := q.waitingTaskIds \ idTasks.toFinset }

/-- The result `recv` and `recv_with_timeout` return, if there is one of a task in `idTasks`, and
the queue without it. -/
def recv (q : ServerResponse) (idTasks : List Int) : Option (TaskResult × ServerResponse) :=
  (q.queueResults.find? (·.id ∈ idTasks)).map fun res =>
    (res, { q with queueResults := q.queueResults.eraseP (·.id ∈ idTasks) })

def send (q : ServerResponse) (result : TaskResult) : ServerResponse :=
  if result.id ∈ q.waitingTaskIds then { q with queueResults := q.queueResults ++ [result] }
  else q

end ServerResponse

/-- How a handler waits for the results of its tasks. -/
inductive Receive where
  /-- one task, `recv` -/
  | recv
  | multiResults
  | streamedResults
  | cmplResultsStream
  deriving DecidableEq, Repr

/-- How a handler removes the ids it waited for. -/
inductive Removal where
  | removeWaitingTaskId
  | removeWaitingTaskIds
  | none
  deriving DecidableEq, Repr

/-- Some tasks of a handler: it waits for the results of all of them, then removes their ids. -/
structure Stage where
  receive : Receive
  removal : Removal
  deriving DecidableEq, Repr

inductive Endpoint where
  /-- `handle_slots`, `handle_metrics`, `handle_slots_save`, `handle_slots_restore`,
  `handle_slots_erase` and `handle_lora_adapters_apply` -/
  | single
  /-- `handle_completions_impl` -/
  | completions (stream : Bool)
  /-- `handle_completions_impl_with_rag` -/
  | completionsWithRag (useReranking stream : Bool)
  /-- `handle_embeddings_impl` and the ingestion handler -/
  | embeddings
  /-- the handler that chunks documents -/
  | chunking
  | rerank
  deriving DecidableEq, Repr

def completionStage (stream : Bool) : Stage where
  receive := if stream then .cmplResultsStream else .multiResults
  removal := .removeWaitingTaskIds

def Endpoint.stages : Endpoint → List Stage
  | .single => [⟨.recv, .removeWaitingTaskId⟩]
  | .completions stream => [completionStage stream]
  | .completionsWithRag useReranking stream =>
    ⟨.multiResults, .removeWaitingTaskIds⟩ ::
      (if useReranking then [⟨.multiResults, .none⟩] else []) ++ [completionStage stream]
  | .embeddings => [⟨.multiResults, .removeWaitingTaskIds⟩]
  | .chunking => [⟨.streamedResults, .removeWaitingTaskIds⟩]
  | .rerank => [⟨.multiResults, .none⟩]

/-- Where a handler is with the tasks of its stage. -/
inductive Phase where
  /-- numbering tasks -/
  | creating (ids : List Int)
  /-- waiting; `n` results are counted so far -/
  | receiving (ids : List Int) (n : Nat)
  /-- in `cancel_tasks`, with the ids in `todo` still to be removed -/
  | cancelling (ids todo : List Int)
  /-- about to remove the ids, after `cancel_tasks` or without it -/
  | leaving (ids : List Int) (cancelled : Bool)
  /-- done with the stage -/
  | done
  | returned
  deriving DecidableEq, Repr

structure Handler where
  /-- the stages to go, the one it is in first -/
  stages : List Stage
  phase : Phase := .creating []
  /-- all ids it has got -/
  taskIds : List Int := []
  deriving DecidableEq, Repr

inductive HandlerAction where
  /-- `get_new_id` -/
  | newId
  /-- `add_waiting_task_id` or `add_waiting_tasks` -/
  | addWaiting
  /-- a result is taken; then `is_connection_closed` and the result's handler answer -/
  | recv (closed ok : Bool)
  /-- `recv_with_timeout` returns no result -/
  | timeout (closed : Bool)
  /-- the response is destroyed before its content provider ran -/
  | drop
  /-- `cancel_tasks` removes one id, or posts the `CANCEL`s when none is left -/
  | cancel
  | remove
  /-- on to the next stage -/
  | next
  /-- an error or an exception between the stages or while tasks are made -/
  | quit
  deriving DecidableEq, Repr

/-- All tasks are counted, or the loop goes on. -/
def Phase.counted (ids : List Int) (n : Nat) : Phase :=
  if n = ids.length then .leaving ids false else .receiving ids n

/-- What `receive_multi_results`, `receive_streamed_results` and `receive_cmpl_results_stream` do
with a result, if none of their assertions fails. -/
def Receive.receive (ids : List Int) (n : Nat) (closed ok : Bool) (res : TaskResult) :
    Receive → Option Phase
  | .recv => some (.leaving ids false)
  | .multiResults =>
    if closed ∨ res.isError then some (.cancelling ids ids)
    else if res.kind ∈ [.cmplFinal, .embd, .rerank] ∧ 0 ≤ res.index ∧ res.index < ids.length then
      some (.counted ids (n + 1))
    else none
  | .streamedResults =>
    if closed ∨ res.isError then some (.cancelling ids ids)
    else if res.kind ∈ [.cmplFinal, .embd, .rerank] then some (.counted ids (n + 1))
    else none
  | .cmplResultsStream =>
    if closed ∨ res.isError then some (.cancelling ids ids)
    else if res.kind ∈ [.cmplPartial, .cmplFinal] then
      if !ok then some (.cancelling ids ids)
      else if res.isStop then some (.counted ids (n + 1))
      else some (.receiving ids n)
    else none

def Removal.remove (q : ServerResponse) (ids : List Int) : Removal → ServerResponse
  | .removeWaitingTaskId => ids.foldl ServerResponse.removeWaitingTaskId q
  | .removeWaitingTaskIds => q.removeWaitingTaskIds ids
  | .none => q

/-- A handler, the result queue and the next task id after an action of the handler. -/
def Handler.step (h : Handler) (q : ServerResponse) (nextId : Int) :
    HandlerAction → Option (Handler × ServerResponse × Int)
  | .newId =>
    match h.phase with
    | .creating ids =>
      some ({ h with phase := .creating (ids ++ [nextId]), taskIds := h.taskIds ++ [nextId] }, q,
        nextId + 1)
    | _ => none
  | .addWaiting =>
    match h.phase, h.stages with
    | .creating ids, stage :: _ =>
      match stage.receive with
      | .recv =>
        match ids with
        | [id] => some ({ h with phase := .receiving ids 0 }, q.addWaitingTaskId id, nextId)
        | _ => none
      | .cmplResultsStream =>
        some ({ h with phase := .receiving ids 0 }, q.addWaitingTasks ids, nextId)
      | _ => some ({ h with phase := .counted ids 0 }, q.addWaitingTasks ids, nextId)
    | _, _ => none
  | .recv closed ok =>
    match h.phase, h.stages with
    | .receiving ids n, stage :: _ =>
      (q.recv ids).bind fun r =>
        (stage.receive.receive ids n closed ok r.1).map fun p =>
          ({ h with phase := p }, r.2, nextId)
    | _, _ => none
  | .timeout closed =>
    match h.phase, h.stages with
    | .receiving ids _, stage :: _ =>
      if stage.receive = .recv then none
      else if closed then some ({ h with phase := .cancelling ids ids }, q, nextId)
      else some (h, q, nextId)
    | _, _ => none
  | .drop =>
    match h.phase, h.stages with
    | .receiving ids _, stage :: _ =>
      if stage.receive = .cmplResultsStream then
        some ({ h with phase := .leaving ids false }, q, nextId)
      else none
    | _, _ => none
  | .cancel =>
    match h.phase with
    | .cancelling ids (id :: todo) =>
      some ({ h with phase := .cancelling ids todo }, q.removeWaitingTaskId id, nextId)
    | .cancelling ids [] => some ({ h with phase := .leaving ids true }, q, nextId)
    | _ => none
  | .remove =>
    match h.phase, h.stages with
    | .leaving ids _, stage :: _ =>
      some ({ h with phase := .done }, stage.removal.remove q ids, nextId)
    | _, _ => none
  | .next =>
    match h.phase, h.stages with
    | .done, _ :: stage :: rest =>
      some ({ h with stages := stage :: rest, phase := .creating [] }, q, nextId)
    | .done, [_] => some ({ h with phase := .returned }, q, nextId)
    | _, _ => none
  | .quit =>
    match h.phase with
    | .creating _ | .done => some ({ h with phase := .returned }, q, nextId)
    | _ => none

/-- The result queue with everybody who uses it. -/
structure ResultSystem where
  nextId : Int := 0
  results : ServerResponse := {}
  handlers : List Handler := []
  deriving DecidableEq

inductive ResultAction where
  /-- a request comes in -/
  | request (endpoint : Endpoint)
  /-- the thread of the slots sends a result -/
  | send (result : TaskResult)
  /-- the thread of a request takes a step -/
  | handler (i : Nat) (a : HandlerAction)
  deriving DecidableEq, Repr

namespace ResultSystem

def step (s : ResultSystem) : ResultAction → Option ResultSystem
  | .request endpoint => some { s with handlers := s.handlers ++ [{ stages := endpoint.stages }] }
  | .send result => some { s with results := s.results.send result }
  | .handler i a =>
    s.handlers[i]?.bind fun h => (h.step s.results s.nextId a).map fun r =>
      { nextId := r.2.2, results := r.2.1, handlers := s.handlers.set i r.1 }

/-- The states of the result queue and the handlers, in any interleaving. -/
def Reached : ResultSystem → Prop :=
  Transition.Reachable (· = {}) fun s a s' => s.step a = some s'

/-- The queue holds nothing of the handler's tasks. -/
def LeftClean (s : ResultSystem) (h : Handler) : Prop :=
  ∀ id ∈ h.taskIds, id ∉ s.results.waitingTaskIds ∧ ∀ res ∈ s.results.queueResults, res.id ≠ id

end ResultSystem

/-- Removing its ids now would leave something of the handler's tasks in the queue: it did not
cancel its tasks and does not remove their ids, or a result came after the last one it took and
`remove_waiting_task_ids` does not drop it. -/
def Handler.leavesBehind (h : Handler) (q : ServerResponse) : Bool :=
  match h.phase, h.stages with
  | .leaving ids cancelled, stage :: _ =>
    match stage.removal with
    | .removeWaitingTaskId => false
    | .removeWaitingTaskIds => q.queueResults.any (·.id ∈ ids)
    | .none => !cancelled && !ids.isEmpty
  | _, _ => false

/-- No handler finishes a stage with something left behind. -/
def ResultAction.tidy (s : ResultSystem) : ResultAction → Bool
  | .handler i .remove => s.handlers[i]?.all fun h => !h.leavesBehind s.results
  | _ => true

end LamaServer
