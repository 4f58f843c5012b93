import LamaServer.Proofs.Queue
import Mathlib.Data.Fintype.Basic

/-!
# Deferred tasks

A deferred task goes back to the main queue when a slot is released, one task for each release.
The task that goes back may take no slot: its launch fails, or it only saves, restores or erases a
slot. If no other task takes one, the loop waits with tasks deferred and no slot left to be
released. `KeepsServing` excludes that: a release that leaves no slot busy leaves a task that a
slot can be launched for in the main queue, or leaves none deferred; and nothing is deferred while
every slot is free.
-/

namespace LamaServer

/-- A slot that is launched with the task starts it. -/
def Task.Launchable (cfg : Config) (t : Task) : Prop :=
  t.type.isInference = true ∧ validate cfg t.promptTokens = true ∧
    cfg.samplerInit t.params.grammar = true

instance (cfg : Config) (t : Task) : Decidable (t.Launchable cfg) :=
  inferInstanceAs (Decidable (_ ∧ _))

namespace Server

def Busy (s : Server) : Prop := ∃ slot ∈ s.slots, slot.isProcessing = true

/-- Releasing slot `i` leaves another busy, none deferred, or a task to launch in the main queue
with the one that goes back to it. -/
def ReleaseOk (cfg : Config) (s : Server) (i : Fin s.slots.length) : Prop :=
  (∃ j, j ≠ i ∧ (s.slots.get j).isProcessing = true) ∨
    s.queue.queueTasksDeferred.length ≤ 1 ∨
    ∃ t ∈ s.queue.queueTasks ++ s.queue.queueTasksDeferred.take 1, t.Launchable cfg

/-- Processing `t` defers it only while a slot is busy, and a slot it cancels may be released. -/
def ProcessOk (cfg : Config) (s : Server) (t : Task) : Prop :=
  (t.type.isInference = true → s.Busy ∨ slotForTask cfg s.now s.slots t ≠ none) ∧
    (t.type = .cancel → ∀ i, cancelledSlot s.slots t = some i →
      (s.slots.get i).isProcessing = true → s.ReleaseOk cfg i)

/-- The steps that strand no deferred task. -/
def KeepsServing (cfg : Config) (s : Server) : Action → Prop
  | .process _ => ∀ t ∈ s.loop.tasks, s.ProcessOk cfg t
  | .release i => ∀ h : i < s.slots.length, s.ReleaseOk cfg ⟨i, h⟩
  | _ => True

instance (s : Server) : Decidable s.Busy :=
  inferInstanceAs (Decidable (∃ slot ∈ s.slots, slot.isProcessing = true))

instance (cfg : Config) (s : Server) (i : Fin s.slots.length) :
    Decidable (s.ReleaseOk cfg i) :=
  inferInstanceAs (Decidable (_ ∨ _ ∨ ∃ t ∈ s.queue.queueTasks ++
    s.queue.queueTasksDeferred.take 1, t.Launchable cfg))

instance (cfg : Config) (s : Server) (t : Task) : Decidable (s.ProcessOk cfg t) :=
  inferInstanceAs (Decidable ((_ → _) ∧ _))

instance (cfg : Config) (s : Server) : (a : Action) → Decidable (s.KeepsServing cfg a)
  | .process _ => inferInstanceAs (Decidable (∀ t ∈ s.loop.tasks, s.ProcessOk cfg t))
  | .release i => inferInstanceAs (Decidable (∀ h : i < s.slots.length, s.ReleaseOk cfg ⟨i, h⟩))
  | .newTask _ | .post _ _ | .postAll _ _ | .cancelTasks _ | .terminate | .tick _ | .fetch
  | .update | .postNext | .progress _ _ | .endUpdate | .wake => isTrue trivial

/-- The loop is about to wait for new tasks. -/
def AboutToBlock (s : Server) : Prop :=
  s.loop = .wait ∧ s.queue.running = true ∧ s.queue.queueTasks = []

/-- Where tasks are deferred, a slot is busy or a task that one can be launched for is coming. -/
structure Serving (cfg : Config) (s : Server) : Prop where
  serving : s.queue.queueTasksDeferred = [] ∨ s.Busy ∨
    ∃ t ∈ s.queue.queueTasks ++ s.loop.tasks, t.Launchable cfg
  targets : ∀ t ∈ s.tasks, t.type.isInference = true → t.idTarget = -1
  drafts : ∀ t ∈ s.drafts, t.type ≠ .cancel

end Server

/-! ## What posts keep -/

namespace Queue

/-- A post that cancels no task without a target keeps those tasks in the queue. -/
theorem post_keeps (q : Queue) (task : Task) (front : Bool)
    (h : task.type = .cancel → task.idTarget ≠ -1) :
    (q.queueTasksDeferred = [] → (q.post task front).queueTasksDeferred = []) ∧
      ∀ t ∈ q.queueTasks, t.idTarget = -1 → t ∈ (q.post task front).queueTasks := by
  have hclean : ∀ t ∈ q.queueTasks, t.idTarget = -1 →
      task.type = .cancel → t ∈ (q.cleanupPendingTask task.idTarget).queueTasks := by
    intro t ht hid hc
    have := h hc
    simp only [cleanupPendingTask, List.mem_filter, decide_eq_true_eq]
    exact ⟨ht, by omega⟩
  have hdef : q.queueTasksDeferred = [] →
      (q.cleanupPendingTask task.idTarget).queueTasksDeferred = [] := by
    intro hd
    simp only [cleanupPendingTask, hd, List.filter_nil]
  unfold post
  split_ifs with hc hf hf
  · exact ⟨hdef, fun t ht hid => List.mem_cons_of_mem _ (hclean t ht hid hc)⟩
  · exact ⟨hdef, fun t ht hid => List.mem_append_left _ (hclean t ht hid hc)⟩
  · exact ⟨fun hd => hd, fun t ht _ => List.mem_cons_of_mem _ ht⟩
  · exact ⟨fun hd => hd, fun t ht _ => List.mem_append_left _ ht⟩

theorem postOne_keeps (q : Queue) (task : Task) (front : Bool)
    (h : task.type = .cancel → task.idTarget ≠ -1) :
    (q.queueTasksDeferred = [] → (q.postOne task front).queueTasksDeferred = []) ∧
      ∀ t ∈ q.queueTasks, t.idTarget = -1 → t ∈ (q.postOne task front).queueTasks := by
  unfold postOne
  split_ifs
  · exact post_keeps { q with id := q.id + 1 } { task with id := q.id } front h
  · exact post_keeps q task front h

theorem postAll_keeps (front : Bool) :
    ∀ (tasks : List Task) (q : Queue),
      (∀ task ∈ tasks, task.type = .cancel → task.idTarget ≠ -1) →
      (q.queueTasksDeferred = [] → (q.postAll tasks front).queueTasksDeferred = []) ∧
        ∀ t ∈ q.queueTasks, t.idTarget = -1 → t ∈ (q.postAll tasks front).queueTasks
  | [], _, _ => ⟨fun hd => hd, fun _ ht _ => ht⟩
  | task :: tasks, q, h => by
    obtain ⟨h1, h2⟩ := postOne_keeps q task front (h task List.mem_cons_self)
    obtain ⟨h3, h4⟩ := postAll_keeps front tasks (q.postOne task front)
      fun t ht => h t (List.mem_cons_of_mem _ ht)
    exact ⟨fun hd => h3 (h1 hd), fun t ht hid => h4 t (h2 t ht hid) hid⟩

end Queue

/-! ## What steps keep -/

theorem get_mem_set_of_ne {slots : List Slot} {j k : Fin slots.length} (h : j ≠ k)
    (slot : Slot) : slots.get j ∈ slots.set k slot := by
  rw [List.mem_iff_getElem]
  refine ⟨j, by simp, ?_⟩
  rw [List.getElem_set_ne fun hk => h (Fin.ext hk.symm)]
  rfl

/-- Changing a free slot leaves the busy slots as they were. -/
theorem busy_set_of_idle {slots : List Slot} {k : Fin slots.length} {slot : Slot}
    (hidle : (slots.get k).isProcessing = false) (h : ∃ slot ∈ slots, slot.isProcessing = true) :
    ∃ slot' ∈ slots.set k slot, slot'.isProcessing = true := by
  obtain ⟨slot', hm, hp⟩ := h
  obtain ⟨j, rfl⟩ := List.get_of_mem hm
  refine ⟨slots.get j, get_mem_set_of_ne (fun hjk => ?_) slot, hp⟩
  rw [hjk, hidle] at hp
  exact absurd hp (by simp)

/-- Releasing a slot keeps the deferred tasks served, where `ReleaseOk` holds. -/
theorem releaseSlot_serving {cfg : Config} {s : Server} {i : Fin s.slots.length}
    (h : s.ReleaseOk cfg i) (hp : (s.slots.get i).isProcessing = true) :
    (releaseSlot s.now s.slots s.queue i).2.queueTasksDeferred = [] ∨
      (∃ slot ∈ (releaseSlot s.now s.slots s.queue i).1, slot.isProcessing = true) ∨
      ∃ t ∈ (releaseSlot s.now s.slots s.queue i).2.queueTasks, t.Launchable cfg := by
  rcases releaseSlot_eq s.now s.slots s.queue i with ⟨-, heq⟩ | ⟨hp', -⟩
  · rw [heq]
    rcases h with ⟨j, hj, hbusy⟩ | hlen | ⟨t, ht, hl⟩
    · exact .inr (.inl ⟨s.slots.get j, get_mem_set_of_ne hj _, hbusy⟩)
    · refine .inl ?_
      simp only [Queue.popDeferredTask]
      split
      · assumption
      · rename_i hd
        rw [hd, List.length_cons] at hlen
        exact List.length_eq_zero_iff.1 (by simpa using hlen)
    · refine .inr (.inr ⟨t, ?_, hl⟩)
      simp only [Queue.popDeferredTask]
      split
      · rename_i hd
        simpa [hd] using ht
      · rename_i hd
        simpa [hd] using ht
  · rw [hp] at hp'
    exact absurd hp' (by simp)

/-- What becomes of a task keeps the deferred tasks served. -/
theorem processed_serving {cfg : Config} {s : Server} {t : Task} {r : List Slot × Queue}
    {loaded : Option (List Token)} (hs : s.Serving cfg) (hloop : s.loop = .task t)
    (hok : s.KeepsServing cfg (.process loaded))
    (h : Processed cfg s.now s.slots s.queue t r) :
    r.2.queueTasksDeferred = [] ∨ (∃ slot ∈ r.1, slot.isProcessing = true) ∨
      ∃ t ∈ r.2.queueTasks, t.Launchable cfg := by
  have hserv := hs.serving
  have hok := hok t (by simp [hloop, Loop.tasks])
  simp only [hloop, Loop.tasks, List.mem_append, List.mem_singleton] at hserv
  -- a task that a slot could be launched for has to be the one that is processed to disappear
  have other : (t.Launchable cfg → False) → s.queue.queueTasksDeferred = [] ∨ s.Busy ∨
      ∃ t ∈ s.queue.queueTasks, t.Launchable cfg := by
    intro hno
    rcases hserv with hd | hb | ⟨t', ht' | rfl, hl⟩
    · exact .inl hd
    · exact .inr (.inl hb)
    · exact .inr (.inr ⟨t', ht', hl⟩)
    · exact (hno hl).elim
  cases h with
  | answered ht =>
    refine other fun hl => ?_
    rw [hl.1] at ht
    exact absurd ht (by simp)
  | deferred hc hbusy =>
    refine .inr (.inl ?_)
    rcases hbusy with hb | ⟨ht, hnone⟩
    · exact hb
    · exact (hok.1 ht).resolve_right fun h => h hnone
  | launched k ht hidle =>
    have hstate := launchSlotWithTask_state cfg (s.slots.get k) t
    rcases hlaunch : (launchSlotWithTask cfg (s.slots.get k) t).2 with _ | _
    · -- the launch fails, so the task was not launchable and the slot stays free
      have hno : t.Launchable cfg → False := fun hl => by
        rw [(launchSlotWithTask_ok cfg _ t).2 hl.2] at hlaunch
        exact absurd hlaunch (by simp)
      exact (other hno).imp_right (.imp_left (busy_set_of_idle hidle))
    · refine .inr (.inl ⟨_, List.mem_set k.isLt _, ?_⟩)
      rw [hlaunch, if_pos rfl] at hstate
      unfold Slot.isProcessing
      rw [hstate]
      rfl
  | released k hc hk =>
    rcases hp : (s.slots.get k).isProcessing with _ | _
    · rcases releaseSlot_eq s.now s.slots s.queue k with ⟨hp', -⟩ | ⟨-, heq⟩
      · rw [hp] at hp'
        exact absurd hp' (by simp)
      · rw [heq]
        refine other fun hl => ?_
        have hi := hl.1
        rw [hc] at hi
        exact absurd hi (by simp [TaskType.isInference])
    · exact releaseSlot_serving (hok.2 hc k hk hp) hp
  | acted k cache ht hidle =>
    have hno : t.Launchable cfg → False := fun hl => by
      rw [hl.1] at ht
      exact absurd ht (by simp)
    exact (other hno).imp_right (.imp_left (busy_set_of_idle hidle))

theorem step_targets {cfg : Config} {s s' : Server} {a : Action} (hs : s.Serving cfg)
    (h : Stepped cfg s a s') : ∀ t ∈ s'.tasks, t.type.isInference = true → t.idTarget = -1 := by
  intro t ht hinf
  rcases List.mem_append.1 ht with ht | ht
  · rcases step_drafts h ht with ht | ⟨-, -, -, htarget⟩
    · exact hs.targets t (List.mem_append_left _ ht) hinf
    · exact htarget
  · cases step_supplies h ht with
    | queued h => exact hs.targets t (List.mem_append_right _ h) hinf
    | drafted t' ht' heq =>
      have hd := hs.targets t' (List.mem_append_left _ ht')
      rcases heq with rfl | ⟨id, rfl⟩ <;> exact hd hinf
    | cancel i h heq =>
      rcases heq with rfl | ⟨id, rfl⟩ <;>
        exact absurd hinf (by simp [cancelTask, TaskType.isInference])
    | next id heq =>
      rw [heq] at hinf
      cases hinf

/-- A post keeps the deferred tasks served. -/
theorem serving_of_keeps {cfg : Config} {s : Server} {q : Queue} {l : List Task}
    (hs : s.Serving cfg) (hl : ∀ t ∈ s.loop.tasks, t.Launchable cfg → t ∈ l)
    (h : (s.queue.queueTasksDeferred = [] → q.queueTasksDeferred = []) ∧
      ∀ t ∈ s.queue.queueTasks, t.idTarget = -1 → t ∈ q.queueTasks) :
    q.queueTasksDeferred = [] ∨ s.Busy ∨ ∃ t ∈ q.queueTasks ++ l, t.Launchable cfg := by
  rcases hs.serving with hd | hb | ⟨t, ht, hlaunch⟩
  · exact .inl (h.1 hd)
  · exact .inr (.inl hb)
  · refine .inr (.inr ⟨t, ?_, hlaunch⟩)
    rcases List.mem_append.1 ht with ht | ht
    · refine List.mem_append_left _ (h.2 t ht ?_)
      refine hs.targets t ?_ hlaunch.1
      simp only [Server.tasks, Queue.tasks, List.mem_append]
      exact .inr (.inl (.inl ht))
    · exact List.mem_append_right _ (hl t ht hlaunch)

theorem step_serving {cfg : Config} {s s' : Server} {a : Action} (hs : s.Serving cfg)
    (hok : s.KeepsServing cfg a) (h : Stepped cfg s a s') : s'.Serving cfg := by
  refine ⟨?_, step_targets hs h, fun t ht => ?_⟩
  · unfold Server.Busy
    cases h with
    | moved hid hq hd hslots hdrafts hloop =>
      rw [hq, hd, hslots, hloop]
      exact hs.serving
    | newTask t hc htarget => exact hs.serving
    | post t front ht =>
      have h := Queue.post_keeps s.queue t front fun hc => absurd hc (hs.drafts t ht)
      have hserv := serving_of_keeps hs (fun _ ht _ => ht) h
      exact hserv
    | postAll ids front =>
      have h := Queue.postAll_keeps front (s.drafts.filter fun t => t.id ∈ ids) s.queue
        fun t ht hc => absurd hc (hs.drafts t (List.mem_of_mem_filter ht))
      have hserv := serving_of_keeps hs (fun _ ht _ => ht) h
      exact hserv
    | cancelTasks ids hids =>
      have h := Queue.postAll_keeps true (ids.map cancelTask) s.queue fun t ht _ => by
        obtain ⟨i, hi, rfl⟩ := List.mem_map.1 ht
        have := (hids i hi).1
        simp only [cancelTask]
        omega
      have hserv := serving_of_keeps hs (fun _ ht _ => ht) h
      exact hserv
    | fetch t rest hq hloop =>
      have hserv := hs.serving
      simpa [Server.Busy, hq, hloop, Loop.tasks, or_comm] using hserv
    | process loaded t hloop =>
      simpa only [Loop.tasks, List.append_nil] using processed_serving hs hloop hok
        (processSingleTask_processed cfg s.now loaded s.slots s.queue t)
    | update hloop =>
      simpa only [Server.Busy, hloop, Loop.tasks] using hs.serving
    | postNext id hloop =>
      have h := Queue.post_keeps s.queue { id, type := .nextResponse } false
        fun hc => absurd hc (by simp)
      have hserv := serving_of_keeps (l := []) hs (by simp [hloop, Loop.tasks]) h
      exact hserv
    | progress i slot hp hp' => exact .inr (.inl ⟨slot, List.mem_set i.isLt _, hp'⟩)
    | release i hp =>
      rcases releaseSlot_serving (hok i.isLt) hp with hd | hb | ⟨t, ht, hl⟩
      · exact .inl hd
      · exact .inr (.inl hb)
      · exact .inr (.inr ⟨t, List.mem_append_left _ ht, hl⟩)
  · rcases step_drafts h ht with ht | ⟨-, -, hc, -⟩
    · exact hs.drafts t ht
    · exact hc

theorem serving_initServer (cfg : Config) : (initServer cfg).Serving cfg where
  serving := .inl rfl
  targets t ht := absurd ht (by simp [initServer, Server.tasks, Queue.tasks, Loop.tasks])
  drafts t ht := absurd ht (by simp [initServer])

/-- In a run whose steps strand no deferred task, the loop waits only while no task is deferred or
a slot is busy. -/
theorem deferred_served {cfg : Config} {s : Server}
    (h : Transition.Reachable (· = initServer cfg)
      (Transition.Guarded (Server.KeepsServing cfg) (Step cfg)) s)
    (hb : s.AboutToBlock) :
    s.queue.queueTasksDeferred = [] ∨ ∃ slot ∈ s.slots, slot.isProcessing = true := by
  have hs : s.Serving cfg := h.invariant (I := fun s => s.Serving cfg)
    (fun _ h0 => h0 ▸ serving_initServer cfg)
    fun _ _ _ hs hstep => step_serving hs hstep.1 (step_stepped hstep.2)
  obtain ⟨hloop, -, hq⟩ := hb
  rcases hs.serving with hd | hbusy | ⟨t, ht, -⟩
  · exact .inl hd
  · exact .inr hbusy
  · rw [hq, hloop] at ht
    exact absurd ht (by simp [Loop.tasks])

/-- Whenever the loop is about to wait, no task is deferred or a slot is busy. -/
def NoneStranded (cfg : Config) : Prop :=
  ∀ s, Transition.Reachable (· = initServer cfg) (Step cfg) s → s.AboutToBlock →
    s.queue.queueTasksDeferred = [] ∨ ∃ slot ∈ s.slots, slot.isProcessing = true

section OneSlot

/-- A completion request of the token 1. -/
def validTask : Task := { type := .completion, promptTokens := [1] }

/-- A completion request of a token that is not in the vocabulary. -/
def invalidTask : Task := { type := .completion, promptTokens := [-1] }

/-- One request runs and one is deferred; each release is followed by a launch or leaves none. -/
def servesDeferred : List Action :=
  [.newTask validTask, .post { validTask with id := 0 } false,
    .newTask validTask, .post { validTask with id := 1 } false,
    .fetch, .process none, .fetch, .process none,
    .fetch, .update, .postNext, .release 0, .endUpdate, .tick 1,
    .wake, .fetch, .process none, .fetch, .process none,
    .fetch, .update, .postNext, .release 0, .endUpdate,
    .wake, .fetch, .process none, .fetch, .update]

theorem deferred_served_oneSlot : ∃ s,
    Transition.exec (step oneSlot) (initServer oneSlot) servesDeferred = some s ∧
      s.AboutToBlock ∧
      (s.queue.queueTasksDeferred = [] ∨ ∃ slot ∈ s.slots, slot.isProcessing = true) := by
  have hrun : ∃ s, Transition.exec (step oneSlot) (initServer oneSlot) servesDeferred = some s ∧
      s.AboutToBlock := ⟨_, rfl, rfl, rfl, rfl⟩
  have hok : Transition.exec
      (fun s a => if s.KeepsServing oneSlot a then step oneSlot s a else none)
      (initServer oneSlot) servesDeferred =
        Transition.exec (step oneSlot) (initServer oneSlot) servesDeferred := by decide
  obtain ⟨s, hs, hb⟩ := hrun
  have hs' := hok.trans hs
  exact ⟨s, hs, hb,
    deferred_served ⟨_, servesDeferred, rfl, Transition.guarded_run_of_exec hs'⟩ hb⟩

/-- An invalid request and a valid one are deferred; the release moves the invalid one back. -/
def strandsDeferred : List Action :=
  [.newTask validTask, .post { validTask with id := 0 } false,
    .newTask invalidTask, .post { invalidTask with id := 1 } false,
    .newTask validTask, .post { validTask with id := 2 } false,
    .fetch, .process none, .fetch, .process none, .fetch, .process none,
    .fetch, .update, .postNext, .release 0, .endUpdate, .tick 1,
    .wake, .fetch, .process none, .fetch, .process none, .fetch, .update]

/-- A valid request is stranded after an invalid one. -/
theorem not_noneStranded : ¬ NoneStranded oneSlot := by
  intro h
  have hrun : ∃ s, Transition.exec (step oneSlot) (initServer oneSlot) strandsDeferred = some s ∧
      s.AboutToBlock ∧ s.queue.queueTasksDeferred ≠ [] ∧ ∀ slot ∈ s.slots, ¬ slot.isProcessing :=
    ⟨_, rfl, ⟨rfl, rfl, rfl⟩, by decide, by decide⟩
  obtain ⟨s, hs, hb, hd, hidle⟩ := hrun
  rcases h s ⟨_, strandsDeferred, rfl, Transition.run_of_exec hs⟩ hb with h | ⟨slot, hm, hp⟩
  · exact hd h
  · exact hidle slot hm hp

end OneSlot

end LamaServer
