import LamaServer.Proofs.Queue

/-!
# Cancelling a task

A task is numbered once, so at any time it is a draft, waits in one of the queues, is in the loop's
hands or is the task a slot was last launched for, and only one of these (`Server.tally`). A
`CANCEL` that is processed releases the slot. It does not look in the queues, and the clean-up made
when it was posted looks for tasks with the same `id_target`, not for the target: a target that
still waits is launched later. Where the target does not wait any more, the cancel is final.
-/

namespace LamaServer

/-- Launching a slot with this task would run task `i`. -/
def Task.isFor (i : Int) (t : Task) : Bool := t.type.isInference && t.id = i

namespace Server

/-- How many times task `i` waits to be launched. -/
def pending (s : Server) (i : Int) : Nat := s.tasks.countP (Task.isFor i)

/-- How many times task `i` is anywhere. -/
def tally (s : Server) (i : Int) : Nat := s.pending i + s.slots.countP (·.idTask = i)

/-- Tasks are numbered once, and cancels are for tasks that were posted. -/
structure Numbered (s : Server) : Prop where
  id_nonneg : 0 ≤ s.queue.id
  tally_le : ∀ i, 0 ≤ i → s.tally i ≤ 1
  tally_new : ∀ i, s.queue.id ≤ i → s.tally i = 0
  drafts : ∀ t ∈ s.drafts, 0 ≤ t.id ∧ t.id < s.queue.id ∧ t.type ≠ .cancel
  cancels : ∀ c ∈ s.queue.tasks ++ s.loop.tasks, c.type = .cancel →
    0 ≤ c.idTarget ∧ c.idTarget < s.queue.id ∧ ∀ t ∈ s.drafts, t.id ≠ c.idTarget

/-- Task `i` was posted and is neither running nor waiting. -/
structure Finished (s : Server) (i : Int) : Prop where
  old : i < s.queue.id
  pending : s.pending i = 0
  not_running : ¬ s.Running i

end Server

theorem pending_eq (s : Server) (i : Int) : s.pending i = s.drafts.countP (Task.isFor i) +
    (s.queue.tasks.countP (Task.isFor i) + s.loop.tasks.countP (Task.isFor i)) := by
  simp only [Server.pending, Server.tasks, List.countP_append]

theorem isFor_cancelTask (i : Int) (ids : List Int) :
    (ids.map cancelTask).countP (Task.isFor i) = 0 := by
  rw [List.countP_eq_zero]
  intro t ht
  obtain ⟨id, -, rfl⟩ := List.mem_map.1 ht
  simp [Task.isFor, TaskType.isInference, cancelTask]

/-- Numbering a task that has no number yet does not change whether it is task `i`. -/
theorem isFor_numbered {i : Int} {t : Task} (h : t.id = -1 → t.type.isInference = false) :
    t.id = -1 → ∀ id, Task.isFor i { t with id } = Task.isFor i t := fun hid id => by
  simp [Task.isFor, h hid]

/-! ## What a step does to the places of a task -/

/-- Setting a slot to one of the same task leaves every task's count as it was. -/
theorem countP_set_idTask {slots : List Slot} (k : Fin slots.length) {slot : Slot}
    (h : slot.idTask = (slots.get k).idTask) (i : Int) :
    (slots.set k slot).countP (·.idTask = i) = slots.countP (·.idTask = i) := by
  have hk : slots.countP (·.idTask = i) = (slots.set k (slots.get k)).countP (·.idTask = i) := by
    rw [List.get_eq_getElem, List.set_getElem_self]
  rw [hk, List.countP_set k.isLt, List.countP_set k.isLt, h]

theorem countP_releaseSlot (now : Int) (slots : List Slot) (q : Queue) (k : Fin slots.length)
    (i : Int) : (releaseSlot now slots q k).1.countP (·.idTask = i) =
      slots.countP (·.idTask = i) := by
  rcases releaseSlot_eq now slots q k with ⟨-, h⟩ | ⟨-, h⟩ <;> rw [h]
  exact countP_set_idTask k (by rfl) i

/-- Processing a task moves it to the deferred queue or to a slot, if anywhere. -/
theorem processed_count {cfg : Config} {now : Int} {slots : List Slot} {q : Queue} {task : Task}
    {r : List Slot × Queue} (h : Processed cfg now slots q task r) (i : Int) :
    r.2.tasks.countP (Task.isFor i) ≤
        q.tasks.countP (Task.isFor i) + [task].countP (Task.isFor i) ∧
      r.2.tasks.countP (Task.isFor i) + r.1.countP (·.idTask = i) ≤
        q.tasks.countP (Task.isFor i) + [task].countP (Task.isFor i) +
          slots.countP (·.idTask = i) := by
  cases h with
  | answered =>
    dsimp only
    omega
  | deferred =>
    simp only [Queue.tasks_defer, List.countP_append]
    exact ⟨le_refl _, le_refl _⟩
  | launched k ht hidle =>
    dsimp only
    have hset := List.countP_set (p := fun slot => decide (slot.idTask = i))
      (a := (launchSlotWithTask cfg (slots.get k) task).1) k.isLt
    rw [launchSlotWithTask_idTask] at hset
    have htask : [task].countP (Task.isFor i) = if task.id = i then 1 else 0 := by
      simp [List.countP_singleton, Task.isFor, ht]
    simp only [decide_eq_true_eq] at hset
    omega
  | released k =>
    rw [(tasks_releaseSlot now slots q k).1, countP_releaseSlot]
    omega
  | acted k cache ht hidle =>
    rw [countP_set_idTask k (by rfl)]
    dsimp only
    omega

/-- A slot that runs task `i` after a step ran it before, or was launched with it. -/
theorem processed_running {cfg : Config} {now : Int} {slots : List Slot} {q : Queue} {task : Task}
    {r : List Slot × Queue} (h : Processed cfg now slots q task r) {i : Int} {slot : Slot}
    (hs : slot ∈ r.1) (hp : slot.isProcessing = true) (hi : slot.idTask = i) :
    Task.isFor i task = true ∨ ∃ slot ∈ slots, slot.isProcessing = true ∧ slot.idTask = i := by
  cases h with
  | answered => exact .inr ⟨slot, hs, hp, hi⟩
  | deferred => exact .inr ⟨slot, hs, hp, hi⟩
  | launched k ht hidle =>
    rcases List.mem_or_eq_of_mem_set hs with hs | rfl
    · exact .inr ⟨slot, hs, hp, hi⟩
    · rw [launchSlotWithTask_idTask] at hi
      exact .inl (by simp [Task.isFor, ht, hi])
  | released k =>
    rcases releaseSlot_eq now slots q k with ⟨-, h⟩ | ⟨-, h⟩ <;> rw [h] at hs
    · rcases List.mem_or_eq_of_mem_set hs with hs | rfl
      · exact .inr ⟨slot, hs, hp, hi⟩
      · simp [Slot.isProcessing] at hp
    · exact .inr ⟨slot, hs, hp, hi⟩
  | acted k cache ht hidle =>
    rcases List.mem_or_eq_of_mem_set hs with hs | rfl
    · exact .inr ⟨slot, hs, hp, hi⟩
    · exact .inr ⟨slots.get k, List.get_mem slots k, hp, hi⟩

theorem step_id_le {cfg : Config} {s s' : Server} {a : Action} (h : Stepped cfg s a s') :
    s.queue.id ≤ s'.queue.id := by
  cases h with
  | moved hid => exact hid.ge
  | newTask => exact Int.le_add_one (le_refl _)
  | post t front => exact (Queue.id_post s.queue t front).ge
  | postAll ids front => exact Queue.le_id_postAll front _ s.queue
  | cancelTasks ids => exact Queue.le_id_postAll true _ s.queue
  | fetch => exact le_refl _
  | process loaded t =>
    have h := processSingleTask_processed cfg s.now loaded s.slots s.queue t
    generalize processSingleTask cfg s.now loaded s.slots s.queue t = r at h
    cases h with
    | released k => exact (tasks_releaseSlot s.now s.slots s.queue k).2.ge
    | _ => exact le_refl _
  | update => exact Int.le_add_one (le_refl _)
  | postNext id => exact (Queue.id_post s.queue _ false).ge
  | progress => exact le_refl _
  | release i => exact (tasks_releaseSlot s.now s.slots s.queue i).2.ge

/-- A step adds a task only under the number it gives it. -/
theorem step_count {cfg : Config} {s s' : Server} {a : Action} (hn : s.Numbered)
    (h : Stepped cfg s a s') (i : Int) :
    s'.pending i ≤ s.pending i + (if s.queue.id ≤ i ∧ i < s'.queue.id then 1 else 0) ∧
      s'.tally i ≤ s.tally i + (if s.queue.id ≤ i ∧ i < s'.queue.id then 1 else 0) := by
  suffices hs : s'.pending i ≤ s.pending i + (if s.queue.id ≤ i ∧ i < s'.queue.id then 1 else 0) ∧
      s'.pending i + s'.slots.countP (·.idTask = i) ≤ s.pending i + s.slots.countP (·.idTask = i) +
        (if s.queue.id ≤ i ∧ i < s'.queue.id then 1 else 0) from hs
  simp only [pending_eq]
  cases h with
  | moved hid hq hd hslots hdrafts hloop =>
    simp only [Queue.tasks, hq, hd, hslots, hdrafts, hloop]
    omega
  | newTask t hc htarget =>
    have ht : [{ t with id := s.queue.id }].countP (Task.isFor i) ≤
        if s.queue.id ≤ i ∧ i < s.queue.id + 1 then 1 else 0 := by
      simp only [List.countP_singleton, Task.isFor, Bool.and_eq_true, decide_eq_true_eq]
      split_ifs <;> omega
    simp only [List.countP_append]
    change _ + (s.queue.tasks.countP _ + _) ≤ _ ∧ _ + (s.queue.tasks.countP _ + _) + _ ≤ _
    omega
  | post t front ht =>
    have h1 := Queue.countP_post_le (Task.isFor i) s.queue t front
    have h2 := (List.perm_cons_erase ht).countP_eq (Task.isFor i)
    rw [List.countP_cons] at h2
    rw [List.countP_singleton] at h1
    simp only [Queue.id_post]
    omega
  | postAll ids front =>
    have h1 := Queue.countP_postAll_le (p := Task.isFor i) front
      (s.drafts.filter fun t => t.id ∈ ids) s.queue fun t ht => isFor_numbered fun hid => by
        have := (hn.drafts t (List.mem_of_mem_filter ht)).1
        omega
    have h2 := List.countP_eq_countP_filter_add s.drafts (Task.isFor i) fun t => t.id ∈ ids
    simp only [← decide_not] at h2
    dsimp only
    omega
  | cancelTasks ids =>
    have h1 := Queue.countP_postAll_le (p := Task.isFor i) true (ids.map cancelTask) s.queue
      fun t ht => isFor_numbered fun _ => by
        obtain ⟨id, -, rfl⟩ := List.mem_map.1 ht
        rfl
    rw [isFor_cancelTask] at h1
    dsimp only
    omega
  | fetch t rest hq hloop =>
    simp only [hloop, Queue.tasks, hq, Loop.tasks, List.cons_append, List.countP_cons,
      List.countP_nil]
    omega
  | process loaded t hloop =>
    have h := processed_count (processSingleTask_processed cfg s.now loaded s.slots s.queue t) i
    simp only [hloop, Loop.tasks, List.countP_nil]
    omega
  | update hloop =>
    simp only [hloop, Loop.tasks]
    change _ + (s.queue.tasks.countP _ + _) ≤ _ ∧ _ + (s.queue.tasks.countP _ + _) + _ ≤ _
    omega
  | postNext id hloop =>
    have h1 := Queue.countP_post_le (Task.isFor i) s.queue { id, type := .nextResponse } false
    have h2 : [({ id, type := .nextResponse } : Task)].countP (Task.isFor i) = 0 := rfl
    simp only [hloop, Loop.tasks]
    omega
  | progress k slot hp hp' hid hidTask =>
    rw [countP_set_idTask k hidTask]
    dsimp only
    omega
  | release k hp =>
    rw [(tasks_releaseSlot s.now s.slots s.queue k).1, countP_releaseSlot]
    dsimp only
    omega

/-- A cancel comes from `cancelTasks`. -/
theorem step_cancels {cfg : Config} {s s' : Server} {a : Action} (hn : s.Numbered)
    (h : Stepped cfg s a s') {c : Task} (hm : c ∈ s'.queue.tasks ++ s'.loop.tasks)
    (hc : c.type = .cancel) :
    0 ≤ c.idTarget ∧ c.idTarget < s.queue.id ∧ ∀ t ∈ s.drafts, t.id ≠ c.idTarget := by
  cases step_supplies h hm with
  | queued h => exact hn.cancels c h hc
  | drafted t ht heq =>
    have hd := (hn.drafts t ht).2.2
    rcases heq with rfl | ⟨id, rfl⟩ <;> exact absurd hc hd
  | cancel i h heq => rcases heq with rfl | ⟨id, rfl⟩ <;> exact h
  | next id heq =>
    rw [heq] at hc
    cases hc

theorem numbered_initServer (cfg : Config) : (initServer cfg).Numbered where
  id_nonneg := le_refl _
  tally_le i hi := by
    have h : (initServer cfg).tally i = 0 := by
      simp only [Server.tally, Server.pending, Server.tasks, initServer, Queue.tasks, Loop.tasks,
        List.append_nil, List.countP_nil, Nat.zero_add, List.countP_eq_zero]
      intro slot hs
      obtain ⟨k, -, rfl⟩ := List.mem_map.1 hs
      simp only [decide_eq_true_eq]
      omega
    omega
  tally_new i hi := by
    simp only [Server.tally, Server.pending, Server.tasks, initServer, Queue.tasks, Loop.tasks,
      List.append_nil, List.countP_nil, Nat.zero_add, List.countP_eq_zero] at hi ⊢
    intro slot hs
    obtain ⟨k, -, rfl⟩ := List.mem_map.1 hs
    simp only [decide_eq_true_eq]
    omega
  drafts t ht := absurd ht (by simp [initServer])
  cancels c hc := absurd hc (by simp [initServer, Queue.tasks, Loop.tasks])

theorem step_numbered {cfg : Config} {s s' : Server} {a : Action} (hn : s.Numbered)
    (h : Stepped cfg s a s') : s'.Numbered := by
  have hid := step_id_le h
  have h0 := hn.id_nonneg
  refine ⟨by omega, fun i hi => ?_, fun i hi => ?_, fun t ht => ?_, fun c hm hc => ?_⟩
  · have h1 := (step_count hn h i).2
    have h2 := hn.tally_le i hi
    have h3 := hn.tally_new i
    split_ifs at h1 <;> omega
  · have h1 := (step_count hn h i).2
    have h3 := hn.tally_new i (by omega)
    rw [if_neg (by omega)] at h1
    omega
  · rcases step_drafts h ht with ht | ⟨h1, h2, h3, -⟩
    · have := hn.drafts t ht
      exact ⟨this.1, by omega, this.2.2⟩
    · exact ⟨by omega, by omega, h3⟩
  · obtain ⟨h1, h2, h3⟩ := step_cancels hn h hm hc
    refine ⟨h1, by omega, fun t ht => ?_⟩
    rcases step_drafts h ht with ht | ⟨ht, -, -⟩
    · exact h3 t ht
    · omega

theorem reachable_numbered {cfg : Config} {s : Server}
    (h : Transition.Reachable (· = initServer cfg) (Step cfg) s) : s.Numbered :=
  h.invariant (fun _ h0 => h0 ▸ numbered_initServer cfg)
    fun _ _ _ hn hs => step_numbered hn (step_stepped hs)

/-! ## What is finished stays finished -/

/-- A slot that runs task `i` after a step ran it before, or the task waited. -/
theorem step_running {cfg : Config} {s s' : Server} {a : Action} (h : Stepped cfg s a s') {i : Int}
    (hr : s'.Running i) : s.Running i ∨ 0 < s.pending i := by
  obtain ⟨slot, hs, hp, hi⟩ := hr
  have old : slot ∈ s.slots → s.Running i ∨ 0 < s.pending i := fun hs => .inl ⟨slot, hs, hp, hi⟩
  cases h with
  | moved hid hq hd hslots hdrafts hloop => exact old (hslots ▸ hs)
  | process loaded t hloop =>
    rcases processed_running (processSingleTask_processed cfg s.now loaded s.slots s.queue t)
      hs hp hi with ht | hr
    · refine .inr ?_
      simp only [pending_eq, hloop, Loop.tasks, List.countP_singleton, ht, if_true]
      omega
    · exact .inl hr
  | progress k slot' hp' hp'' hid hidTask =>
    rcases List.mem_or_eq_of_mem_set hs with hs | rfl
    · exact old hs
    · exact .inl ⟨s.slots.get k, List.get_mem s.slots k, hp', hidTask ▸ hi⟩
  | release k hp' =>
    rcases releaseSlot_eq s.now s.slots s.queue k with ⟨-, h⟩ | ⟨-, h⟩ <;> rw [h] at hs
    · rcases List.mem_or_eq_of_mem_set hs with hs | rfl
      · exact old hs
      · simp [Slot.isProcessing] at hp
    · exact old hs
  | _ => exact old hs

theorem step_finished {cfg : Config} {s s' : Server} {a : Action} {i : Int} (hn : s.Numbered)
    (hf : s.Finished i) (h : Stepped cfg s a s') : s'.Finished i := by
  have hid := step_id_le h
  have hold := hf.old
  refine ⟨by omega, ?_, fun hr => ?_⟩
  · have h1 := (step_count hn h i).1
    rw [if_neg (by omega), hf.pending] at h1
    omega
  · have h0 := hf.pending
    rcases step_running h hr with hr | hp
    · exact hf.not_running hr
    · omega

theorem run_finished {cfg : Config} {s s' : Server} {as : List Action} {i : Int}
    (hn : s.Numbered) (hf : s.Finished i) (h : Transition.Run (Step cfg) s as s') :
    s'.Finished i :=
  (h.invariant (I := fun s => s.Numbered ∧ s.Finished i) (fun _ _ _ hI hs =>
    ⟨step_numbered hI.1 (step_stepped hs), step_finished hI.1 hI.2 (step_stepped hs)⟩)
    ⟨hn, hf⟩).2

theorem not_launches_of_finished {cfg : Config} {s : Server} {i : Int} (hf : s.Finished i) :
    ¬ s.Launches cfg i := by
  rintro ⟨t, k, hloop, ht, hid, -, -⟩
  have h0 := hf.pending
  simp only [pending_eq, hloop, Loop.tasks, List.countP_singleton, Task.isFor, ht, hid,
    Bool.true_and, decide_true, if_true] at h0
  omega

/-! ## The cancel -/

theorem eq_of_countP_le_one {α : Type*} {p : α → Bool} {l : List α} (h : l.countP p ≤ 1) {a b : α}
    (ha : a ∈ l) (hb : b ∈ l) (hpa : p a = true) (hpb : p b = true) : a = b := by
  rw [List.countP_eq_length_filter] at h
  have ha' := List.mem_filter.2 ⟨ha, hpa⟩
  have hb' := List.mem_filter.2 ⟨hb, hpb⟩
  obtain hl | ⟨x, hl⟩ : l.filter p = [] ∨ ∃ x, l.filter p = [x] := by
    rcases hf : l.filter p with _ | ⟨x, _ | ⟨y, xs⟩⟩
    · exact .inl rfl
    · exact .inr ⟨x, rfl⟩
    · rw [hf] at h
      simp at h
  · rw [hl] at ha'
    exact absurd ha' (by simp)
  · rw [hl, List.mem_singleton] at ha' hb'
    rw [ha', hb']

theorem processSingleTask_cancel {cfg : Config} {now : Int} {loaded : Option (List Token)}
    {slots : List Slot} {q : Queue} {task : Task} (h : task.type = .cancel) :
    processSingleTask cfg now loaded slots q task =
      (cancelledSlot slots task).elim (slots, q) (releaseSlot now slots q) := by
  simp only [processSingleTask, h]
  cases cancelledSlot slots task <;> rfl

/-- Releasing one slot of a task that is on one slot at most stops the task. -/
theorem releaseSlot_not_running {now : Int} {slots : List Slot} {q : Queue} {k : Fin slots.length}
    {i : Int} (hk : (slots.get k).idTask = i) (h : slots.countP (·.idTask = i) ≤ 1) :
    ∀ slot ∈ (releaseSlot now slots q k).1, slot.idTask = i → slot.isProcessing = false := by
  intro slot hs hi
  rw [← countP_releaseSlot now slots q k] at h
  obtain ⟨x, hx, hxi, hxp⟩ : ∃ x ∈ (releaseSlot now slots q k).1,
      x.idTask = i ∧ x.isProcessing = false := by
    rcases releaseSlot_eq now slots q k with ⟨-, h⟩ | ⟨hp, h⟩ <;> rw [h]
    · exact ⟨_, List.mem_set k.isLt _, hk, rfl⟩
    · exact ⟨_, List.get_mem slots k, hk, hp⟩
  rw [eq_of_countP_le_one h hs hx (by simpa using hi) (by simpa using hxi)]
  exact hxp

/-- A cancel that is processed finishes its target, unless the target waits in a queue. -/
theorem cancel_finished {cfg : Config} {s s' : Server} {c : Task} {loaded : Option (List Token)}
    (hn : s.Numbered) (hloop : s.loop = .task c) (hc : c.type = .cancel)
    (hw : ¬ s.queue.Waits c.idTarget) (h : Step cfg s (.process loaded) s') :
    s'.Finished c.idTarget := by
  obtain ⟨h0, hlt, hd⟩ := hn.cancels c (by simp [hloop, Loop.tasks]) hc
  simp only [Step, step, hloop, processSingleTask_cancel hc, Option.some.injEq] at h
  subst h
  have hcount : s.slots.countP (·.idTask = c.idTarget) ≤ 1 :=
    (Nat.le_add_left _ _).trans (hn.tally_le _ h0)
  have hq : s.queue.tasks.countP (Task.isFor c.idTarget) = 0 := by
    rw [List.countP_eq_zero]
    intro t ht hfor
    simp only [Task.isFor, Bool.and_eq_true, decide_eq_true_eq] at hfor
    exact hw ⟨t, ht, hfor.1, hfor.2⟩
  have hdrafts : s.drafts.countP (Task.isFor c.idTarget) = 0 := by
    rw [List.countP_eq_zero]
    intro t ht hfor
    simp only [Task.isFor, Bool.and_eq_true, decide_eq_true_eq] at hfor
    exact hd t ht hfor.2
  rcases hslot : cancelledSlot s.slots c with _ | k
  · refine ⟨hlt, ?_, ?_⟩
    · rw [pending_eq]
      simp only [Option.elim, hq, hdrafts, Loop.tasks, List.countP_nil]
    · rintro ⟨slot, hs, -, hi⟩
      obtain ⟨k, rfl⟩ := List.get_of_mem hs
      exact absurd hi (by simpa using List.find?_eq_none.1 hslot k (List.mem_finRange k))
  · have hk' : (s.slots.get k).idTask = c.idTarget := by
      simpa using List.find?_some hslot
    dsimp only [Option.elim]
    refine ⟨?_, ?_, ?_⟩
    · rw [(tasks_releaseSlot s.now s.slots s.queue k).2]
      exact hlt
    · rw [pending_eq]
      simp only [(tasks_releaseSlot s.now s.slots s.queue k).1, hq, hdrafts, Loop.tasks,
        List.countP_nil]
    · rintro ⟨slot, hs, hp, hi⟩
      rw [releaseSlot_not_running hk' hcount slot hs hi] at hp
      exact absurd hp (by simp)

/-- The loop processes a cancel at a state a run reaches; the task it names is never launched nor
runs later. -/
def CancelEffective (cfg : Config) : Prop :=
  ∀ (s s' s'' : Server) (c : Task) (loaded : Option (List Token)) (as : List Action),
    Transition.Reachable (· = initServer cfg) (Step cfg) s → s.loop = .task c →
    c.type = .cancel → Step cfg s (.process loaded) s' → Transition.Run (Step cfg) s' as s'' →
    ¬ s''.Launches cfg c.idTarget ∧ ¬ s''.Running c.idTarget

/-- Once a cancel has been processed whose target waits in no queue, the target is never launched
nor runs. -/
theorem cancel_effective_of_not_waits {cfg : Config} {s s' s'' : Server} {c : Task}
    {loaded : Option (List Token)} {as : List Action}
    (hs : Transition.Reachable (· = initServer cfg) (Step cfg) s) (hloop : s.loop = .task c)
    (hc : c.type = .cancel) (hw : ¬ s.queue.Waits c.idTarget)
    (hstep : Step cfg s (.process loaded) s') (hrun : Transition.Run (Step cfg) s' as s'') :
    ¬ s''.Launches cfg c.idTarget ∧ ¬ s''.Running c.idTarget := by
  have hn := reachable_numbered hs
  have hf := run_finished (step_numbered hn (step_stepped hstep))
    (cancel_finished hn hloop hc hw hstep) hrun
  exact ⟨not_launches_of_finished hf, hf.not_running⟩

section OneSlot

/-- A completion request of the token 1. -/
def completion : Task := { type := .completion, promptTokens := [1] }

/-- The loop takes the cancel of a task that a slot runs. -/
def cancelRunning : List Action :=
  [.newTask completion, .post { completion with id := 0 } false, .fetch, .process none,
    .cancelTasks [0], .fetch]

/-- The loop takes the cancel of a task that is behind it in the queue. -/
def cancelQueued : List Action :=
  [.newTask completion, .post { completion with id := 0 } false, .cancelTasks [0], .fetch]

theorem cancel_effective_of_not_waits_oneSlot : ∃ s s' s'' as,
    Transition.exec (step oneSlot) (initServer oneSlot) cancelRunning = some s ∧ s.Running 0 ∧
      Step oneSlot s (.process none) s' ∧ Transition.Run (Step oneSlot) s' as s'' ∧
      ¬ s''.Launches oneSlot 0 ∧ ¬ s''.Running 0 := by
  have hrun : ∃ s s' s'',
      Transition.exec (step oneSlot) (initServer oneSlot) cancelRunning = some s ∧
      Step oneSlot s (.process none) s' ∧ Transition.exec (step oneSlot) s' [.fetch] = some s'' ∧
      s.Running 0 ∧ ¬ s.queue.Waits 0 ∧ s.loop = .task { cancelTask 0 with id := 1 } :=
    ⟨_, _, _, rfl, rfl, rfl, by decide, by decide, rfl⟩
  obtain ⟨s, s', s'', h1, h2, h3, h4, h5, h6⟩ := hrun
  exact ⟨s, s', s'', [.fetch], h1, h4, h2, Transition.run_of_exec h3,
    cancel_effective_of_not_waits ⟨_, cancelRunning, rfl, Transition.run_of_exec h1⟩ h6 rfl h5 h2
      (Transition.run_of_exec h3)⟩

/-- A cancel does not stop the task that waits behind it. -/
theorem not_cancelEffective : ¬ CancelEffective oneSlot := by
  intro h
  have := h _ _ _ { cancelTask 0 with id := 1 } none [.fetch, .process none]
    ⟨_, cancelQueued, rfl, Transition.run_of_exec rfl⟩ rfl rfl rfl (Transition.run_of_exec rfl)
  exact this.2 (by decide)

end OneSlot

end LamaServer
