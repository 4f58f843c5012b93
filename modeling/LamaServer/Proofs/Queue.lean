import LamaServer.Queue

/-!
# What the queue's operations do

Posting, deferring and moving a deferred task back are described by the tasks that wait afterwards,
and `processSingleTask` by the five things that can become of a task: nothing but a result, a
deferral, a launch on a free slot, a release, or a change to a free slot's cache.
-/

namespace LamaServer

namespace Queue

/-- The tasks that wait in either queue. -/
def tasks (q : Queue) : List Task := q.queueTasks ++ q.queueTasksDeferred

theorem tasks_defer (q : Queue) (task : Task) : (q.defer task).tasks = q.tasks ++ [task] := by
  simp [tasks, defer]

theorem tasks_popDeferredTask (q : Queue) : q.popDeferredTask.tasks = q.tasks := by
  unfold popDeferredTask tasks
  split <;> simp_all

@[simp] theorem id_defer (q : Queue) (task : Task) : (q.defer task).id = q.id := rfl

@[simp] theorem id_popDeferredTask (q : Queue) : q.popDeferredTask.id = q.id := by
  unfold popDeferredTask
  split <;> rfl

theorem cleanupPendingTask_sublist (q : Queue) (idTarget : Int) :
    (q.cleanupPendingTask idTarget).tasks.Sublist q.tasks :=
  List.filter_sublist.append List.filter_sublist

@[simp] theorem id_post (q : Queue) (task : Task) (front : Bool) :
    (q.post task front).id = q.id := by
  unfold post cleanupPendingTask
  simp only []
  split_ifs <;> rfl

/-- A post adds its task to what is left after the clean-up. -/
theorem tasks_post (q : Queue) (task : Task) (front : Bool) :
    ∃ l, l.Sublist q.tasks ∧ (q.post task front).tasks.Perm (task :: l) := by
  refine ⟨(if task.type = .cancel then q.cleanupPendingTask task.idTarget else q).tasks, ?_, ?_⟩
  · split_ifs
    · exact cleanupPendingTask_sublist q _
    · exact List.Sublist.refl _
  · unfold post
    simp only []
    split_ifs with hf <;> simp only [tasks, List.cons_append, List.append_assoc]
    all_goals first
      | exact .refl _
      | exact List.perm_middle

theorem mem_post {q : Queue} {task t : Task} {front : Bool} (h : t ∈ (q.post task front).tasks) :
    t = task ∨ t ∈ q.tasks := by
  obtain ⟨l, hl, hp⟩ := tasks_post q task front
  rcases List.mem_cons.1 (hp.mem_iff.1 h) with h | h
  · exact .inl h
  · exact .inr (hl.subset h)

theorem countP_post_le (p : Task → Bool) (q : Queue) (task : Task) (front : Bool) :
    (q.post task front).tasks.countP p ≤ q.tasks.countP p + [task].countP p := by
  obtain ⟨l, hl, hp⟩ := tasks_post q task front
  have h1 := hp.countP_eq p
  have h2 : l.countP p ≤ q.tasks.countP p := hl.countP_le
  have h3 : (task :: l).countP p = l.countP p + [task].countP p := by
    simp only [List.countP_cons, List.countP_nil]
    omega
  omega

/-- One task of the vector a `postAll` posts. -/
def postOne (q : Queue) (task : Task) (front : Bool) : Queue :=
  if task.id = -1 then { q with id := q.id + 1 }.post { task with id := q.id } front
  else q.post task front

@[simp] theorem postAll_nil (q : Queue) (front : Bool) : q.postAll [] front = q := rfl

theorem postAll_cons (q : Queue) (task : Task) (tasks : List Task) (front : Bool) :
    q.postAll (task :: tasks) front = (q.postOne task front).postAll tasks front := rfl

theorem le_id_postOne (q : Queue) (task : Task) (front : Bool) :
    q.id ≤ (q.postOne task front).id := by
  unfold postOne
  split_ifs
  · rw [id_post]
    exact Int.le_add_one (le_refl _)
  · rw [id_post]

theorem le_id_postAll (front : Bool) :
    ∀ (tasks : List Task) (q : Queue), q.id ≤ (q.postAll tasks front).id
  | [], q => le_refl q.id
  | task :: tasks, q => (le_id_postOne q task front).trans (le_id_postAll front tasks _)

theorem mem_postOne {q : Queue} {task t : Task} {front : Bool}
    (h : t ∈ (q.postOne task front).tasks) :
    t ∈ q.tasks ∨ t = task ∨ ∃ id, t = { task with id } := by
  unfold postOne at h
  split_ifs at h
  · rcases mem_post h with h | h
    · exact .inr (.inr ⟨_, h⟩)
    · exact .inl h
  · rcases mem_post h with h | h
    · exact .inr (.inl h)
    · exact .inl h

theorem mem_postAll {front : Bool} {t : Task} :
    ∀ {tasks : List Task} {q : Queue}, t ∈ (q.postAll tasks front).tasks →
      t ∈ q.tasks ∨ ∃ task ∈ tasks, t = task ∨ ∃ id, t = { task with id }
  | [], _, h => .inl h
  | task :: tasks, q, h => by
    rcases @mem_postAll front t tasks _ h with h | ⟨task', hm, h⟩
    · rcases mem_postOne h with h | h
      · exact .inl h
      · exact .inr ⟨task, List.mem_cons_self, h⟩
    · exact .inr ⟨task', List.mem_cons_of_mem _ hm, h⟩

/-- Posting a vector adds at most its tasks, for a predicate numbering a task does not change. -/
theorem countP_postAll_le {p : Task → Bool} (front : Bool) :
    ∀ (tasks : List Task) (q : Queue),
      (∀ task ∈ tasks, task.id = -1 → ∀ id, p { task with id } = p task) →
      (q.postAll tasks front).tasks.countP p ≤ q.tasks.countP p + tasks.countP p
  | [], q, _ => by simp
  | task :: tasks, q, h => by
    have ih := countP_postAll_le front tasks (q.postOne task front)
      fun t ht => h t (List.mem_cons_of_mem _ ht)
    have h1 : (q.postOne task front).tasks.countP p ≤ q.tasks.countP p + [task].countP p := by
      unfold postOne
      split_ifs with hid
      · refine (countP_post_le p _ _ front).trans ?_
        simp only [List.countP_singleton, h task List.mem_cons_self hid]
        exact le_refl _
      · exact countP_post_le p q task front
    have h2 : (task :: tasks).countP p = tasks.countP p + [task].countP p := by
      simp only [List.countP_cons, List.countP_nil]
      omega
    rw [postAll_cons]
    omega

end Queue

/-- What can become of a task that is processed. -/
inductive Processed (cfg : Config) (now : Int) (slots : List Slot) (q : Queue) (task : Task) :
    List Slot × Queue → Prop
  /-- only a result is sent -/
  | answered (h : task.type.isInference = false) : Processed cfg now slots q task (slots, q)
  | deferred (h : task.type ≠ .cancel)
      (hbusy : (∃ slot ∈ slots, slot.isProcessing = true) ∨
        task.type.isInference = true ∧ slotForTask cfg now slots task = none) :
      Processed cfg now slots q task (slots, q.defer task)
  | launched (i : Fin slots.length) (h : task.type.isInference = true)
      (hidle : (slots.get i).isProcessing = false) : Processed cfg now slots q task
        (slots.set i (launchSlotWithTask cfg (slots.get i) task).1, q)
  | released (i : Fin slots.length) (h : task.type = .cancel)
      (hi : cancelledSlot slots task = some i) :
      Processed cfg now slots q task (releaseSlot now slots q i)
  /-- a free slot's cached tokens are replaced -/
  | acted (i : Fin slots.length) (cache : List Token) (h : task.type.isInference = false)
      (hidle : (slots.get i).isProcessing = false) : Processed cfg now slots q task
        (slots.set i { slots.get i with cacheTokens := cache }, q)

theorem slotAction_processed {cfg : Config} {now : Int} {slots : List Slot} {q : Queue}
    {task : Task} {act : Slot → Slot} (ht : task.type.isInference = false)
    (hc : task.type ≠ .cancel)
    (hact : ∀ slot, ∃ cache, act slot = { slot with cacheTokens := cache }) :
    Processed cfg now slots q task (slotAction cfg slots q task act) := by
  unfold slotAction
  split_ifs
  · exact .answered ht
  split
  · exact .answered ht
  rename_i i _
  split_ifs with hp
  · exact .deferred hc (.inl ⟨_, List.get_mem slots i, hp⟩)
  · obtain ⟨cache, h⟩ := hact (slots.get i)
    rw [h]
    exact .acted i cache ht (by simpa using hp)

theorem processSingleTask_processed (cfg : Config) (now : Int) (loaded : Option (List Token))
    (slots : List Slot) (q : Queue) (task : Task) :
    Processed cfg now slots q task (processSingleTask cfg now loaded slots q task) := by
  have hinf (ht : task.type.isInference = true) {r : List Slot × Queue}
      (hnone : slotForTask cfg now slots task = none → r = (slots, q.defer task))
      (hsome : ∀ i, slotForTask cfg now slots task = some i →
        r = if (slots.get i).isProcessing then (slots, q.defer task)
          else (slots.set i (launchSlotWithTask cfg (slots.get i) task).1, q)) :
      Processed cfg now slots q task r := by
    have hc : task.type ≠ .cancel := fun h => by simp [h, TaskType.isInference] at ht
    rcases hslot : slotForTask cfg now slots task with _ | i
    · rw [hnone hslot]
      exact .deferred hc (.inr ⟨ht, hslot⟩)
    rw [hsome i hslot]
    split_ifs with hp
    · exact .deferred hc (.inl ⟨_, List.get_mem slots i, hp⟩)
    · exact .launched i ht (by simpa using hp)
  unfold processSingleTask
  split
  iterate 4
    · exact hinf (by simp [*, TaskType.isInference]) (fun h => by simp only [h])
        fun i h => by simp only [h]
  · rename_i hc
    split
    · exact .answered (by simp [hc, TaskType.isInference])
    · rename_i i hi
      exact .released i hc hi
  · exact slotAction_processed (by simp [*, TaskType.isInference]) (by simp [*])
      fun slot => ⟨slot.cacheTokens, rfl⟩
  · exact slotAction_processed (by simp [*, TaskType.isInference]) (by simp [*])
      fun slot => ⟨loaded.getD [], rfl⟩
  · exact slotAction_processed (by simp [*, TaskType.isInference]) (by simp [*])
      fun slot => ⟨[], rfl⟩
  all_goals exact .answered (by simp [*, TaskType.isInference])

/-- A release frees the slot and moves one deferred task back, or finds the slot free. -/
theorem releaseSlot_eq (now : Int) (slots : List Slot) (q : Queue) (i : Fin slots.length) :
    (slots.get i).isProcessing = true ∧ releaseSlot now slots q i =
        (slots.set i { slots.get i with tLastUsed := now, state := .idle }, q.popDeferredTask) ∨
      (slots.get i).isProcessing = false ∧ releaseSlot now slots q i = (slots, q) := by
  unfold releaseSlot
  rcases hp : (slots.get i).isProcessing with _ | _
  · exact .inr ⟨rfl, by simp only [Bool.false_eq_true, if_false]⟩
  · exact .inl ⟨rfl, by simp only [Slot.release, hp, if_true]⟩

/-- The task the loop has taken off the queue. -/
def Loop.tasks : Loop → List Task
  | .task t => [t]
  | _ => []

theorem tasks_releaseSlot (now : Int) (slots : List Slot) (q : Queue) (i : Fin slots.length) :
    (releaseSlot now slots q i).2.tasks = q.tasks ∧ (releaseSlot now slots q i).2.id = q.id := by
  rcases releaseSlot_eq now slots q i with ⟨-, h⟩ | ⟨-, h⟩ <;> rw [h]
  · exact ⟨q.tasks_popDeferredTask, q.id_popDeferredTask⟩
  · exact ⟨rfl, rfl⟩

/-- The tasks no slot was launched for yet. -/
def Server.tasks (s : Server) : List Task := s.drafts ++ (s.queue.tasks ++ s.loop.tasks)

/-- The system's steps as rules. The steps that move neither tasks nor slots are one rule. -/
inductive Stepped (cfg : Config) (s : Server) : Action → Server → Prop
  | moved {a : Action} {s' : Server} (hid : s'.queue.id = s.queue.id)
      (hq : s'.queue.queueTasks = s.queue.queueTasks)
      (hd : s'.queue.queueTasksDeferred = s.queue.queueTasksDeferred)
      (hslots : s'.slots = s.slots) (hdrafts : s'.drafts = s.drafts)
      (hloop : s'.loop.tasks = s.loop.tasks) : Stepped cfg s a s'
  | newTask (t : Task) (hc : t.type ≠ .cancel) (htarget : t.idTarget = -1) :
      Stepped cfg s (.newTask t) { s with
      queue := { s.queue with id := s.queue.id + 1 }
      drafts := s.drafts ++ [{ t with id := s.queue.id }] }
  | post (t : Task) (front : Bool) (ht : t ∈ s.drafts) : Stepped cfg s (.post t front) { s with
      queue := s.queue.post t front, drafts := s.drafts.erase t }
  | postAll (ids : List Int) (front : Bool) : Stepped cfg s (.postAll ids front) { s with
      queue := s.queue.postAll (s.drafts.filter fun t => t.id ∈ ids) front
      drafts := s.drafts.filter fun t => t.id ∉ ids }
  | cancelTasks (ids : List Int)
      (h : ∀ i ∈ ids, 0 ≤ i ∧ i < s.queue.id ∧ ∀ t ∈ s.drafts, t.id ≠ i) :
      Stepped cfg s (.cancelTasks ids)
        { s with queue := s.queue.postAll (ids.map cancelTask) true }
  | fetch (t : Task) (rest : List Task) (hq : s.queue.queueTasks = t :: rest)
      (hloop : s.loop = .fetch) : Stepped cfg s .fetch
        { s with queue := { s.queue with queueTasks := rest }, loop := .task t }
  | process (loaded : Option (List Token)) (t : Task) (hloop : s.loop = .task t) :
      Stepped cfg s (.process loaded) { s with
        slots := (processSingleTask cfg s.now loaded s.slots s.queue t).1
        queue := (processSingleTask cfg s.now loaded s.slots s.queue t).2
        loop := .fetch }
  | update (hloop : s.loop = .update) : Stepped cfg s .update { s with
      queue := { s.queue with id := s.queue.id + 1 }, loop := .posting s.queue.id }
  | postNext (id : Int) (hloop : s.loop = .posting id) : Stepped cfg s .postNext { s with
      queue := s.queue.post { id, type := .nextResponse } false, loop := .slots }
  | progress (i : Fin s.slots.length) (slot : Slot)
      (hp : (s.slots.get i).isProcessing = true) (hp' : slot.isProcessing = true)
      (hid : slot.id = (s.slots.get i).id) (hidTask : slot.idTask = (s.slots.get i).idTask) :
      Stepped cfg s (.progress i slot) { s with slots := s.slots.set i slot }
  | release (i : Fin s.slots.length) (hp : (s.slots.get i).isProcessing = true) :
      Stepped cfg s (.release i) { s with
        slots := (releaseSlot s.now s.slots s.queue i).1
        queue := (releaseSlot s.now s.slots s.queue i).2 }

theorem step_stepped {cfg : Config} {s s' : Server} {a : Action} (h : Step cfg s a s') :
    Stepped cfg s a s' := by
  unfold Step at h
  cases a with
  | newTask t =>
    simp only [step, Option.ite_none_right_eq_some, Option.some.injEq] at h
    obtain ⟨⟨hc, -, htarget⟩, rfl⟩ := h
    exact .newTask t hc htarget
  | post t front =>
    simp only [step, Option.ite_none_right_eq_some, Option.some.injEq] at h
    obtain ⟨ht, rfl⟩ := h
    exact .post t front ht
  | postAll ids front =>
    simp only [step, Option.some.injEq] at h
    subst h
    exact .postAll ids front
  | cancelTasks ids =>
    simp only [step, Option.ite_none_right_eq_some, Option.some.injEq] at h
    obtain ⟨hids, rfl⟩ := h
    exact .cancelTasks ids hids
  | terminate =>
    simp only [step, Option.some.injEq] at h
    subst h
    exact .moved rfl rfl rfl rfl rfl rfl
  | tick us =>
    simp only [step, Option.some.injEq] at h
    subst h
    exact .moved rfl rfl rfl rfl rfl rfl
  | fetch =>
    simp only [step] at h
    split_ifs at h with hl
    · rw [not_not] at hl
      obtain rfl := Option.some.inj h
      exact .moved rfl rfl rfl rfl rfl (by rw [hl]; rfl)
    · rw [not_not] at hl
      split at h <;> obtain rfl := Option.some.inj h
      · exact .moved rfl rfl rfl rfl rfl (by rw [hl]; rfl)
      · rename_i t rest hq
        exact .fetch t rest hq hl
  | process loaded =>
    simp only [step] at h
    split at h
    · rename_i t hl
      obtain rfl := Option.some.inj h
      exact .process loaded t hl
    · exact absurd h (by simp)
  | update =>
    simp only [step] at h
    split_ifs at h with hl
    all_goals
      rw [not_not] at hl
      obtain rfl := Option.some.inj h
    · exact .moved rfl rfl rfl rfl rfl (by rw [hl]; rfl)
    · exact .update hl
  | postNext =>
    simp only [step] at h
    split at h
    · rename_i id hl
      obtain rfl := Option.some.inj h
      exact .postNext id hl
    · exact absurd h (by simp)
  | progress i slot =>
    simp only [step, Option.dite_none_right_eq_some, Option.ite_none_right_eq_some,
      Option.some.injEq] at h
    obtain ⟨hi, ⟨-, hp, hp', hid, hidTask⟩, rfl⟩ := h
    exact .progress ⟨i, hi⟩ slot hp hp' hid hidTask
  | release i =>
    simp only [step, Option.dite_none_right_eq_some, Option.ite_none_right_eq_some,
      Option.some.injEq] at h
    obtain ⟨hi, ⟨-, hp⟩, rfl⟩ := h
    exact .release ⟨i, hi⟩ hp
  | endUpdate =>
    simp only [step, Option.ite_none_right_eq_some, Option.some.injEq] at h
    obtain ⟨hl, rfl⟩ := h
    exact .moved rfl rfl rfl rfl rfl (by rw [hl]; rfl)
  | wake =>
    simp only [step] at h
    split_ifs at h with hl
    all_goals
      rw [not_not] at hl
      obtain rfl := Option.some.inj h
      exact .moved rfl rfl rfl rfl rfl (by rw [hl]; rfl)

theorem step_drafts {cfg : Config} {s s' : Server} {a : Action} (h : Stepped cfg s a s') {t : Task}
    (ht : t ∈ s'.drafts) : t ∈ s.drafts ∨
      t.id = s.queue.id ∧ s.queue.id < s'.queue.id ∧ t.type ≠ .cancel ∧ t.idTarget = -1 := by
  cases h with
  | moved hid hq hd hslots hdrafts hloop => exact .inl (hdrafts ▸ ht)
  | newTask t' hc htarget =>
    rcases List.mem_append.1 ht with ht | ht
    · exact .inl ht
    · obtain rfl := List.mem_singleton.1 ht
      exact .inr ⟨rfl, Int.lt_add_one_of_le (le_refl _), hc, htarget⟩
  | post t' front ht' => exact .inl (List.mem_of_mem_erase ht)
  | postAll ids front => exact .inl (List.mem_of_mem_filter ht)
  | _ => exact .inl ht

/-- Where a task that is in the queue or being processed comes from. -/
inductive Server.Supplies (s : Server) (t : Task) : Prop
  | queued (h : t ∈ s.queue.tasks ++ s.loop.tasks)
  | drafted (t' : Task) (ht' : t' ∈ s.drafts) (heq : t = t' ∨ ∃ id, t = { t' with id })
  | cancel (i : Int) (h : 0 ≤ i ∧ i < s.queue.id ∧ ∀ t ∈ s.drafts, t.id ≠ i)
      (heq : t = cancelTask i ∨ ∃ id, t = { cancelTask i with id })
  | next (id : Int) (heq : t = { id, type := .nextResponse })

/-- What becomes of the task that is processed brings in no others. -/
theorem tasks_processed {cfg : Config} {now : Int} {slots : List Slot} {q : Queue} {t t' : Task}
    {r : List Slot × Queue} (h : Processed cfg now slots q t r) (ht' : t' ∈ r.2.tasks) :
    t' ∈ q.tasks ++ [t] := by
  cases h with
  | deferred => rwa [Queue.tasks_defer] at ht'
  | released k =>
    rw [(tasks_releaseSlot now slots q k).1] at ht'
    exact List.mem_append_left _ ht'
  | _ => exact List.mem_append_left _ ht'

theorem step_supplies {cfg : Config} {s s' : Server} {a : Action} (h : Stepped cfg s a s')
    {t : Task} (ht : t ∈ s'.queue.tasks ++ s'.loop.tasks) : s.Supplies t := by
  cases h with
  | moved hid hq hd hslots hdrafts hloop =>
    refine .queued ?_
    rwa [Queue.tasks, hq, hd, hloop] at ht
  | newTask t' hc htarget => exact .queued ht
  | post t' front ht' =>
    rcases List.mem_append.1 ht with ht | ht
    · rcases Queue.mem_post ht with rfl | ht
      · exact .drafted _ ht' (.inl rfl)
      · exact .queued (List.mem_append_left _ ht)
    · exact .queued (List.mem_append_right _ ht)
  | postAll ids front =>
    rcases List.mem_append.1 ht with ht | ht
    · rcases Queue.mem_postAll ht with ht | ⟨t', ht', heq⟩
      · exact .queued (List.mem_append_left _ ht)
      · exact .drafted t' (List.mem_of_mem_filter ht') heq
    · exact .queued (List.mem_append_right _ ht)
  | cancelTasks ids h =>
    rcases List.mem_append.1 ht with ht | ht
    · rcases Queue.mem_postAll ht with ht | ⟨t', ht', heq⟩
      · exact .queued (List.mem_append_left _ ht)
      · obtain ⟨i, hi, rfl⟩ := List.mem_map.1 ht'
        exact .cancel i (h i hi) heq
    · exact .queued (List.mem_append_right _ ht)
  | fetch t' rest hq hloop =>
    refine .queued ?_
    simp only [Queue.tasks, Loop.tasks, hq, hloop, List.mem_append, List.mem_cons] at ht ⊢
    tauto
  | process loaded t' hloop =>
    refine .queued ?_
    rw [hloop]
    refine tasks_processed (processSingleTask_processed cfg s.now loaded s.slots s.queue t') ?_
    simpa only [Loop.tasks, List.append_nil] using ht
  | update hloop =>
    simp only [Loop.tasks, List.append_nil] at ht
    exact .queued (List.mem_append_left _ ht)
  | postNext id hloop =>
    simp only [Loop.tasks, List.append_nil] at ht
    rcases Queue.mem_post ht with rfl | ht
    · exact .next id rfl
    · exact .queued (List.mem_append_left _ ht)
  | progress => exact .queued ht
  | release k hp =>
    rw [(tasks_releaseSlot s.now s.slots s.queue k).1] at ht
    exact .queued ht

end LamaServer
