import LamaServer.Log

/-!
# The log loses nothing while it is not paused with one free slot

`pause` writes the end marker where `add` would, but does not grow the ring when that takes the last
free slot, and the ring then reads as empty. `lossless_step_iff`: that, and starting a worker before
the old one is joined, are the only actions after which something is lost.
-/

namespace LamaServer

theorem takeWhile_formatInto {msg text : List UInt8} (h : 0 ∉ text) :
    (formatInto msg text).takeWhile (· ≠ 0) = text := by
  have hall : ∀ c ∈ text, decide (c ≠ 0) = true := fun c hc => by
    simpa using fun h0 : c = 0 => h (h0 ▸ hc)
  have hrest : ∀ rest : List UInt8, (text ++ 0 :: rest).takeWhile (· ≠ 0) = text := fun rest => by
    rw [List.takeWhile_append_of_pos hall]
    simp
  unfold formatInto
  split_ifs
  · exact hrest []
  · exact hrest _

namespace CommonLog

variable {s s' : CommonLog} {a : LogAction} {call : LogCall}

/-- The ring read from the head to the tail. -/
def items (s : CommonLog) : List (Option LogMessage) := s.ring.contents.map LogEntry.item

/-- The end marker, from when `pause` has pushed it until the worker takes it. -/
def marker (s : CommonLog) : List (Option LogMessage) :=
  if s.running = false ∧ s.worker = .working then [none] else []

/-- What was added is printed or in the ring, in order, and the end marker is after it. -/
structure Lossless (s : CommonLog) : Prop where
  not_terminated : s.terminated = false
  working : s.running = true → s.worker = .working
  queued : ∃ pending, s.added = s.printed ++ pending ∧ s.items = pending.map some ++ s.marker ∧
    (s.worker ≠ .working → pending = [])

/-- `pause` leaves a slot free, and `resume` starts a worker when there is none. -/
def Fits (s : CommonLog) : LogAction → Prop
  | .pause => s.running = true → s.ring.count + 1 < s.ring.slots.length
  | .resume => s.running = false → s.worker = .joined
  | _ => True

theorem item_fill (entry : LogEntry) : (s.fill call entry).item = some (s.callMessage call) := by
  simp only [LogEntry.item, fill, Bool.false_eq_true, if_false, LogEntry.message, callMessage,
    takeWhile_formatInto call.text.2]

theorem Lossless.add (h : s.Lossless) (call : LogCall) : (s.add call).Lossless := by
  unfold CommonLog.add
  split_ifs with hrun
  · obtain ⟨pending, hadded, hitems, -⟩ := h.queued
    refine ⟨h.not_terminated, h.working, pending ++ [s.callMessage call], ?_, ?_, ?_⟩
    · change s.added ++ [_] = s.printed ++ _
      rw [hadded, List.append_assoc]
    · simp only [items, marker, hrun, Bool.true_eq_false, false_and, if_false, List.append_nil,
        RingBuffer.contents_pushGrow, List.map_append, List.map_singleton, item_fill] at hitems ⊢
      rw [hitems]
    · exact fun hw => absurd (h.working hrun) hw
  · exact h

/-- The worker takes what comes first in the ring. -/
theorem take_cases (h : s.take = some s') : s.worker = .working ∧ ∃ ring : RingBuffer LogEntry,
    (∃ m, s.items = some m :: ring.contents.map LogEntry.item ∧
      s' = { s with ring, printed := s.printed ++ [m] }) ∨
    (s.items = none :: ring.contents.map LogEntry.item ∧ s' = { s with ring, worker := .ended }) := by
  unfold CommonLog.take at h
  split_ifs at h with hw
  simp only [RingBuffer.pop, Option.map_eq_some_iff, Option.ite_none_left_eq_some,
    Option.some.injEq, Prod.exists, Prod.mk.injEq] at h
  obtain ⟨cur, ring, ⟨hne, rfl, rfl⟩, h⟩ := h
  have hitems := congrArg (List.map LogEntry.item) (s.ring.contents_pop hne)
  rw [List.map_cons, LogEntry.item] at hitems
  refine ⟨hw, s.ring.advance, ?_⟩
  split_ifs at h hitems
  · exact .inr ⟨hitems, h.symm⟩
  · exact .inl ⟨_, hitems, h.symm⟩

theorem exists_take (hw : s.worker = .working) (h : s.items ≠ []) : ∃ s', s.take = some s' := by
  have hne : s.ring.head ≠ s.ring.tail := fun hmeet => h (by
    rw [items, RingBuffer.contents_eq_nil _ hmeet, List.map_nil])
  unfold CommonLog.take RingBuffer.pop
  rw [if_pos hw, if_neg hne]
  exact ⟨_, rfl⟩

theorem Lossless.take (h : s.Lossless) (htake : s.take = some s') : s'.Lossless := by
  obtain ⟨pending, hadded, hitems, -⟩ := h.queued
  obtain ⟨hw, ring, ⟨m, hm, rfl⟩ | ⟨hm, rfl⟩⟩ := take_cases htake
  · rcases pending with _ | ⟨m', pending⟩
    · rw [hm, marker] at hitems
      split_ifs at hitems <;> simp at hitems
    · obtain ⟨hmm, hrest⟩ := List.cons.inj (hm.symm.trans hitems)
      obtain rfl := Option.some.inj hmm
      refine ⟨h.not_terminated, h.working, pending, ?_, hrest, fun hnw => absurd hw hnw⟩
      change s.added = s.printed ++ [m] ++ pending
      rw [hadded, List.append_assoc]
      rfl
  · rcases pending with _ | ⟨m', pending⟩
    · rw [hm, marker] at hitems
      split_ifs at hitems with hpaused
      · refine ⟨h.not_terminated, fun hrun => ?_, [], hadded, ?_, fun _ => rfl⟩
        · exact absurd hpaused.1 (by simpa using hrun)
        · simpa [items, marker] using hitems
      · simp at hitems
    · rw [hm] at hitems
      simp at hitems

theorem Lossless.pause (h : s.Lossless)
    (hfree : s.running = true → s.ring.count + 1 < s.ring.slots.length) : s.pause.Lossless := by
  unfold CommonLog.pause
  split_ifs with hrun
  · obtain ⟨pending, hadded, hitems, -⟩ := h.queued
    refine ⟨h.not_terminated, by simp, pending, hadded, ?_, ?_⟩
    · simp only [items, marker, hrun, h.working hrun, Bool.true_eq_false, false_and, and_self,
        if_false, if_true, List.append_nil, RingBuffer.contents_push _ _ (hfree hrun),
        List.map_append, List.map_singleton] at hitems ⊢
      rw [hitems]
      rfl
    · exact fun hw => absurd (h.working hrun) hw
  · exact h

theorem Lossless.resume (h : s.Lossless) (hjoined : s.running = false → s.worker = .joined) :
    s.resume.Lossless := by
  unfold CommonLog.resume
  split_ifs with hrun hw
  · exact h
  · obtain ⟨pending, hadded, hitems, hnil⟩ := h.queued
    obtain rfl := hnil (by simp [hw])
    refine ⟨h.not_terminated, fun _ => rfl, [], hadded, ?_, fun _ => rfl⟩
    simpa [items, marker, hw] using hitems
  · exact absurd (hjoined (by simpa using hrun)) hw

theorem Lossless.join (h : s.Lossless) (hjoin : s.join = some s') : s'.Lossless := by
  unfold CommonLog.join at hjoin
  split_ifs at hjoin with hw
  obtain rfl := Option.some.inj hjoin
  obtain ⟨pending, hadded, hitems, hnil⟩ := h.queued
  obtain rfl := hnil (by simp [hw])
  refine ⟨h.not_terminated, fun hrun => ?_, [], hadded, ?_, fun _ => rfl⟩
  · have := h.working hrun
    simp [hw] at this
  · simpa [items, marker, hw] using hitems

/-- An action loses nothing exactly when it fits. -/
theorem lossless_step_iff (h : s.Lossless) (hstep : s.step a = some s') :
    s'.Lossless ↔ s.Fits a := by
  unfold step at hstep
  rw [if_neg (by simp [h.not_terminated])] at hstep
  rcases a with call | _ | _ | _ | _ | value | value
  · obtain rfl := Option.some.inj hstep
    exact iff_of_true (h.add call) trivial
  · exact iff_of_true (h.take hstep) trivial
  · obtain rfl := Option.some.inj hstep
    refine ⟨fun hl hrun => ?_, h.pause⟩
    by_contra hfull
    have hlt := s.ring.count_lt
    have hempty := RingBuffer.contents_eq_nil _
      (s.ring.push_full (fun entry => { entry with isEnd := true }) (by omega))
    obtain ⟨pending, -, hitems, -⟩ := hl.queued
    simp [items, marker, CommonLog.pause, hrun, h.working hrun, hempty] at hitems
  · exact iff_of_true (h.join hstep) trivial
  · obtain rfl := Option.some.inj hstep
    refine ⟨fun hl hrun => ?_, h.resume⟩
    by_contra hw
    have hterm := hl.not_terminated
    simp [CommonLog.resume, hrun, hw] at hterm
  · obtain rfl := Option.some.inj hstep
    exact iff_of_true ⟨h.not_terminated, h.working, h.queued⟩ trivial
  · obtain rfl := Option.some.inj hstep
    exact iff_of_true ⟨h.not_terminated, h.working, h.queued⟩ trivial

/-- The join of a paused log returns after as many turns of the worker as there are entries, and
then all that was added is printed. -/
def JoinReturns (s : CommonLog) : Prop :=
  ∃ s', Transition.exec step s (List.replicate s.ring.count .take ++ [.join]) = some s' ∧
    s'.worker = .joined ∧ s'.printed = s.added

theorem exec_takes : ∀ {pending : List LogMessage} {s : CommonLog}, s.terminated = false →
    s.worker = .working → s.items = pending.map some ++ [none] →
      ∃ s', Transition.exec step s (List.replicate (pending.length + 1) .take ++ [.join]) = some s' ∧
        s'.worker = .joined ∧ s'.printed = s.printed ++ pending
  | [], s, hterm, hw, hitems => by
    obtain ⟨s', hs'⟩ := exists_take hw (by simp [hitems])
    obtain ⟨-, ring, ⟨m, hm, -⟩ | ⟨-, rfl⟩⟩ := take_cases hs'
    · simp [hm] at hitems
    · have hstep : s.step .take = some { s with ring, worker := .ended } := by
        simpa [step, hterm] using hs'
      refine ⟨{ s with ring, worker := .joined }, ?_, rfl, (List.append_nil _).symm⟩
      change Transition.exec step s [.take, .join] = _
      rw [Transition.exec, hstep]
      simp [Transition.exec, step, CommonLog.join, hterm]
  | m :: pending, s, hterm, hw, hitems => by
    obtain ⟨s', hs'⟩ := exists_take hw (by simp [hitems])
    obtain ⟨-, ring, ⟨m', hm, rfl⟩ | ⟨hm, -⟩⟩ := take_cases hs'
    · rw [hm] at hitems
      obtain ⟨hmm, hrest⟩ := List.cons.inj hitems
      obtain rfl := Option.some.inj hmm
      obtain ⟨s'', hs'', hw'', hprinted⟩ := exec_takes
        (s := { s with ring, printed := s.printed ++ [m'] }) hterm hw hrest
      have hstep : s.step .take = some { s with ring, printed := s.printed ++ [m'] } := by
        simpa [step, hterm] using hs'
      refine ⟨s'', ?_, hw'', ?_⟩
      · rw [List.length_cons, List.replicate_succ, List.cons_append, Transition.exec, hstep]
        exact hs''
      · rw [hprinted, List.append_assoc]
        rfl
    · simp [hm] at hitems

theorem Lossless.joinReturns (h : s.Lossless) (hrun : s.running = false)
    (hw : s.worker = .working) : s.JoinReturns := by
  obtain ⟨pending, hadded, hitems, -⟩ := h.queued
  rw [marker, if_pos ⟨hrun, hw⟩] at hitems
  have hcount : s.ring.count = pending.length + 1 := by
    have hlen := congrArg List.length hitems
    simpa [items, RingBuffer.length_contents] using hlen
  obtain ⟨s', hs', hjoined, hprinted⟩ := exec_takes h.not_terminated hw hitems
  exact ⟨s', by rw [hcount]; exact hs', hjoined, by rw [hprinted, hadded]⟩

theorem lossless_init {capacity : Nat} (hpos : 0 < capacity) : (init capacity hpos).Lossless := by
  refine ⟨rfl, fun _ => rfl, [], rfl, ?_, fun _ => rfl⟩
  have hempty : (init capacity hpos).ring.contents = [] := RingBuffer.contents_eq_nil _ rfl
  rw [items, hempty]
  rfl

/-- In every run whose actions fit, the ring is what was added and not yet taken, with the end
marker after it once the log is paused, and the join of a paused log returns. -/
theorem log_loses_nothing {capacity : Nat} (hpos : 0 < capacity) {s : CommonLog}
    (h : Transition.Reachable (· = init capacity hpos)
      (Transition.Guarded Fits fun s a s' => s.step a = some s') s) :
    s.Lossless ∧ (s.running = false → s.worker = .working → s.JoinReturns) := by
  have hl : s.Lossless :=
    h.invariant (I := Lossless) (by rintro _ rfl; exact lossless_init hpos)
      fun _ _ _ hinv hs => (lossless_step_iff hinv hs.2).2 hs.1
  exact ⟨hl, hl.joinReturns⟩

/-- A call that logs a short text. -/
def hello : LogCall := { level := .info, text := ⟨[104, 105], by decide⟩, time := 0 }

theorem log_loses_nothing_hello : ∃ s : CommonLog, (s.added.length = 1 ∧ s.running = false) ∧
    s.Lossless ∧ (s.running = false → s.worker = .working → s.JoinReturns) :=
  ⟨((init 3 (by decide)).add hello).pause, by decide, log_loses_nothing (by decide)
    ⟨_, [.add hello, .pause], rfl, .cons ⟨trivial, rfl⟩ (.single ⟨fun _ => by decide, rfl⟩)⟩⟩

/-- With one message in a ring of two entries, `pause` loses it and its own marker. -/
theorem log_loses_messages :
    ¬ ∀ (capacity : Nat) (hpos : 0 < capacity) (s : CommonLog),
      Transition.Reachable (· = init capacity hpos) (fun s a s' => s.step a = some s') s →
        s.Lossless ∧ (s.running = false → s.worker = .working → s.JoinReturns) := by
  intro h
  have hl := (h 2 Nat.two_pos _ ⟨_, [.add hello, .pause], rfl, .cons rfl (.single rfl)⟩).1
  have hfits : Fits ((init 2 Nat.two_pos).add hello) .pause :=
    (lossless_step_iff ((lossless_init Nat.two_pos).add hello) rfl).1 hl
  exact absurd (hfits rfl) (by decide)

end CommonLog

end LamaServer
