import LamaServer.Lib.SlidingWindow
import LamaServer.SamplingRing

/-!
# The ring of accepted tokens is a bounded deque, but for its back

The class has what `SizedRing` has, in a vector. So all that it answers is read off from the list of
the entries, except that `back` reads the place that the next push will write.
-/

namespace LamaServer

variable {α : Type}

theorem set_map_range (f : Nat → α) (n p : Nat) (value : α) :
    ((List.range n).map f).set p value = (List.range n).map (Function.update f p value) := by
  refine List.ext_getElem (by simp) fun i h _ => ?_
  simp [List.getElem_set, Function.update_apply, eq_comm]

namespace SamplingRing

section Sized

variable (r : SizedRing α) (value : α)

/-- A ring as the class has it. -/
def ofSized : SamplingRing α :=
  ⟨r.capacity, r.sz, r.first, r.pos, (List.range r.capacity).map r.data⟩

theorem new_eq (cap : Nat) : new cap value = ofSized (.new cap value) := by
  simp [new, ofSized, SizedRing.new]

theorem entry_ofSized {i : Nat} (hi : i < r.capacity) : (ofSized r).entry i = .ok (r.data i) := by
  simp [entry, ofSized, hi, Except.ofOption]

variable (h : 0 < r.capacity)

include h

theorem wrap_ofSized (i : Nat) : (ofSized r).wrap i = .ok (i % r.capacity) :=
  if_neg (Nat.ne_of_gt h)

theorem entry_wrap (i : Nat) :
    ((ofSized r).wrap i >>= (ofSized r).entry) = .ok (r.data (i % r.capacity)) := by
  rw [wrap_ofSized r h, Except.ok_bind_eq, entry_ofSized r (Nat.mod_lt _ h)]

theorem toVector_ofSized : (ofSized r).toVector = .ok r.toList := by
  unfold toVector SizedRing.toList
  simp only [entry_wrap r h]
  exact List.mapM_pure

theorem front_ofSized :
    (ofSized r).front = .ofOption (.runtimeError "ring buffer is empty") r.toList.head? := by
  rw [← r.front_eq_head? h]
  unfold front SizedRing.front
  by_cases hsz : r.sz = 0
  · simp [ofSized, hsz, Except.ofOption, throw, throwThe, MonadExceptOf.throw]
  · rw [if_neg hsz, if_neg (show (ofSized r).sz ≠ 0 from hsz)]
    exact entry_ofSized r (r.first_lt h)

theorem rat_ofSized (i : Nat) : (ofSized r).rat i =
    .ofOption (.runtimeError "ring buffer: index out of bounds") r.toList.reverse[i]? := by
  rw [← r.rat_eq]
  unfold rat SizedRing.rat
  by_cases hi : i ≥ r.sz
  · simp [ofSized, hi, Except.ofOption, throw, throwThe, MonadExceptOf.throw, bind, Except.bind]
  · rw [if_neg hi, if_neg (show ¬ i ≥ (ofSized r).sz from hi)]
    exact entry_wrap r h _

theorem back_ofSized : (ofSized r).back =
    if r.sz = 0 then .error (.runtimeError "ring buffer is empty") else .ok (r.data r.pos) := by
  unfold back
  by_cases hsz : r.sz = 0
  · rw [if_pos hsz, if_pos (show (ofSized r).sz = 0 from hsz)]
    rfl
  · rw [if_neg hsz, if_neg (show (ofSized r).sz ≠ 0 from hsz)]
    exact entry_ofSized r (r.pos_lt h)

theorem pushBackCommon_ofSized :
    (ofSized r).pushBackCommon value = .ok (ofSized (r.pushBack h value)) := by
  have hstore : (ofSized r).store r.pos value =
      .ok ((List.range r.capacity).map (Function.update r.data r.pos value)) := by
    rw [store, if_pos (by simpa [ofSized] using r.pos_lt h), ← set_map_range]
    rfl
  unfold pushBackCommon
  rw [wrap_ofSized r h, wrap_ofSized r h, show (ofSized r).pos = r.pos from rfl, hstore]
  by_cases hfull : r.sz = r.capacity
  · rw [if_pos (show (ofSized r).sz = (ofSized r).capacity from hfull)]
    simp [ofSized, SizedRing.pushBack, hfull, bind, Except.bind, pure, Except.pure]
  · rw [if_neg (show (ofSized r).sz ≠ (ofSized r).capacity from hfull)]
    simp [ofSized, SizedRing.pushBack, hfull, bind, Except.bind, pure, Except.pure]

theorem popFront_ofSized (hsz : r.sz ≠ 0) :
    (ofSized r).popFront = .ok (r.data r.first, ofSized (r.popFront hsz)) := by
  unfold popFront
  rw [if_neg (show (ofSized r).sz ≠ 0 from hsz), wrap_ofSized r h,
    show (ofSized r).first = r.first from rfl, entry_ofSized r (r.first_lt h)]
  rfl

end Sized

theorem popFront_of_empty (s : SamplingRing α) (hsz : s.sz = 0) :
    s.popFront = .error (.runtimeError "ring buffer is empty") := by
  unfold popFront
  rw [if_pos hsz]
  rfl

theorem pushBackLlama_eq (s : SamplingRing α) (h : s.capacity ≠ 0) (value : α) :
    s.pushBackLlama value = s.pushBackCommon value := by
  unfold pushBackLlama
  rw [if_neg h]
  rfl

theorem step_copies (s : SamplingRing α) (h : s.capacity ≠ 0) (op : RingOp α) :
    s.step .llamaSampling op = s.step .commonSampling op := by
  cases op with
  | pushBack value => simp only [step, pushBack, pushBackLlama_eq s h]
  | popFront => rfl
  | clear => rfl

end SamplingRing

/-! ## Runs -/

open SamplingRing

/-- A ring of the class has these entries, and this in the places of its vector. -/
def RingHolds (cap : Nat) (s : SamplingRing α) (l : List α) (w : RingSlots α) : Prop :=
  ∃ r : SizedRing α, s = ofSized r ∧ r.capacity = cap ∧ r.toList = l ∧ r.pos = w.pushes % cap ∧
    r.data = w.slot

section Run

variable {cap : Nat} {s : SamplingRing α} {l : List α} {w : RingSlots α}

theorem RingHolds.new (value : α) : RingHolds cap (.new cap value) [] ⟨0, fun _ => value⟩ :=
  ⟨.new cap value, new_eq value cap, rfl, rfl, (Nat.zero_mod cap).symm, rfl⟩

theorem RingHolds.capacity_eq (hs : RingHolds cap s l w) : s.capacity = cap := by
  obtain ⟨r, rfl, hcap, -⟩ := hs
  exact hcap

theorem RingHolds.step (hcap : 0 < cap) (hs : RingHolds cap s l w) (copy : RingCopy)
    (op : RingOp α) : RingHolds cap (s.step copy op).1 (dequeStep cap l op) (w.step cap op) := by
  have hcopy : s.step copy op = s.step .commonSampling op := by
    cases copy
    · exact step_copies s (by rw [hs.capacity_eq]; omega) op
    · rfl
  rw [hcopy]
  obtain ⟨r, rfl, rfl, rfl, hpos, hdata⟩ := hs
  cases op with
  | pushBack value =>
    rw [SamplingRing.step, pushBack, pushBackCommon_ofSized r value hcap]
    refine ⟨r.pushBack hcap value, rfl, rfl, ?_, ?_, ?_⟩
    · rw [r.toList_pushBack hcap, dequeStep, r.length_toList]
    · change (r.pos + 1) % r.capacity = (w.pushes + 1) % r.capacity
      rw [hpos, Nat.mod_add_mod]
    · change Function.update r.data r.pos value =
        Function.update w.slot (w.pushes % r.capacity) value
      rw [hpos, hdata]
  | popFront =>
    rw [SamplingRing.step]
    by_cases hsz : r.sz = 0
    · rw [popFront_of_empty _ (show (ofSized r).sz = 0 from hsz)]
      refine ⟨r, rfl, rfl, ?_, hpos, hdata⟩
      rw [dequeStep, r.toList_eq_nil.2 hsz, List.tail_nil]
    · rw [popFront_ofSized r hcap hsz]
      exact ⟨r.popFront hsz, rfl, rfl, r.toList_popFront hsz, hpos, hdata⟩
  | clear => exact ⟨r.clear, rfl, rfl, rfl, (Nat.zero_mod _).symm, hdata⟩

theorem RingHolds.run (hcap : 0 < cap) (copy : RingCopy) :
    ∀ (ops : List (RingOp α)) {s : SamplingRing α} {l : List α} {w : RingSlots α},
      RingHolds cap s l w → RingHolds cap (s.run copy ops).1 (ops.foldl (dequeStep cap) l)
        (ops.foldl (RingSlots.step cap) w)
  | [], _, _, _, hs => hs
  | op :: ops, _, _, _, hs => RingHolds.run hcap copy ops (hs.step hcap copy op)

theorem RingHolds.run_copies (hcap : 0 < cap) :
    ∀ (ops : List (RingOp α)) {s : SamplingRing α} {l : List α} {w : RingSlots α},
      RingHolds cap s l w → s.run .llamaSampling ops = s.run .commonSampling ops
  | [], _, _, _, _ => rfl
  | op :: ops, s, _, _, hs => by
    have hstep := step_copies s (by rw [hs.capacity_eq]; omega) op
    unfold SamplingRing.run
    rw [hstep, RingHolds.run_copies hcap ops (hs.step hcap .commonSampling op)]

/-- `back` reads the place that the next push writes. -/
theorem RingHolds.back_eq (hcap : 0 < cap) (hs : RingHolds cap s l w) :
    s.back = .ofOption (.runtimeError "ring buffer is empty") l.getLast? ↔
      ∀ last ∈ l.getLast?, w.next cap = last := by
  obtain ⟨r, rfl, rfl, rfl, hpos, hdata⟩ := hs
  have hnext : w.next r.capacity = r.data r.pos := by
    rw [RingSlots.next, hpos, hdata]
  rw [back_ofSized r hcap, hnext]
  by_cases hsz : r.sz = 0
  · simp [hsz, r.toList_eq_nil.2 hsz, Except.ofOption]
  · obtain ⟨last, hlast⟩ : ∃ last, r.toList.getLast? = some last :=
      Option.isSome_iff_exists.1 (by simpa [r.toList_eq_nil] using hsz)
    simp [hsz, hlast, Except.ofOption]

/-- All the rest is answered as by the list. -/
theorem RingHolds.answersAs_iff (hcap : 0 < cap) (hs : RingHolds cap s l w) :
    AnswersAs s l ↔ ∀ last ∈ l.getLast?, w.next cap = last := by
  rw [← hs.back_eq hcap]
  refine ⟨fun h => h.back, fun hback => ?_⟩
  obtain ⟨r, rfl, rfl, rfl, -⟩ := hs
  constructor
  · exact toVector_ofSized r hcap
  · exact front_ofSized r hcap
  · exact hback
  · exact rat_ofSized r hcap
  · exact r.length_toList.symm
  · rw [Bool.eq_iff_iff, List.isEmpty_iff, r.toList_eq_nil]
    exact beq_iff_eq

/-- The next push writes over the oldest entry of a full ring. -/
theorem RingHolds.next_of_full (hcap : 0 < cap) (hs : RingHolds cap s l w)
    (hfull : l.length = cap) : l.head? = some (w.next cap) := by
  obtain ⟨r, rfl, rfl, rfl, hpos, hdata⟩ := hs
  have hsz : r.sz = r.capacity := r.length_toList.symm.trans hfull
  have hfirst : r.pos = r.first := by
    rw [r.pos_eq, hsz, Nat.add_mod_right, Nat.mod_eq_of_lt (r.first_lt hcap)]
  rw [← r.front_eq_head? hcap, SizedRing.front, if_neg (by omega), RingSlots.next, ← hpos, ← hdata,
    hfirst]

end Run

section Refines

variable {cap : Nat} (hcap : 0 < cap) (value : α) (ops : List (RingOp α))

include hcap

theorem holds_after (copy : RingCopy) :
    RingHolds cap ((SamplingRing.new cap value).run copy ops).1 (dequeAfter cap ops)
      (slotsAfter cap value ops) :=
  RingHolds.run hcap copy ops (.new value)

theorem refinesDeque_iff : RefinesDeque cap value ops ↔
    ∀ last ∈ (dequeAfter cap ops).getLast?, (slotsAfter cap value ops).next cap = last := by
  have hs := holds_after hcap value ops .commonSampling
  rw [← hs.answersAs_iff hcap]
  exact ⟨fun h => h.answers, fun h => ⟨RingHolds.run_copies hcap ops (.new value), h⟩⟩

/-- A full ring answers as the deque if its oldest entry is its last one. -/
theorem answersAs_of_full (hfull : (dequeAfter cap ops).length = cap) (copy : RingCopy) :
    AnswersAs ((SamplingRing.new cap value).run copy ops).1 (dequeAfter cap ops) ↔
      (dequeAfter cap ops).head? = (dequeAfter cap ops).getLast? := by
  have hs := holds_after hcap value ops copy
  rw [hs.answersAs_iff hcap, hs.next_of_full hcap hfull]
  obtain ⟨last, hlast⟩ : ∃ last, (dequeAfter cap ops).getLast? = some last := by
    have hne : dequeAfter cap ops ≠ [] := List.ne_nil_of_length_pos (by omega)
    exact ⟨_, List.getLast?_eq_some_getLast hne⟩
  simp [hlast]

end Refines

theorem refinesDeque_iff_one : (∀ last ∈ (dequeAfter 1 [.pushBack 5, .pushBack 7]).getLast?,
    (slotsAfter 1 0 [.pushBack 5, .pushBack 7]).next 1 = last) ∧
      RefinesDeque 1 0 [.pushBack 5, .pushBack 7] :=
  have h : ∀ last ∈ (dequeAfter 1 [.pushBack 5, .pushBack 7]).getLast?,
      (slotsAfter 1 0 [.pushBack 5, .pushBack 7]).next 1 = last := by decide
  ⟨h, (refinesDeque_iff Nat.one_pos 0 _).2 h⟩

/-- After one push on a ring of two places, `back` returns what is in the other one. -/
theorem not_refinesDeque : ¬ ∀ (cap : Nat) (value : Nat) (ops : List (RingOp Nat)), 0 < cap →
    RefinesDeque cap value ops := by
  intro h
  have hback := (h 2 0 [.pushBack 5] Nat.two_pos).answers.back
  have hread : ((SamplingRing.new 2 0).run .commonSampling [.pushBack 5]).1.back = .ok 0 := rfl
  rw [hread] at hback
  cases hback

end LamaServer
