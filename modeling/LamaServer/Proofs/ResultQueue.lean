import Mathlib.Data.Finset.Lattice.Lemmas
import Mathlib.Data.List.Basic
import LamaServer.Lib.Index
import LamaServer.ResultQueue

/-!
# What is left in the result queue

A handler *holds* the ids that are waiting on its behalf. Every waiting id is held by a handler
and every queued result waits for its handler, as long as no handler gives up an id it holds while
the queue still knows it; the ids of different handlers differ.
-/

namespace LamaServer

namespace ServerResponse

variable {q q' : ServerResponse} {res : TaskResult} {ids : List Int}

/-- Somebody waits for every queued result. -/
def Awaited (q : ServerResponse) : Prop := ∀ res ∈ q.queueResults, res.id ∈ q.waitingTaskIds

theorem Awaited.send (h : q.Awaited) (res : TaskResult) : (q.send res).Awaited := by
  unfold ServerResponse.send
  split_ifs with hid
  · intro r hr
    rcases List.mem_append.1 hr with hr | hr
    · exact h r hr
    · rw [List.mem_singleton.1 hr]
      exact hid
  · exact h

theorem send_waitingTaskIds (q : ServerResponse) (res : TaskResult) :
    (q.send res).waitingTaskIds = q.waitingTaskIds := by
  unfold ServerResponse.send
  split_ifs <;> rfl

theorem recv_cases (h : q.recv ids = some (res, q')) :
    q'.waitingTaskIds = q.waitingTaskIds ∧ q'.queueResults ⊆ q.queueResults := by
  simp only [recv, Option.map_eq_some_iff, Prod.mk.injEq] at h
  obtain ⟨_, -, -, rfl⟩ := h
  exact ⟨rfl, List.eraseP_subset⟩

theorem removeWaitingTaskId_foldl : ∀ (ids : List Int) (q : ServerResponse),
    ids.foldl removeWaitingTaskId q = {
      waitingTaskIds := q.waitingTaskIds \ ids.toFinset
      queueResults := q.queueResults.filter (·.id ∉ ids) }
  | [], q => by simp
  | id :: ids, q => by
    rw [List.foldl_cons, removeWaitingTaskId_foldl ids]
    simp only [removeWaitingTaskId, List.filter_filter, mk.injEq]
    refine ⟨?_, List.filter_congr fun res _ => by simp [Bool.and_comm]⟩
    ext i
    simp only [Finset.mem_sdiff, Finset.mem_erase, List.mem_toFinset, List.mem_cons, not_or]
    tauto

end ServerResponse

/-- The ids that wait on the handler's behalf. -/
def Phase.held : Phase → List Int
  | .receiving ids _ => ids
  | .cancelling _ todo => todo
  | .leaving ids false => ids
  | _ => []

/-- The ids the handler still knows. -/
def Phase.known : Phase → List Int
  | .creating ids => ids
  | .receiving ids _ => ids
  | .cancelling ids todo => ids ++ todo
  | .leaving ids _ => ids
  | _ => []

namespace Phase

variable {ids : List Int} {n : Nat} {closed ok : Bool} {res : TaskResult} {p : Phase}

theorem held_subset_known : ∀ p : Phase, p.held ⊆ p.known
  | .receiving _ _ | .leaving _ false => List.Subset.refl _
  | .cancelling ids _ => List.subset_append_right ids _
  | .creating _ | .leaving _ true | .done | .returned => List.nil_subset _

theorem counted_held (ids : List Int) (n : Nat) : (counted ids n).held = ids := by
  unfold counted
  split_ifs <;> rfl

theorem counted_known (ids : List Int) (n : Nat) : (counted ids n).known = ids := by
  unfold counted
  split_ifs <;> rfl

/-- A handler that takes a result goes on holding its ids. -/
theorem of_receive {r : Receive} (h : r.receive ids n closed ok res = some p) :
    p.held = ids ∧ p.known ⊆ ids := by
  have hcancel : (Phase.cancelling ids ids).held = ids ∧ (Phase.cancelling ids ids).known ⊆ ids :=
    ⟨rfl, List.append_subset.2 ⟨List.Subset.refl _, List.Subset.refl _⟩⟩
  have hcounted : (counted ids (n + 1)).held = ids ∧ (counted ids (n + 1)).known ⊆ ids :=
    ⟨counted_held ids _, (counted_known ids _).symm ▸ List.Subset.refl _⟩
  cases r <;> simp only [Receive.receive] at h
  case recv =>
    obtain rfl := Option.some.inj h
    exact ⟨rfl, List.Subset.refl _⟩
  all_goals
    split_ifs at h <;> obtain rfl := Option.some.inj h
    all_goals first | exact hcancel | exact hcounted | exact ⟨rfl, List.Subset.refl _⟩

end Phase

theorem Removal.remove_cases (q : ServerResponse) (ids : List Int) : ∀ r : Removal,
    ((r.remove q ids).waitingTaskIds = q.waitingTaskIds \ ids.toFinset ∧
      (r = .removeWaitingTaskId ∧ (r.remove q ids).queueResults =
          q.queueResults.filter (·.id ∉ ids) ∨
        r = .removeWaitingTaskIds ∧ (r.remove q ids).queueResults = q.queueResults)) ∨
    r = .none ∧ r.remove q ids = q
  | .removeWaitingTaskId => by
    have hfold := ServerResponse.removeWaitingTaskId_foldl ids q
    exact .inl ⟨congrArg ServerResponse.waitingTaskIds hfold,
      .inl ⟨rfl, congrArg ServerResponse.queueResults hfold⟩⟩
  | .removeWaitingTaskIds => .inl ⟨rfl, .inr ⟨rfl, rfl⟩⟩
  | .none => .inr ⟨rfl, rfl⟩

namespace Handler

variable {h h' : Handler} {q q' : ServerResponse} {nextId nextId' : Int} {a : HandlerAction}

/-- What a step of a handler does: it numbers a task, adds its ids, cancels one, removes them, or
changes its phase without letting go of the ids it holds. -/
theorem step_cases (hs : h.step q nextId a = some (h', q', nextId')) :
    (∃ ids, h.phase = .creating ids ∧ q' = q ∧ nextId' = nextId + 1 ∧
      h' = { h with phase := .creating (ids ++ [nextId]), taskIds := h.taskIds ++ [nextId] }) ∨
    nextId' = nextId ∧
      ((∃ ids p, h.phase = .creating ids ∧ p.held = ids ∧ p.known = ids ∧
        h' = { h with phase := p } ∧ q' = q.addWaitingTasks ids) ∨
      (∃ ids id todo, h.phase = .cancelling ids (id :: todo) ∧
        h' = { h with phase := .cancelling ids todo } ∧ q' = q.removeWaitingTaskId id) ∨
      (∃ ids cancelled stage rest, a = .remove ∧ h.phase = .leaving ids cancelled ∧
        h.stages = stage :: rest ∧ h' = { h with phase := .done } ∧
        q' = stage.removal.remove q ids) ∨
      ∃ stages p, h.phase.held ⊆ p.held ∧ p.known ⊆ h.phase.known ∧
        h' = { h with stages := stages, phase := p } ∧ q'.waitingTaskIds = q.waitingTaskIds ∧
        q'.queueResults ⊆ q.queueResults) := by
  obtain ⟨stages, phase, taskIds⟩ := h
  cases a with
  | newId =>
    cases phase <;> simp only [step, Option.some.injEq, Prod.mk.injEq, reduceCtorEq] at hs
    obtain ⟨rfl, rfl, rfl⟩ := hs
    exact .inl ⟨_, rfl, rfl, rfl, rfl⟩
  | addWaiting =>
    cases phase <;> cases stages <;> simp only [step, reduceCtorEq] at hs
    rename_i ids stage rest
    split at hs
    · split at hs
      · rename_i id
        simp only [Option.some.injEq, Prod.mk.injEq] at hs
        obtain ⟨rfl, rfl, rfl⟩ := hs
        refine .inr ⟨rfl, .inl ⟨_, _, rfl, rfl, rfl, rfl, ?_⟩⟩
        simp only [ServerResponse.addWaitingTaskId, ServerResponse.addWaitingTasks,
          List.toFinset_cons, List.toFinset_nil, Finset.insert_eq, Finset.union_comm,
          Finset.empty_union]
      · cases hs
    · simp only [Option.some.injEq, Prod.mk.injEq] at hs
      obtain ⟨rfl, rfl, rfl⟩ := hs
      exact .inr ⟨rfl, .inl ⟨_, _, rfl, rfl, rfl, rfl, rfl⟩⟩
    · simp only [Option.some.injEq, Prod.mk.injEq] at hs
      obtain ⟨rfl, rfl, rfl⟩ := hs
      exact .inr ⟨rfl, .inl ⟨_, _, rfl, Phase.counted_held ids 0, Phase.counted_known ids 0, rfl,
        rfl⟩⟩
  | recv closed ok =>
    cases phase <;> cases stages <;> simp only [step, reduceCtorEq] at hs
    simp only [Option.bind_eq_some_iff, Option.map_eq_some_iff, Prod.mk.injEq] at hs
    obtain ⟨⟨res, q₁⟩, hrecv, p, hp, rfl, rfl, rfl⟩ := hs
    obtain ⟨hheld, hknown⟩ := Phase.of_receive hp
    obtain ⟨hwaiting, hqueue⟩ := ServerResponse.recv_cases hrecv
    exact .inr ⟨rfl, .inr (.inr (.inr ⟨_, p, hheld ▸ List.Subset.refl _, hknown, rfl, hwaiting,
      hqueue⟩))⟩
  | timeout closed =>
    cases phase <;> cases stages <;> simp only [step, reduceCtorEq] at hs
    rename_i ids n stage rest
    split_ifs at hs <;> simp only [Option.some.injEq, Prod.mk.injEq] at hs <;>
      obtain ⟨rfl, rfl, rfl⟩ := hs
    · exact .inr ⟨rfl, .inr (.inr (.inr ⟨_, .cancelling ids ids, List.Subset.refl _,
        List.append_subset.2 ⟨List.Subset.refl _, List.Subset.refl _⟩, rfl, rfl,
        List.Subset.refl _⟩))⟩
    · exact .inr ⟨rfl, .inr (.inr (.inr ⟨_, _, List.Subset.refl _, List.Subset.refl _, rfl, rfl,
        List.Subset.refl _⟩))⟩
  | drop =>
    cases phase <;> cases stages <;> simp only [step, reduceCtorEq] at hs
    rename_i ids n stage rest
    split_ifs at hs
    simp only [Option.some.injEq, Prod.mk.injEq] at hs
    obtain ⟨rfl, rfl, rfl⟩ := hs
    exact .inr ⟨rfl, .inr (.inr (.inr ⟨_, .leaving ids false, List.Subset.refl _,
      List.Subset.refl _, rfl, rfl, List.Subset.refl _⟩))⟩
  | cancel =>
    cases phase <;> simp only [step, reduceCtorEq] at hs
    rename_i ids todo
    cases todo <;> simp only [Option.some.injEq, Prod.mk.injEq] at hs <;>
      obtain ⟨rfl, rfl, rfl⟩ := hs
    · exact .inr ⟨rfl, .inr (.inr (.inr ⟨_, .leaving ids true, List.nil_subset _,
        List.subset_append_left ids [], rfl, rfl, List.Subset.refl _⟩))⟩
    · exact .inr ⟨rfl, .inr (.inl ⟨_, _, _, rfl, rfl, rfl⟩)⟩
  | remove =>
    cases phase <;> cases stages <;> simp only [step, reduceCtorEq] at hs
    simp only [Option.some.injEq, Prod.mk.injEq] at hs
    obtain ⟨rfl, rfl, rfl⟩ := hs
    exact .inr ⟨rfl, .inr (.inr (.inl ⟨_, _, _, _, rfl, rfl, rfl, rfl, rfl⟩))⟩
  | next =>
    cases phase <;> rcases stages with _ | ⟨stage, _ | ⟨stage', rest⟩⟩ <;>
      simp only [step, reduceCtorEq] at hs
    all_goals
      simp only [Option.some.injEq, Prod.mk.injEq] at hs
      obtain ⟨rfl, rfl, rfl⟩ := hs
      exact .inr ⟨rfl, .inr (.inr (.inr ⟨_, _, List.nil_subset _, List.nil_subset _, rfl, rfl,
        List.Subset.refl _⟩))⟩
  | quit =>
    cases phase <;> simp only [step, reduceCtorEq] at hs
    all_goals
      simp only [Option.some.injEq, Prod.mk.injEq] at hs
      obtain ⟨rfl, rfl, rfl⟩ := hs
      exact .inr ⟨rfl, .inr (.inr (.inr ⟨_, _, List.nil_subset _, List.nil_subset _, rfl, rfl,
        List.Subset.refl _⟩))⟩

/-- The handler got the ids it knows. -/
def Owns (h : Handler) : Prop := h.phase.known ⊆ h.taskIds

theorem Owns.step (ho : h.Owns) (hs : h.step q nextId a = some (h', q', nextId')) : h'.Owns := by
  obtain ⟨ids, hp, -, -, rfl⟩ | ⟨-, ⟨ids, p, hp, -, hknown, rfl, -⟩ | ⟨ids, id, todo, hp, rfl, -⟩ |
    ⟨ids, c, stage, rest, -, hp, -, rfl, -⟩ | ⟨stages, p, -, hknown, rfl, -, -⟩⟩ := step_cases hs
  · simp only [Owns, hp, Phase.known] at ho
    exact List.append_subset.2 ⟨List.Subset.trans ho (List.subset_append_left _ _),
      List.subset_append_right _ _⟩
  · simp only [Owns, hp, Phase.known] at ho
    simpa only [Owns, hknown] using ho
  · simp only [Owns, hp, Phase.known, List.append_subset, List.cons_subset] at ho
    exact List.append_subset.2 ⟨ho.1, ho.2.2⟩
  · exact List.nil_subset _
  · exact List.Subset.trans hknown ho

theorem step_taskIds (hs : h.step q nextId a = some (h', q', nextId')) :
    h'.taskIds = h.taskIds ∧ nextId' = nextId ∨
    h'.taskIds = h.taskIds ++ [nextId] ∧ nextId' = nextId + 1 := by
  obtain ⟨ids, -, -, rfl, rfl⟩ | ⟨rfl, ⟨ids, p, -, -, -, rfl, -⟩ | ⟨ids, id, todo, -, rfl, -⟩ |
    ⟨ids, c, stage, rest, -, -, -, rfl, -⟩ | ⟨stages, p, -, -, rfl, -, -⟩⟩ := step_cases hs
  · exact .inr ⟨rfl, rfl⟩
  all_goals exact .inl ⟨rfl, rfl⟩

/-- An id that waits after a step waits on the handler's behalf, or it waited before and not on
its behalf. -/
theorem step_waiting (hs : h.step q nextId a = some (h', q', nextId'))
    (htidy : a = .remove → h.leavesBehind q = false) {id : Int}
    (hid : id ∈ q'.waitingTaskIds) :
    id ∈ h'.phase.held ∨ id ∈ q.waitingTaskIds ∧ id ∉ h.phase.held := by
  obtain ⟨ids, hp, rfl, -, rfl⟩ | ⟨-, ⟨ids, p, hp, hheld, -, rfl, rfl⟩ |
    ⟨ids, i, todo, hp, rfl, rfl⟩ | ⟨ids, c, stage, rest, rfl, hp, hst, rfl, rfl⟩ |
    ⟨stages, p, hheld, -, rfl, hw, -⟩⟩ := step_cases hs
  · exact .inr ⟨hid, by simp [hp, Phase.held]⟩
  · rcases Finset.mem_union.1 hid with hid | hid
    · exact .inr ⟨hid, by simp [hp, Phase.held]⟩
    · exact .inl (hheld ▸ List.mem_toFinset.1 hid)
  · obtain ⟨hne, hid⟩ := Finset.mem_erase.1 hid
    by_cases htodo : id ∈ todo
    · exact .inl htodo
    · exact .inr ⟨hid, by simp [hp, Phase.held, hne, htodo]⟩
  · have hheld : h.phase.held ⊆ ids := by
      rw [hp]
      exact Phase.held_subset_known (.leaving ids c)
    obtain ⟨hw, -⟩ | ⟨hnone, hq⟩ := stage.removal.remove_cases q ids
    · rw [hw, Finset.mem_sdiff, List.mem_toFinset] at hid
      exact .inr ⟨hid.1, fun hmem => hid.2 (hheld hmem)⟩
    · -- nothing is removed, so it had cancelled its tasks
      rw [hq] at hid
      refine .inr ⟨hid, fun hmem => ?_⟩
      have hleft := htidy rfl
      simp only [leavesBehind, hp, hst, hnone, Bool.and_eq_false_iff, Bool.not_eq_false',
        List.isEmpty_iff] at hleft
      rcases hleft with rfl | rfl
      · simp [hp, Phase.held] at hmem
      · simpa using hheld hmem
  · rw [hw] at hid
    by_cases hmem : id ∈ h.phase.held
    · exact .inl (hheld hmem)
    · exact .inr ⟨hid, hmem⟩

theorem step_awaited (hs : h.step q nextId a = some (h', q', nextId'))
    (htidy : a = .remove → h.leavesBehind q = false) (hq : q.Awaited) : q'.Awaited := by
  obtain ⟨-, -, rfl, -, -⟩ | ⟨-, ⟨ids, -, -, -, -, -, rfl⟩ | ⟨ids, i, todo, -, -, rfl⟩ |
    ⟨ids, c, stage, rest, rfl, hp, hst, -, rfl⟩ | ⟨-, -, -, -, -, hw, hqueue⟩⟩ := step_cases hs
  · exact hq
  · exact fun res hres => Finset.mem_union_left _ (hq res hres)
  · intro res hres
    obtain ⟨hres, hne⟩ := List.mem_filter.1 hres
    exact Finset.mem_erase.2 ⟨by simpa using hne, hq res hres⟩
  · obtain ⟨hw, ⟨-, hqueue⟩ | ⟨hids, hqueue⟩⟩ | ⟨-, hq'⟩ := stage.removal.remove_cases q ids
    · intro res hres
      rw [hqueue, List.mem_filter, decide_eq_true_eq] at hres
      rw [hw, Finset.mem_sdiff, List.mem_toFinset]
      exact ⟨hq res hres.1, hres.2⟩
    · intro res hres
      rw [hqueue] at hres
      have hleft := htidy rfl
      simp only [leavesBehind, hp, hst, hids, List.any_eq_false, decide_eq_true_eq] at hleft
      rw [hw, Finset.mem_sdiff, List.mem_toFinset]
      exact ⟨hq res hres, hleft res hres⟩
    · rw [hq']
      exact hq
  · intro res hres
    rw [hw]
    exact hq res (hqueue hres)

end Handler

namespace ResultSystem

variable {s s' : ResultSystem} {h : Handler}

structure Inv (s : ResultSystem) : Prop where
  awaited : s.results.Awaited
  owns : ∀ h ∈ s.handlers, h.Owns
  held : ∀ id ∈ s.results.waitingTaskIds, ∃ h ∈ s.handlers, id ∈ h.phase.held
  fresh : ∀ h ∈ s.handlers, ∀ id ∈ h.taskIds, id < s.nextId
  apart : ∀ (i j : Nat) (h k : Handler), s.handlers[i]? = some h → s.handlers[j]? = some k →
    ∀ id ∈ h.taskIds, id ∈ k.taskIds → i = j

theorem inv_init : ({} : ResultSystem).Inv :=
  ⟨by simp [ServerResponse.Awaited], by simp, by simp, by simp, by simp⟩

theorem Inv.request (hI : s.Inv) (endpoint : Endpoint) :
    { s with handlers := s.handlers ++ [{ stages := endpoint.stages }] : ResultSystem }.Inv := by
  have hold {j : Nat} {k : Handler} {id : Int} (hid : id ∈ k.taskIds)
      (hj : (s.handlers ++ [{ stages := endpoint.stages }])[j]? = some k) :
      s.handlers[j]? = some k := by
    rcases Index.getElem?_concat_iff.1 hj with ⟨-, rfl⟩ | hj
    · simp at hid
    · exact hj
  refine ⟨hI.awaited, fun k hk => ?_, fun id hid => ?_, fun k hk id hid => ?_,
    fun i j h k hi hj id hid hid' => hI.apart i j h k (hold hid hi) (hold hid' hj) id hid hid'⟩
  · rcases List.mem_append.1 hk with hk | hk
    · exact hI.owns k hk
    · rw [List.mem_singleton.1 hk]
      exact List.nil_subset _
  · obtain ⟨k, hk, hkid⟩ := hI.held id hid
    exact ⟨k, List.mem_append_left _ hk, hkid⟩
  · obtain ⟨j, hj⟩ := List.mem_iff_getElem?.1 hk
    exact hI.fresh k (List.mem_of_getElem? (hold hid hj)) id hid

theorem Inv.step (hI : s.Inv) {a : ResultAction} (htidy : a.tidy s) (hs : s.step a = some s') :
    s'.Inv := by
  cases a with
  | request endpoint =>
    obtain rfl := Option.some.inj hs
    exact hI.request endpoint
  | send result =>
    obtain rfl := Option.some.inj hs
    refine ⟨hI.awaited.send result, hI.owns, ?_, hI.fresh, hI.apart⟩
    simpa only [ServerResponse.send_waitingTaskIds] using hI.held
  | handler i a =>
    simp only [ResultSystem.step, Option.bind_eq_some_iff, Option.map_eq_some_iff] at hs
    obtain ⟨h, hi, ⟨h', q', nextId'⟩, hstep, rfl⟩ := hs
    have hmem : h ∈ s.handlers := List.mem_of_getElem? hi
    have hleft : a = .remove → h.leavesBehind s.results = false := by
      rintro rfl
      simpa [ResultAction.tidy, hi] using htidy
    have htaskIds := Handler.step_taskIds hstep
    have hids : ∀ id ∈ h'.taskIds, id ∈ h.taskIds ∨ id = s.nextId ∧ nextId' = s.nextId + 1 := by
      intro id hid
      rcases htaskIds with ⟨heq, -⟩ | ⟨heq, hnext⟩ <;> rw [heq] at hid
      · exact .inl hid
      · rcases List.mem_append.1 hid with hid | hid
        · exact .inl hid
        · exact .inr ⟨List.mem_singleton.1 hid, hnext⟩
    have hle : s.nextId ≤ nextId' := by omega
    have happart {j : Nat} {k : Handler} {id : Int} (hj : s.handlers[j]? = some k)
        (hid : id ∈ h'.taskIds) (hid' : id ∈ k.taskIds) : i = j := by
      rcases hids id hid with hid | ⟨rfl, -⟩
      · exact hI.apart i j h k hi hj id hid hid'
      · exact absurd (hI.fresh k (List.mem_of_getElem? hj) _ hid') (lt_irrefl _)
    refine ⟨Handler.step_awaited hstep hleft hI.awaited, fun k hk => ?_, fun id hid => ?_,
      fun k hk id hid => ?_, fun j₁ j₂ k₁ k₂ h₁ h₂ id hid₁ hid₂ => ?_⟩
    · rcases Index.mem_set_cases hi hk with rfl | ⟨j, -, hj⟩
      · exact (hI.owns h hmem).step hstep
      · exact hI.owns k (List.mem_of_getElem? hj)
    · rcases Handler.step_waiting hstep hleft hid with hheld | ⟨hid, hheld⟩
      · exact ⟨h', Index.mem_set_self hi, hheld⟩
      · obtain ⟨k, hk, hkid⟩ := hI.held id hid
        obtain ⟨j, hj⟩ := List.mem_iff_getElem?.1 hk
        have hne : j ≠ i := by
          rintro rfl
          rw [hi, Option.some.injEq] at hj
          exact hheld (hj ▸ hkid)
        exact ⟨k, Index.mem_set_of_ne hi hj hne, hkid⟩
    · rcases Index.mem_set_cases hi hk with rfl | ⟨j, -, hj⟩
      · rcases hids id hid with hid | ⟨rfl, hnext⟩
        · exact (hI.fresh h hmem id hid).trans_le hle
        · show s.nextId < nextId'
          omega
      · exact (hI.fresh k (List.mem_of_getElem? hj) id hid).trans_le hle
    · rcases (Index.getElem?_set_iff hi).1 h₁ with ⟨rfl, rfl⟩ | ⟨-, hj₁⟩ <;>
        rcases (Index.getElem?_set_iff hi).1 h₂ with ⟨rfl, rfl⟩ | ⟨-, hj₂⟩
      · rfl
      · exact happart hj₂ hid₁ hid₂
      · exact (happart hj₁ hid₂ hid₁).symm
      · exact hI.apart j₁ j₂ k₁ k₂ hj₁ hj₂ id hid₁ hid₂

/-- A handler that has returned left nothing in the queue: another holds what waits there. -/
theorem Inv.leftClean (hI : s.Inv) {i : Nat} (hi : s.handlers[i]? = some h)
    (hret : h.phase = .returned) : s.LeftClean h := by
  intro id hid
  have hwait : id ∉ s.results.waitingTaskIds := fun hw => by
    obtain ⟨k, hk, hkid⟩ := hI.held id hw
    obtain ⟨j, hj⟩ := List.mem_iff_getElem?.1 hk
    have hown : id ∈ k.taskIds := hI.owns k hk (Phase.held_subset_known _ hkid)
    obtain rfl := hI.apart i j h k hi hj id hid hown
    obtain rfl := Option.some.inj (hi.symm.trans hj)
    simp [hret, Phase.held] at hkid
  exact ⟨hwait, fun res hres hne => hwait (hne ▸ hI.awaited res hres)⟩

/-! ## The law and where it fails -/

/-- Every queued result is waited for, and when all handlers have returned, the queue holds nothing
of theirs. -/
structure Hygienic (s : ResultSystem) : Prop where
  awaited : s.results.Awaited
  returned : (∀ h ∈ s.handlers, h.phase = .returned) → ∀ h ∈ s.handlers, s.LeftClean h

def HygieneLaw : Prop := ∀ s : ResultSystem, s.Reached → s.Hygienic

/-- The states of the runs in which no handler finishes a stage with something left behind. -/
def TidyReached : ResultSystem → Prop :=
  Transition.Reachable (· = {})
    (Transition.Guarded (fun s a => a.tidy s = true) fun s a s' => s.step a = some s')

/-- A completion gets its answer while the client of a reranking disconnects. -/
def tidyActions : List ResultAction :=
  [.request (.completions false), .request .rerank, .handler 0 .newId, .handler 1 .newId,
    .handler 1 .newId, .handler 0 .addWaiting, .handler 1 .addWaiting, .send ⟨0, 0, .cmplFinal⟩,
    .send ⟨2, 1, .rerank⟩, .handler 0 (.recv false true), .handler 1 (.timeout true),
    .handler 1 .cancel, .handler 0 .remove, .handler 1 .cancel, .handler 1 .cancel,
    .handler 1 .remove, .handler 0 .next, .handler 1 .next]

def tidyExec : Option ResultSystem :=
  Transition.exec (fun s a => if a.tidy s = true then s.step a else none) {} tidyActions

/-- A reranking of one document that gets its answer. -/
def rerankActions : List ResultAction :=
  [.request .rerank, .handler 0 .newId, .handler 0 .addWaiting, .send ⟨0, 0, .rerank⟩,
    .handler 0 (.recv false true), .handler 0 .remove, .handler 0 .next]

end ResultSystem

end LamaServer
