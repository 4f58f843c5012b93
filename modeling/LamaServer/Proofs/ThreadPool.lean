import LamaServer.Lib.Transition
import LamaServer.Lib.WorkCounter
import LamaServer.ThreadPool

/-!
# A graph is computed phase by phase

A *round* is what the threads do between two barriers: at most one phase of a node. In whatever
order the threads take their steps, they are all in the same round, or behind it and about to leave
the barrier; so nothing of a phase is computed before the phases in front of it are complete, and
each item of a phase is computed once (`computes_inOrder`).
-/

namespace LamaServer

open Barrier (Counters Sync)
open WorkCounter (Shared)
open Transition (Reachable exec run_of_exec)

/-- What a thread has done in the current round: it holds its own number, a chunk, or nothing. -/
inductive RoundStatus
  | before | storing | holding (c : ℕ) | fetching | past

def RoundStatus.held (i : ℕ) : RoundStatus → Option ℕ
  | .before => some i
  | .holding c => some c
  | _ => none

namespace CpuPhase

variable {nth : ℕ}

/-- The numbers of the items of a phase that have been given out. -/
def given (nth counter : ℕ) : CpuPhase → ℕ
  | .part | .convert => nth
  | .chunks _ => counter

/-- What a phase leaves in the counter of the chunks. -/
def Ready (counter : ℕ) (status : Fin nth → RoundStatus) : CpuPhase → Prop
  | .part => True
  | .convert => ∀ i, i.val = 0 → status i = .past → counter = nth
  | .chunks nchunk => nth ≤ counter ∧ ∀ i, status i = .past → nchunk ≤ counter

end CpuPhase

namespace ThreadPool

variable {nth : ℕ} (nodes : List CpuNode)

def phasesAt (k : ℕ) : List CpuPhase := (nodes.getD k (.parts 0)).phases

/-- The items of a phase that have been computed. -/
def itemsOf (computed : List CpuItem) (k j : ℕ) : List ℕ :=
  (computed.filter fun x => x.node = k ∧ x.j = j).map (·.item)

def Before (a b : ℕ × ℕ) : Prop := a.1 < b.1 ∨ a.1 = b.1 ∧ a.2 < b.2

/-- The phase of a round, by where the round starts. -/
def phaseOf (abort : Int) : CpuPos → Option (ℕ × ℕ)
  | .check k => if k < nodes.length ∧ abort ≠ k then some (k, 0) else none
  | .phase k j => some (k, j)
  | _ => none

/-- Where the next round starts. -/
def nextRound : Option (ℕ × ℕ) → CpuPos
  | some (k, j) =>
    if j + 1 < (phasesAt nodes k).length then .phase k (j + 1)
    else if k + 1 < nodes.length then .check (k + 1)
    else .finished
  | none => .finished

/-- The phases in front of a round. -/
def boundOf (abort : Int) (aborted : Bool) : CpuPos → ℕ × ℕ
  | .check k => (k, 0)
  | .phase k j => (k, j)
  | _ => (if aborted then abort.toNat else nodes.length, 0)

/-- Where a thread of a status is; a thread is behind until it has left the last barrier. -/
def Located (start : CpuPos) (cur : Option (ℕ × ℕ)) (behind : Prop) (i : ℕ) (thread : CpuThread) :
    RoundStatus → Prop
  | .before => behind ∧ thread.pos = start ∨ ¬ behind ∧ thread.stage = .out ∧
      (thread.pos = start ∨ ∃ k j, cur = some (k, j) ∧ thread.pos = .phase k j)
  | .storing => ¬ behind ∧ thread.stage = .out ∧ i = 0 ∧ ∃ k j, cur = some (k, j) ∧
      (phasesAt nodes k)[j]? = some .convert ∧ thread.pos = .store k j
  | .holding c => ¬ behind ∧ thread.stage = .out ∧ ∃ k j nchunk, cur = some (k, j) ∧
      (phasesAt nodes k)[j]? = some (.chunks nchunk) ∧ thread.pos = .chunk k j c
  | .fetching => ¬ behind ∧ thread.stage = .out ∧ ∃ k j nchunk, cur = some (k, j) ∧
      (phasesAt nodes k)[j]? = some (.chunks nchunk) ∧ thread.pos = .fetch k j
  | .past => ¬ behind ∧ start ≠ .finished ∧
      (thread.stage ≠ .out ∧ thread.pos = nextRound nodes cur ∨
        thread.stage = .out ∧ ∃ k j, cur = some (k, j) ∧ (phasesAt nodes k).length ≤ j + 1 ∧
          (thread.pos = .phase k (j + 1) ∨ k + 1 = nodes.length ∧ thread.pos = .check (k + 1)))

/-- What has been computed in front of a round and in it. -/
structure Accounts (computed : List CpuItem) (counter : ℕ) (bound : ℕ × ℕ)
    (cur : Option (ℕ × ℕ)) (status : Fin nth → RoundStatus) : Prop where
  sorted : computed.Pairwise fun x y => x.node < y.node ∨ x.node = y.node ∧ x.j ≤ y.j
  began : ∀ x ∈ computed, (∃ ph, (phasesAt nodes x.node)[x.j]? = some ph) ∧
    (Before (x.node, x.j) bound ∨ cur = some (x.node, x.j))
  complete : ∀ k j ph, (phasesAt nodes k)[j]? = some ph → Before (k, j) bound →
    (itemsOf computed k j).Nodup ∧ ∀ c, c ∈ itemsOf computed k j ↔ c < ph.items nth
  current : ∀ k j ph, cur = some (k, j) → (phasesAt nodes k)[j]? = some ph →
    Shared (ph.items nth) (ph.given nth counter) (fun i => (status i).held i)
      (itemsOf computed k j) ∧ ph.Ready counter status

/-- Where a round can start. -/
def Starts : CpuPos → Prop
  | .check _ | .finished => True
  | .phase k j => j < (phasesAt nodes k).length
  | _ => False

/-- When the graph has been aborted, it is behind the node of the round, in its last phase. -/
def Aborts (abort : Int) (aborted : Bool) (start : CpuPos) : Prop :=
  if aborted then
    (∃ k j, phaseOf nodes abort start = some (k, j) ∧ abort = k + 1 ∧ k < nodes.length ∧
      (phasesAt nodes k).length ≤ j + 1) ∨
    (phaseOf nodes abort start = none ∧ 0 ≤ abort ∧ abort ≤ nodes.length ∧
      (start = .check abort.toNat ∨ start = .finished))
  else abort = -1

/-- The threads are in a round together. -/
structure Rounds (p : ThreadPool nth) (round : Fin nth → ℕ) (gen : ℕ) (start : CpuPos)
    (status : Fin nth → RoundStatus) : Prop where
  sync : Sync p.barrier (fun i => (p.threads i).stage) round gen
  single : nth = 1 → ∀ i, (p.threads i).stage = .out
  starts : Starts nodes start
  aborts : Aborts nodes p.abort p.aborted start
  located : ∀ i, Located nodes start (phaseOf nodes p.abort start) (round i ≠ gen) i (p.threads i)
    (status i)
  accounts : Accounts nodes p.computed p.currentChunk (boundOf nodes p.abort p.aborted start)
    (phaseOf nodes p.abort start) status

variable {nodes} {computed : List CpuItem} {counter k j : ℕ} {abort : Int} {aborted : Bool}
  {start : CpuPos} {cur : Option (ℕ × ℕ)} {status : Fin nth → RoundStatus} {ph : CpuPhase}
  {bound : ℕ × ℕ}

theorem phasesAt_parts (hk : nodes.length ≤ k) : phasesAt nodes k = [] := by
  unfold phasesAt
  rw [List.getD_eq_getElem?_getD, List.getElem?_eq_none hk]
  rfl

/-- A phase that exists is one of a node of the graph. -/
theorem lt_of_phasesAt (h : (phasesAt nodes k)[j]? = some ph) : k < nodes.length := by
  by_contra hk
  rw [phasesAt_parts (by omega)] at h
  simp at h

/-- The chunks of a matrix multiplication come behind its conversion. -/
theorem phases_chunks {node : CpuNode} {n : ℕ} (h : node.phases[j]? = some (.chunks n)) :
    ∃ i, j = i + 1 ∧ node.phases[i]? = some .convert := by
  rcases node with m | m
  · simp [CpuNode.phases, List.getElem?_replicate] at h
  · rcases j with _ | _ | j
    · simp [CpuNode.phases] at h
    · exact ⟨0, rfl, rfl⟩
    · simp [CpuNode.phases] at h

theorem before_phase_succ (x : ℕ × ℕ) :
    Before x (k, j + 1) ↔ Before x (k, j) ∨ x = (k, j) := by
  unfold Before
  rw [Prod.ext_iff]
  simp only
  omega

theorem mem_itemsOf {c : ℕ} : c ∈ itemsOf computed k j ↔ ⟨k, j, c⟩ ∈ computed := by
  unfold itemsOf
  simp only [List.mem_map, List.mem_filter, decide_eq_true_eq]
  constructor
  · rintro ⟨⟨_, _, _⟩, ⟨hx, rfl, rfl⟩, rfl⟩
    exact hx
  · intro hx
    exact ⟨_, ⟨hx, rfl, rfl⟩, rfl⟩

theorem itemsOf_append (c : ℕ) :
    itemsOf (computed ++ [⟨k, j, c⟩]) k j = itemsOf computed k j ++ [c] := by
  simp [itemsOf, List.filter_append]

theorem itemsOf_append_of_ne {k' j' : ℕ} (c : ℕ) (h : (k', j') ≠ (k, j)) :
    itemsOf (computed ++ [⟨k, j, c⟩]) k' j' = itemsOf computed k' j' := by
  have : ¬ (k = k' ∧ j = j') := fun ⟨h1, h2⟩ => h (by rw [h1, h2])
  simp [itemsOf, List.filter_append, this]

theorem not_before_self (x : ℕ × ℕ) : ¬ Before x x := by
  unfold Before
  omega

/-- In front of a round with a phase are the phases in front of that. -/
theorem boundOf_eq (h : phaseOf nodes abort start = some (k, j)) :
    boundOf nodes abort aborted start = (k, j) := by
  rcases start with k' | ⟨k', j'⟩ | ⟨k', j'⟩ | ⟨k', j', c⟩ | ⟨k', j'⟩ | _ <;> simp [phaseOf] at h
  · obtain ⟨-, rfl, rfl⟩ := h
    rfl
  · obtain ⟨rfl, rfl⟩ := h
    rfl

namespace Accounts

/-- An item of the round is computed. -/
theorem compute (h : Accounts nodes computed counter (k, j) (some (k, j)) status)
    (hph : (phasesAt nodes k)[j]? = some ph) {counter' c : ℕ} {status' : Fin nth → RoundStatus}
    (hshared : Shared (ph.items nth) (ph.given nth counter')
      (fun i => (status' i).held i) (itemsOf computed k j ++ [c]))
    (hready : ph.Ready counter' status') :
    Accounts nodes (computed ++ [⟨k, j, c⟩]) counter' (k, j) (some (k, j)) status' := by
  refine ⟨?_, fun x hx => ?_, fun k' j' ph' hph' hb => ?_, fun k' j' ph' hcur hph' => ?_⟩
  · rw [List.pairwise_append]
    refine ⟨h.sorted, List.pairwise_singleton _ _, fun x hx y hy => ?_⟩
    rw [List.mem_singleton.1 hy]
    rcases (h.began x hx).2 with hb | hcur
    · unfold Before at hb
      simp only at hb ⊢
      omega
    · simp only [Option.some.injEq, Prod.mk.injEq] at hcur
      simp only
      omega
  · rcases List.mem_append.1 hx with hx | hx
    · exact h.began x hx
    · rw [List.mem_singleton.1 hx]
      exact ⟨⟨ph, hph⟩, .inr rfl⟩
  · rw [itemsOf_append_of_ne]
    · exact h.complete k' j' ph' hph' hb
    · intro heq
      rw [heq] at hb
      exact not_before_self _ hb
  · obtain ⟨rfl, rfl⟩ := Prod.mk.injEq .. ▸ Option.some.inj hcur
    obtain rfl := Option.some.inj (hph.symm.trans hph')
    rw [itemsOf_append]
    exact ⟨hshared, hready⟩

/-- What a thread has done changes, but nothing is computed. -/
theorem restatus (h : Accounts nodes computed counter (k, j) (some (k, j)) status)
    {counter' : ℕ} {status' : Fin nth → RoundStatus}
    (hph : ∀ ph, (phasesAt nodes k)[j]? = some ph →
      Shared (ph.items nth) (ph.given nth counter') (fun i => (status' i).held i)
        (itemsOf computed k j) ∧ ph.Ready counter' status') :
    Accounts nodes computed counter' (k, j) (some (k, j)) status' := by
  refine ⟨h.sorted, h.began, h.complete, fun k' j' ph' hcur hph' => ?_⟩
  obtain ⟨rfl, rfl⟩ := Prod.mk.injEq .. ▸ Option.some.inj hcur
  exact hph ph' hph'

/-- The items of the phase of a round that is over are complete. -/
theorem complete_current (h : Accounts nodes computed counter (k, j) (some (k, j)) status)
    (hph : (phasesAt nodes k)[j]? = some ph) (hpast : ∀ i, status i = .past) (hnth : 0 < nth) :
    (itemsOf computed k j).Nodup ∧ ∀ c, c ∈ itemsOf computed k j ↔ c < ph.items nth := by
  obtain ⟨hshared, hready⟩ := h.current k j ph rfl hph
  refine ⟨hshared.nodup, fun c => hshared.mem_iff (fun i => ?_) ?_⟩
  · simp [hpast i, RoundStatus.held]
  · rcases ph with _ | _ | nchunk
    · exact le_rfl
    · exact le_rfl
    · exact hready.2 ⟨0, hnth⟩ (hpast _)

/-- The round is over, and another begins. -/
theorem next_round (h : Accounts nodes computed counter (k, j) (some (k, j)) status)
    (hpast : ∀ i, status i = .past) (hnth : 0 < nth) {bound' : ℕ × ℕ} {cur' : Option (ℕ × ℕ)}
    (hbound : ∀ k' j' ph, (phasesAt nodes k')[j']? = some ph →
      (Before (k', j') bound' ↔ Before (k', j') (k, j) ∨ (k', j') = (k, j)))
    (hcur : ∀ k' j', cur' = some (k', j') → bound' = (k', j') ∧
      ∀ n, (phasesAt nodes k')[j']? = some (.chunks n) →
        k' = k ∧ (phasesAt nodes k)[j]? = some .convert) :
    Accounts nodes computed counter bound' cur' (fun _ : Fin nth => .before) := by
  refine ⟨h.sorted, fun x hx => ?_, fun k' j' ph hph hb => ?_, fun k' j' ph hc hph => ?_⟩
  · obtain ⟨⟨ph, hph⟩, hx⟩ := h.began x hx
    refine ⟨⟨ph, hph⟩, .inl ((hbound _ _ ph hph).2 (hx.imp_right fun hx => ?_))⟩
    exact (Option.some.inj hx).symm
  · rcases (hbound k' j' ph hph).1 hb with hb | heq
    · exact h.complete k' j' ph hph hb
    · obtain ⟨rfl, rfl⟩ := Prod.mk.injEq .. ▸ heq
      exact h.complete_current hph hpast hnth
  · obtain ⟨rfl, hchunks⟩ := hcur k' j' hc
    have hnone : itemsOf computed k' j' = [] := by
      rw [List.eq_nil_iff_forall_not_mem]
      intro c hcm
      obtain ⟨⟨ph', hph'⟩, hx⟩ := h.began _ (mem_itemsOf.1 hcm)
      refine not_before_self _ ((hbound k' j' ph' hph').2 (hx.imp_right fun hx => ?_))
      exact (Option.some.inj hx).symm
    have hgiven : ph.given nth counter = nth := by
      rcases ph with _ | _ | n
      · rfl
      · rfl
      · obtain ⟨-, hconv⟩ := hchunks n hph
        exact (h.current k j _ rfl hconv).2 ⟨0, hnth⟩ rfl (hpast _)
    rw [hnone, hgiven]
    refine ⟨WorkCounter.shared_start nth _, ?_⟩
    rcases ph with _ | _ | n
    · trivial
    · exact fun i _ hi => by simp at hi
    · exact ⟨hgiven.ge, fun i hi => by simp at hi⟩

end Accounts

theorem lt_of_phaseOf (hstarts : Starts nodes start) (h : phaseOf nodes abort start = some (k, j)) :
    k < nodes.length := by
  rcases start with k' | ⟨k', j'⟩ | ⟨k', j'⟩ | ⟨k', j', c⟩ | ⟨k', j'⟩ | _ <;> simp [phaseOf] at h
  · obtain ⟨hk, rfl, -⟩ := h
    exact hk.1
  · obtain ⟨rfl, rfl⟩ := h
    have hlt : j' < (phasesAt nodes k').length := hstarts
    exact lt_of_phasesAt (List.getElem?_eq_getElem hlt)

/-- The round behind one without a phase: the threads finish. -/
theorem starts_next_none (hnone : phaseOf nodes abort start = none) (hstarts : Starts nodes start)
    (haborts : Aborts nodes abort aborted start)
    (hacc : Accounts nodes computed counter (boundOf nodes abort aborted start) none status) :
    Aborts nodes abort aborted .finished ∧
      Accounts nodes computed counter (boundOf nodes abort aborted .finished) none
        (fun _ : Fin nth => .before) := by
  have hbound : ∀ k' j' ph, (phasesAt nodes k')[j']? = some ph →
      (Before (k', j') (boundOf nodes abort aborted .finished) ↔
        Before (k', j') (boundOf nodes abort aborted start)) := fun k' j' ph hph => by
    have hlt := lt_of_phasesAt hph
    rcases start with k | ⟨k, j⟩ | ⟨k, j⟩ | ⟨k, j, c⟩ | ⟨k, j⟩ | _
    · unfold Aborts at haborts
      cases aborted
      · simp only [phaseOf, ite_eq_right_iff, reduceCtorEq, imp_false] at hnone
        simp only [Bool.false_eq_true, if_false] at haborts
        simp only [boundOf, Before, Bool.false_eq_true, if_false]
        omega
      · simp only [if_true, hnone, reduceCtorEq, false_and, exists_false, false_or, true_and,
          CpuPos.check.injEq, or_false] at haborts
        simp only [boundOf, if_true, haborts.2.2]
    · simp [phaseOf] at hnone
    · exact hstarts.elim
    · exact hstarts.elim
    · exact hstarts.elim
    · rfl
  refine ⟨?_, hacc.sorted, fun x hx => ?_, fun k' j' ph hph hb => ?_, fun k' j' ph hc => by cases hc⟩
  · unfold Aborts at haborts ⊢
    split_ifs at haborts ⊢ with hab
    · rcases haborts with ⟨k, j, hk, -⟩ | ⟨-, h0, hle, -⟩
      · rw [hnone] at hk
        cases hk
      · exact .inr ⟨rfl, h0, hle, .inr rfl⟩
    · exact haborts
  · obtain ⟨⟨ph, hph⟩, hx⟩ := hacc.began x hx
    refine ⟨⟨ph, hph⟩, .inl ((hbound _ _ ph hph).2 (hx.resolve_right ?_))⟩
    exact fun hc => by cases hc
  · exact hacc.complete k' j' ph hph ((hbound k' j' ph hph).1 hb)

/-- The round behind one with a phase. -/
theorem starts_next_some (hcur : phaseOf nodes abort start = some (k, j))
    (hstarts : Starts nodes start) (haborts : Aborts nodes abort aborted start)
    (hacc : Accounts nodes computed counter (boundOf nodes abort aborted start) (some (k, j))
      status) (hpast : ∀ i, status i = .past) (hnth : 0 < nth) {next : CpuPos}
    (hnext : next = nextRound nodes (some (k, j))) :
    Starts nodes next ∧ Aborts nodes abort aborted next ∧
      Accounts nodes computed counter (boundOf nodes abort aborted next)
        (phaseOf nodes abort next) (fun _ : Fin nth => .before) := by
  have hk := lt_of_phaseOf hstarts hcur
  rw [boundOf_eq hcur] at hacc
  simp only [nextRound] at hnext
  have hin : ∀ k' j' ph, (phasesAt nodes k')[j']? = some ph → j' < (phasesAt nodes k').length :=
    fun k' j' ph hph => (List.getElem?_eq_some_iff.1 hph).1
  have habort : aborted = true → (phasesAt nodes k).length ≤ j + 1 → abort = k + 1 := by
    rintro rfl -
    simp only [Aborts, if_true, hcur, reduceCtorEq, false_and, or_false] at haborts
    obtain ⟨k', j', heq, hab, -⟩ := haborts
    obtain ⟨rfl, rfl⟩ := Prod.mk.injEq .. ▸ Option.some.inj heq
    exact hab
  have hnotab : j + 1 < (phasesAt nodes k).length → aborted = false := fun hlen => by
    cases aborted
    · rfl
    · simp only [Aborts, if_true, hcur, reduceCtorEq, false_and, or_false] at haborts
      obtain ⟨k', j', heq, -, -, hle⟩ := haborts
      obtain ⟨rfl, rfl⟩ := Prod.mk.injEq .. ▸ Option.some.inj heq
      omega
  split_ifs at hnext with hj hk1
  · subst hnext
    have hab := hnotab hj
    subst hab
    refine ⟨hj, haborts, hacc.next_round hpast hnth (fun k' j' ph _ => ?_) fun k' j' heq => ?_⟩
    · exact before_phase_succ _
    · obtain ⟨rfl, rfl⟩ := Prod.mk.injEq .. ▸ Option.some.inj heq
      refine ⟨rfl, fun n hn => ⟨rfl, ?_⟩⟩
      obtain ⟨i, hi, hconv⟩ := phases_chunks hn
      obtain rfl : j = i := by omega
      exact hconv
  · subst hnext
    refine ⟨trivial, ?_, hacc.next_round hpast hnth (fun k' j' ph hph => ?_) fun k' j' heq => ?_⟩
    · cases aborted
      · exact haborts
      · have hab := habort rfl (by omega)
        refine .inr ⟨?_, by omega, by omega, .inl ?_⟩
        · simp [phaseOf, hab]
        · congr 1
          omega
    · have := hin k' j' ph hph
      simp only [boundOf, Before, Prod.ext_iff]
      constructor
      · intro hlt
        by_cases hkk : k' = k
        · subst hkk
          omega
        · omega
      · omega
    · simp only [phaseOf, Option.ite_none_right_eq_some, Option.some.injEq, Prod.mk.injEq] at heq
      obtain ⟨-, rfl, rfl⟩ := heq
      refine ⟨rfl, fun n hn => ?_⟩
      obtain ⟨i, hi, -⟩ := phases_chunks hn
      omega
  · subst hnext
    refine ⟨trivial, ?_, hacc.next_round hpast hnth (fun k' j' ph hph => ?_)
      fun k' j' heq => by cases heq⟩
    · cases aborted
      · exact haborts
      · have hab := habort rfl (by omega)
        exact .inr ⟨rfl, by omega, by omega, .inr rfl⟩
    · have hlt := hin k' j' ph hph
      have hkk' := lt_of_phasesAt hph
      have hbound : (if aborted then abort.toNat else nodes.length) = k + 1 := by
        split_ifs with hab
        · have := habort hab (by omega)
          omega
        · omega
      simp only [boundOf, hbound, Before, Prod.ext_iff]
      constructor
      · intro hlt
        by_cases hkk : k' = k
        · subst hkk
          omega
        · omega
      · omega

@[simp] theorem computed_goto (p : ThreadPool nth) (i : Fin nth) (pos : CpuPos) :
    (p.goto i pos).computed = p.computed := rfl

@[simp] theorem computed_compute (p : ThreadPool nth) (k j c : ℕ) :
    (p.compute k j c).computed = p.computed ++ [⟨k, j, c⟩] := rfl

@[simp] theorem computed_enter (p : ThreadPool nth) (i : Fin nth) (pos : CpuPos) :
    (p.enter i pos).computed = p.computed := by
  unfold ThreadPool.enter
  split_ifs <;> rfl

@[simp] theorem computed_afterPhase (p : ThreadPool nth) (i : Fin nth) (k j : ℕ) :
    (p.afterPhase nodes i k j).computed = p.computed := by
  unfold ThreadPool.afterPhase
  split_ifs <;> simp

@[simp] theorem computed_afterNode (p : ThreadPool nth) (i : Fin nth) (k : ℕ) (abort : Bool) :
    (p.afterNode nodes i k abort).computed = p.computed := by
  unfold ThreadPool.afterNode
  simp only
  split_ifs <;> simp

theorem stage_update (threads : Fin nth → CpuThread) (i : Fin nth) (thread : CpuThread) :
    (fun j => (Function.update threads i thread j).stage) =
      Function.update (fun j => (threads j).stage) i thread.stage :=
  funext fun j => Function.apply_update (fun _ => CpuThread.stage) threads i thread j

theorem held_update (i : Fin nth) (s : RoundStatus) :
    (fun j : Fin nth => (Function.update status i s j).held j) =
      Function.update (fun j => (status j).held j) i (s.held i) :=
  funext fun j => Function.apply_update (fun j s => RoundStatus.held j.val s) status i s j

theorem past_of_update {i i' : Fin nth} {s : RoundStatus} (hs : s ≠ .past)
    (h : Function.update status i s i' = .past) : status i' = .past := by
  by_cases hi : i' = i
  · subst hi
    rw [Function.update_self] at h
    exact absurd h hs
  · rwa [Function.update_of_ne hi] at h

namespace Rounds

variable {p q : ThreadPool nth} {round round' : Fin nth → ℕ} {gen : ℕ} {i : Fin nth}
  {thread : CpuThread} {s : RoundStatus} (h : Rounds nodes p round gen start status)

include h

/-- A thread in the barrier of the round has done its part. -/
theorem past_of_in (hi : (p.threads i).stage ≠ .out) (hr : round i = gen) :
    status i = .past ∧ start ≠ .finished ∧
      (p.threads i).pos = nextRound nodes (phaseOf nodes p.abort start) := by
  have hloc := h.located i
  rcases hst : status i with _ | _ | c | _ | _ <;> rw [hst] at hloc
  · rcases hloc with ⟨hb, -⟩ | ⟨-, hout, -⟩
    · exact absurd hr hb
    · exact absurd hout hi
  · exact absurd hloc.2.1 hi
  · exact absurd hloc.2.1 hi
  · exact absurd hloc.2.1 hi
  · obtain ⟨-, hfin, ⟨-, hpos⟩ | ⟨hout, -⟩⟩ := hloc
    · exact ⟨rfl, hfin, hpos⟩
    · exact absurd hout hi

/-- A thread takes a step in the round. -/
theorem update (hthreads : q.threads = Function.update p.threads i thread)
    (hsync : Sync q.barrier (Function.update (fun j => (p.threads j).stage) i thread.stage) round'
      gen) (hround : ∀ j, j ≠ i → round' j = round j) (hsingle : nth = 1 → thread.stage = .out)
    (hphase : phaseOf nodes q.abort start = phaseOf nodes p.abort start)
    (haborts : Aborts nodes q.abort q.aborted start)
    (hloc : Located nodes start (phaseOf nodes p.abort start) (round' i ≠ gen) i thread s)
    (hacc : Accounts nodes q.computed q.currentChunk (boundOf nodes q.abort q.aborted start)
      (phaseOf nodes p.abort start) (Function.update status i s)) :
    Rounds nodes q round' gen start (Function.update status i s) := by
  have hne : ∀ j, j ≠ i → q.threads j = p.threads j := fun j hj => by
    rw [hthreads, Function.update_of_ne hj]
  have hself : q.threads i = thread := by
    rw [hthreads, Function.update_self]
  refine ⟨?_, fun hn j => ?_, h.starts, haborts, fun j => ?_, hphase ▸ hacc⟩
  · rwa [hthreads, stage_update]
  · by_cases hj : j = i
    · subst hj
      rw [hself]
      exact hsingle hn
    · rw [hne j hj]
      exact h.single hn j
  · rw [hphase]
    by_cases hj : j = i
    · subst hj
      rw [hself, Function.update_self]
      exact hloc
    · rw [hne j hj, Function.update_of_ne hj, hround j hj]
      exact h.located j

omit h in
/-- All threads have done their parts, and the barrier has let them go. -/
theorem next (hstarts : Starts nodes start) (haborts : Aborts nodes q.abort q.aborted start)
    (hacc : Accounts nodes q.computed q.currentChunk (boundOf nodes q.abort q.aborted start)
      (phaseOf nodes q.abort start) status)
    (hpast : ∀ j, status j = .past) (hnth : 0 < nth)
    (hsync : Sync q.barrier (fun j => (q.threads j).stage) round gen)
    (hsingle : nth = 1 → ∀ j, (q.threads j).stage = .out)
    (hpos : ∀ j, (q.threads j).pos = nextRound nodes (phaseOf nodes q.abort start) ∧
      (round j = gen → (q.threads j).stage = .out)) :
    ∃ start' status', Rounds nodes q round gen start' status' := by
  have hround : ∃ start', start' = nextRound nodes (phaseOf nodes q.abort start) ∧
      Starts nodes start' ∧ Aborts nodes q.abort q.aborted start' ∧
      Accounts nodes q.computed q.currentChunk (boundOf nodes q.abort q.aborted start')
        (phaseOf nodes q.abort start') (fun _ : Fin nth => .before) := by
    rcases hcur : phaseOf nodes q.abort start with _ | ⟨k, j⟩ <;> rw [hcur] at hacc
    · obtain ⟨hab, hacc'⟩ := starts_next_none hcur hstarts haborts hacc
      exact ⟨_, rfl, trivial, hab, hacc'⟩
    · exact ⟨_, rfl, starts_next_some hcur hstarts haborts hacc hpast hnth rfl⟩
  obtain ⟨start', hstart', hs, hab, hacc'⟩ := hround
  refine ⟨start', fun _ => .before, hsync, hsingle, hs, hab, fun j => ?_, hacc'⟩
  obtain ⟨hp, hout⟩ := hpos j
  by_cases hj : round j = gen
  · exact .inr ⟨fun hne => hne hj, hout hj, .inl (hp.trans hstart'.symm)⟩
  · exact .inl ⟨hj, hp.trans hstart'.symm⟩

/-- A thread takes a step in the barrier. -/
theorem barrier {c' : Counters} {st : Barrier.Stage}
    (hstep : Barrier.step nth p.barrier (p.threads i).stage = some (c', st)) :
    ∃ round' gen' start' status', Rounds nodes
      ({ p with barrier := c' }.setThread i { p.threads i with stage := st }) round' gen' start'
      status' := by
  have hone : nth ≠ 1 := fun hn => by
    rw [h.single hn i] at hstep
    simp [Barrier.step] at hstep
  have hstay : ∀ c' st, Sync c' (Function.update (fun j => (p.threads j).stage) i st) round gen →
      (p.threads i).stage ≠ .out → round i = gen → st ≠ .out → Rounds nodes
        ({ p with barrier := c' }.setThread i { p.threads i with stage := st }) round gen start
        (Function.update status i .past) := fun c' st hsync hin hr hst => by
    obtain ⟨hpast, hfin, hpos⟩ := h.past_of_in hin hr
    refine h.update rfl hsync (fun _ _ => rfl) (fun hn => absurd hn hone) rfl h.aborts
      ⟨fun hne => hne hr, hfin, .inl ⟨hst, hpos⟩⟩ ?_
    rw [← hpast, Function.update_eq_self]
    exact h.accounts
  rcases hi : (p.threads i).stage with _ | passed | passed | _ | _ <;> rw [hi] at hstep <;>
    simp only [Barrier.step, Option.some.injEq, Prod.mk.injEq, reduceCtorEq] at hstep
  · obtain ⟨rfl, rfl⟩ := hstep
    refine ⟨_, _, _, _, hstay _ _ (h.sync.arrive hi) (by simp [hi]) (h.sync.round_eq ?_) ?_⟩
    · simp [hi]
    · split_ifs <;> simp
  · split_ifs at hstep with hne
    simp only [Option.some.injEq, Prod.mk.injEq] at hstep
    obtain ⟨rfl, rfl⟩ := hstep
    obtain ⟨hbehind, hsync⟩ := h.sync.leave hi hne
    have hloc := h.located i
    have hbefore : status i = .before ∧ (p.threads i).pos = start := by
      have hr : round i ≠ gen := by omega
      rcases hst : status i with _ | _ | c | _ | _ <;> rw [hst] at hloc
      · rcases hloc with ⟨-, hpos⟩ | ⟨hb, -⟩
        · exact ⟨rfl, hpos⟩
        · exact absurd hr hb
      · exact absurd hr hloc.1
      · exact absurd hr hloc.1
      · exact absurd hr hloc.1
      · exact absurd hr hloc.1
    refine ⟨_, _, _, _, h.update (s := .before) rfl hsync (fun j hj => Function.update_of_ne hj _ _)
      (fun _ => rfl) rfl h.aborts ?_ ?_⟩
    · rw [Function.update_self]
      exact .inr ⟨fun hne => hne rfl, rfl, .inl hbefore.2⟩
    · rw [← hbefore.1, Function.update_eq_self]
      exact h.accounts
  · obtain ⟨rfl, rfl⟩ := hstep
    refine ⟨_, _, _, _, hstay _ _ (h.sync.clear hi) (by simp [hi]) (h.sync.round_eq ?_) ?_⟩
    · simp [hi]
    · simp
  · obtain ⟨rfl, rfl⟩ := hstep
    have hgen : round i = gen := h.sync.round_eq (by simp [hi])
    have hall : ∀ j, round j = gen ∧ (p.threads j).stage ≠ .out := fun j => by
      by_cases hj : j = i
      · subst hj
        exact ⟨hgen, by simp [hi]⟩
      · obtain ⟨hr, hw⟩ := h.sync.alone i (.inr hi) j hj
        exact ⟨hr, by simp [hw]⟩
    have hpast := fun j => h.past_of_in (hall j).2 (hall j).1
    have hsync := h.sync.release hi
    refine ⟨Function.update round i (gen + 1), gen + 1,
      next h.starts h.aborts h.accounts (fun j => (hpast j).1) i.pos ?_ (fun hn => absurd hn hone)
        fun j => ?_⟩
    · simpa only [setThread, stage_update] using hsync
    · by_cases hj : j = i
      · subst hj
        simp [setThread, (hpast j).2.2]
      · have hr := (hall j).1
        simp only [setThread, Function.update_of_ne hj, (hpast j).2.2, true_and]
        omega

section Outside

variable (hi : (p.threads i).stage = .out) (hbarrier : q.barrier = p.barrier)
  (hthreads : q.threads = p.threads)
  (hphase : phaseOf nodes q.abort start = phaseOf nodes p.abort start)
  (haborts : Aborts nodes q.abort q.aborted start)

include hi hbarrier hthreads hphase haborts

/-- A thread outside the barrier goes on in the round. -/
theorem goto {pos : CpuPos}
    (hloc : Located nodes start (phaseOf nodes p.abort start) False i ⟨pos, .out⟩ s)
    (hacc : Accounts nodes q.computed q.currentChunk (boundOf nodes q.abort q.aborted start)
      (phaseOf nodes p.abort start) (Function.update status i s)) :
    Rounds nodes (q.goto i pos) round gen start (Function.update status i s) := by
  have hr : round i = gen := h.sync.round_eq (by simp [hi])
  have hbehind : (round i ≠ gen) = False := by simp [hr]
  refine h.update (by rw [← hthreads]; rfl) ?_ (fun _ _ => rfl) (fun _ => rfl) hphase haborts
    (hbehind ▸ hloc) hacc
  rw [show (⟨pos, .out⟩ : CpuThread).stage = (p.threads i).stage from hi.symm,
    Function.update_eq_self]
  exact hbarrier ▸ h.sync

/-- A thread that has done its part enters the barrier. -/
theorem enter (hfin : start ≠ .finished)
    (hacc : Accounts nodes q.computed q.currentChunk (boundOf nodes q.abort q.aborted start)
      (phaseOf nodes p.abort start) (Function.update status i .past)) {pos : CpuPos}
    (hpos : pos = nextRound nodes (phaseOf nodes p.abort start)) :
    ∃ round' gen' start' status', Rounds nodes (q.enter i pos) round' gen' start' status' := by
  unfold ThreadPool.enter
  split_ifs with hn
  · have hone : ∀ j, j = i := fun j => Fin.ext (by omega)
    refine ⟨round, gen, next h.starts haborts (hphase ▸ hacc) (fun j => ?_) i.pos ?_
      (fun _ j => ?_) fun j => ?_⟩
    · rw [hone j, Function.update_self]
    · rw [show (q.goto i pos).barrier = p.barrier from hbarrier]
      convert h.sync using 2 with j
      rw [hone j, hi]
      simp [ThreadPool.goto, setThread]
    · rw [hone j]
      simp [ThreadPool.goto, setThread]
    · rw [hone j]
      have : (q.goto i pos).abort = q.abort := rfl
      simp [ThreadPool.goto, setThread, hpos, hphase]
  · have hr : round i = gen := h.sync.round_eq (by simp [hi])
    refine ⟨round, gen, start, _, h.update (s := .past) (by rw [← hthreads]; rfl) ?_
      (fun _ _ => rfl) (fun hn' => absurd hn' hn) hphase haborts
      ⟨fun hne => hne hr, hfin, .inl ⟨by simp, hpos⟩⟩ hacc⟩
    rw [show (q.setThread i ⟨pos, .entered q.barrier.passed⟩).barrier = p.barrier from hbarrier,
      hbarrier]
    exact h.sync.enter hi

/-- A thread goes on in the phase of the round. -/
theorem gotoPhase (hcur : phaseOf nodes p.abort start = some (k, j)) {pos : CpuPos}
    (hloc : Located nodes start (some (k, j)) False i ⟨pos, .out⟩ s)
    (hacc : Accounts nodes q.computed q.currentChunk (k, j) (some (k, j))
      (Function.update status i s)) :
    ∃ round' gen' start' status', Rounds nodes (q.goto i pos) round' gen' start' status' := by
  refine ⟨_, _, _, _, h.goto hi hbarrier hthreads hphase haborts (s := s) ?_ ?_⟩
  · rwa [hcur]
  · rwa [boundOf_eq (hphase.trans hcur), hcur]

/-- A thread has done its part of the phase of the round. -/
theorem afterPhase (hcur : phaseOf nodes p.abort start = some (k, j))
    (hacc : Accounts nodes q.computed q.currentChunk (k, j) (some (k, j))
      (Function.update status i .past)) :
    ∃ round' gen' start' status',
      Rounds nodes (q.afterPhase nodes i k j) round' gen' start' status' := by
  have hfin : start ≠ .finished := by
    rintro rfl
    cases hcur
  have hacc' : Accounts nodes q.computed q.currentChunk (boundOf nodes q.abort q.aborted start)
      (phaseOf nodes p.abort start) (Function.update status i .past) := by
    rw [boundOf_eq (hphase.trans hcur), hcur]
    exact hacc
  unfold ThreadPool.afterPhase
  split_ifs with hlen
  · refine h.enter hi hbarrier hthreads hphase haborts hfin hacc' ?_
    rw [hcur]
    exact (if_pos hlen).symm
  · exact h.gotoPhase hi hbarrier hthreads hphase haborts hcur (s := .past)
      ⟨not_false, hfin, .inr ⟨rfl, k, j, rfl, not_lt.1 hlen, .inl rfl⟩⟩ hacc

end Outside

/-- A thread is behind a node. -/
theorem afterNode (hi : (p.threads i).stage = .out)
    (hcur : phaseOf nodes p.abort start = some (k, j)) (hlen : (phasesAt nodes k).length ≤ j + 1)
    (hacc : Accounts nodes p.computed p.currentChunk (k, j) (some (k, j))
      (Function.update status i .past)) (abort : Bool) :
    ∃ round' gen' start' status',
      Rounds nodes (p.afterNode nodes i k abort) round' gen' start' status' := by
  have hk := lt_of_phaseOf h.starts hcur
  have hfin : start ≠ .finished := by
    rintro rfl
    cases hcur
  unfold ThreadPool.afterNode
  generalize hq : (if i.val = 0 ∧ abort then { p with abort := k + 1, aborted := true } else p) = q
  have hsame : q.barrier = p.barrier ∧ q.threads = p.threads ∧ q.computed = p.computed ∧
      q.currentChunk = p.currentChunk ∧
      phaseOf nodes q.abort start = phaseOf nodes p.abort start ∧
      Aborts nodes q.abort q.aborted start := by
    subst hq
    split_ifs
    · have hphase : phaseOf nodes (k + 1) start = phaseOf nodes p.abort start := by
        rw [hcur]
        rcases start with k' | ⟨k', j'⟩ | ⟨k', j'⟩ | ⟨k', j', c⟩ | ⟨k', j'⟩ | _ <;>
          simp [phaseOf] at hcur ⊢
        · obtain ⟨-, rfl, rfl⟩ := hcur
          omega
        · exact hcur
      refine ⟨rfl, rfl, rfl, rfl, hphase, .inl ⟨k, j, hphase.trans hcur, rfl, hk, hlen⟩⟩
    · exact ⟨rfl, rfl, rfl, rfl, rfl, h.aborts⟩
  obtain ⟨hbarrier, hthreads, hcomputed, hchunk, hphase, haborts⟩ := hsame
  have hacc' : Accounts nodes q.computed q.currentChunk (boundOf nodes q.abort q.aborted start)
      (phaseOf nodes p.abort start) (Function.update status i .past) := by
    rw [boundOf_eq (hphase.trans hcur), hcur, hcomputed, hchunk]
    exact hacc
  simp only
  split_ifs with hk1
  · refine h.enter hi hbarrier hthreads hphase haborts hfin hacc' ?_
    rw [hcur]
    simp only [nextRound]
    rw [if_neg (by omega), if_pos hk1]
  · refine ⟨_, _, _, _, h.goto hi hbarrier hthreads hphase haborts (s := .past) ?_ hacc'⟩
    exact ⟨not_false, hfin, .inr ⟨rfl, k, j, hcur, hlen, .inr ⟨by omega, rfl⟩⟩⟩

/-- A thread that has done nothing in the round yet is at its phase. -/
theorem advance_phase {p' : ThreadPool nth} (hi : (p.threads i).stage = .out)
    (hst : status i = .before) (hcur : phaseOf nodes p.abort start = some (k, j)) {abort : Bool}
    (hstep : p.advance nodes i abort (.phase k j) = some p') :
    ∃ round' gen' start' status', Rounds nodes p' round' gen' start' status' := by
  have hacc := h.accounts
  rw [boundOf_eq hcur, hcur] at hacc
  have hheld : (status i).held i = some i.val := by rw [hst]; rfl
  simp only [ThreadPool.advance] at hstep
  rw [show (nodes.getD k (.parts 0)).phases = phasesAt nodes k from rfl] at hstep
  rcases hph : (phasesAt nodes k)[j]? with _ | ph
  · rw [hph] at hstep
    obtain rfl := Option.some.inj hstep
    have hlen : (phasesAt nodes k).length ≤ j := List.getElem?_eq_none_iff.1 hph
    refine h.afterNode hi hcur (by omega) (hacc.restatus fun ph hph' => ?_) abort
    rw [hph] at hph'
    cases hph'
  · obtain ⟨hshared, hready⟩ := hacc.current k j ph rfl hph
    rw [hph] at hstep
    rcases ph with _ | _ | nchunk
    · obtain rfl := Option.some.inj hstep
      refine h.afterPhase hi rfl rfl rfl h.aborts hcur (hacc.compute hph ?_ trivial)
      rw [held_update]
      exact hshared.perform hheld i.isLt
    · simp only at hstep
      split_ifs at hstep with h0
      · obtain rfl := Option.some.inj hstep
        refine h.gotoPhase (q := p.compute k j i) hi rfl rfl rfl h.aborts hcur (s := .storing)
          ⟨not_false, rfl, h0, k, j, rfl, hph, rfl⟩ (hacc.compute hph ?_ fun i' hi' hpast => ?_)
        · rw [held_update]
          exact hshared.perform hheld i.isLt
        · rw [show i' = i from Fin.ext (hi'.trans h0.symm), Function.update_self] at hpast
          cases hpast
      · obtain rfl := Option.some.inj hstep
        refine h.afterPhase hi rfl rfl rfl h.aborts hcur (hacc.compute hph ?_ fun i' hi' hpast => ?_)
        · rw [held_update]
          exact hshared.perform hheld i.isLt
        · have hne : i' ≠ i := by
            rintro rfl
            exact h0 hi'
          rw [Function.update_of_ne hne] at hpast
          exact hready i' hi' hpast
    · obtain rfl := Option.some.inj hstep
      refine h.gotoPhase hi rfl rfl rfl h.aborts hcur (s := .holding i)
        ⟨not_false, rfl, k, j, nchunk, rfl, hph, rfl⟩ (hacc.restatus fun ph hph' => ?_)
      obtain rfl := Option.some.inj (hph.symm.trans hph')
      refine ⟨?_, hready.1, fun i' hpast => hready.2 i' (past_of_update (by simp) hpast)⟩
      rw [held_update, show (RoundStatus.holding i).held i = (status i).held i from hheld.symm,
        Function.update_eq_self]
      exact hshared

/-- A thread outside the barrier takes a step. -/
theorem advance {p' : ThreadPool nth} (hi : (p.threads i).stage = .out) {abort : Bool}
    (hstep : p.advance nodes i abort (p.threads i).pos = some p') :
    ∃ round' gen' start' status', Rounds nodes p' round' gen' start' status' := by
  have hr : round i = gen := h.sync.round_eq (by simp [hi])
  have hloc := h.located i
  have hchunk : ∀ {k j n}, phaseOf nodes p.abort start = some (k, j) →
      (phasesAt nodes k)[j]? = some (.chunks n) →
      Accounts nodes p.computed p.currentChunk (k, j) (some (k, j)) status ∧
      Shared n p.currentChunk (fun i => (status i).held i) (itemsOf p.computed k j) ∧
      nth ≤ p.currentChunk ∧ ∀ i, status i = .past → n ≤ p.currentChunk := fun hcur hph => by
    have hacc := h.accounts
    rw [boundOf_eq hcur, hcur] at hacc
    exact ⟨hacc, hacc.current _ _ _ rfl hph⟩
  rcases hst : status i with _ | _ | c | _ | _ <;> rw [hst] at hloc
  · rcases hloc with ⟨hb, -⟩ | ⟨-, -, hpos | ⟨k, j, hcur, hpos⟩⟩
    · exact absurd hr hb
    · rw [hpos] at hstep
      rcases start with k | ⟨k, j⟩ | ⟨k, j⟩ | ⟨k, j, c⟩ | ⟨k, j⟩ | _
      · simp only [ThreadPool.advance] at hstep
        split_ifs at hstep with hk
        · obtain rfl := Option.some.inj hstep
          have hcur : phaseOf nodes p.abort (.check k) = some (k, 0) := if_pos hk
          refine ⟨_, _, _, _, h.goto hi rfl rfl rfl h.aborts (s := .before) ?_ ?_⟩
          · exact .inr ⟨not_false, rfl, .inr ⟨k, 0, hcur, rfl⟩⟩
          · rw [← hst, Function.update_eq_self]
            exact h.accounts
        · obtain rfl := Option.some.inj hstep
          have hcur : phaseOf nodes p.abort (.check k) = none := if_neg hk
          refine h.enter hi rfl rfl rfl h.aborts (by simp) ?_ (by rw [hcur]; rfl)
          have hacc := h.accounts
          rw [hcur] at hacc ⊢
          exact ⟨hacc.sorted, hacc.began, hacc.complete, fun _ _ _ hc => by cases hc⟩
      · exact h.advance_phase hi hst rfl hstep
      · exact h.starts.elim
      · exact h.starts.elim
      · exact h.starts.elim
      · cases hstep
    · rw [hpos] at hstep
      exact h.advance_phase hi hst hcur hstep
  · obtain ⟨-, -, h0, k, j, hcur, hph, hpos⟩ := hloc
    rw [hpos] at hstep
    obtain rfl := Option.some.inj hstep
    have hacc := h.accounts
    rw [boundOf_eq hcur, hcur] at hacc
    obtain ⟨hshared, -⟩ := hacc.current k j _ rfl hph
    refine h.afterPhase hi rfl rfl rfl h.aborts hcur (hacc.restatus fun ph hph' => ?_)
    obtain rfl := Option.some.inj (hph.symm.trans hph')
    refine ⟨?_, fun _ _ _ => rfl⟩
    rw [held_update, show RoundStatus.past.held i = (status i).held i by rw [hst]; rfl,
      Function.update_eq_self]
    exact hshared
  · obtain ⟨-, -, k, j, nchunk, hcur, hph, hpos⟩ := hloc
    obtain ⟨hacc, hshared, hle, hpast⟩ := hchunk hcur hph
    have hheld : (status i).held i = some c := by rw [hst]; rfl
    rw [hpos] at hstep
    simp only [ThreadPool.advance] at hstep
    rw [show (nodes.getD k (.parts 0)).phases = phasesAt nodes k from rfl, hph] at hstep
    simp only at hstep
    split_ifs at hstep with hc hn
    · obtain rfl := Option.some.inj hstep
      refine h.afterPhase hi rfl rfl rfl h.aborts hcur
        (hacc.compute hph ?_ ⟨hle, fun _ _ => hn.trans hle⟩)
      rw [held_update]
      exact hshared.perform hheld hc
    · obtain rfl := Option.some.inj hstep
      refine h.gotoPhase (q := p.compute k j c) hi rfl rfl rfl h.aborts hcur (s := .fetching)
        ⟨not_false, rfl, k, j, nchunk, rfl, hph, rfl⟩
        (hacc.compute hph ?_ ⟨hle, fun i' hi' => hpast i' (past_of_update (by simp) hi')⟩)
      rw [held_update]
      exact hshared.perform hheld hc
    · obtain rfl := Option.some.inj hstep
      refine h.afterPhase hi rfl rfl rfl h.aborts hcur (hacc.restatus fun ph hph' => ?_)
      obtain rfl := Option.some.inj (hph.symm.trans hph')
      have hlt : c < p.currentChunk := hshared.held_lt i c hheld
      refine ⟨?_, hle, fun _ _ => by omega⟩
      rw [held_update]
      exact hshared.drop hheld (by simpa using hc)
  · obtain ⟨-, -, k, j, nchunk, hcur, hph, hpos⟩ := hloc
    obtain ⟨hacc, hshared, hle, hpast⟩ := hchunk hcur hph
    rw [hpos] at hstep
    obtain rfl := Option.some.inj hstep
    refine h.gotoPhase (q := { p with currentChunk := p.currentChunk + 1 }) hi rfl rfl rfl h.aborts
      hcur (s := .holding p.currentChunk) ⟨not_false, rfl, k, j, nchunk, rfl, hph, rfl⟩
      (hacc.restatus fun ph hph' => ?_)
    obtain rfl := Option.some.inj (hph.symm.trans hph')
    refine ⟨?_, Nat.le_succ_of_le hle, fun i' hi' =>
      Nat.le_succ_of_le (hpast i' (past_of_update (by simp) hi'))⟩
    rw [held_update]
    exact hshared.fetch (by rw [hst]; rfl)
  · obtain ⟨-, hfin, ⟨hout, -⟩ | ⟨-, k, j, hcur, hlen, hpos | ⟨hk, hpos⟩⟩⟩ := hloc
    · exact absurd hi hout
    · have hacc := h.accounts
      rw [boundOf_eq hcur, hcur] at hacc
      rw [hpos] at hstep
      simp only [ThreadPool.advance] at hstep
      rw [show (nodes.getD k (.parts 0)).phases = phasesAt nodes k from rfl,
        List.getElem?_eq_none hlen] at hstep
      obtain rfl := Option.some.inj hstep
      refine h.afterNode hi hcur hlen ?_ abort
      rwa [← hst, Function.update_eq_self]
    · rw [hpos] at hstep
      simp only [ThreadPool.advance] at hstep
      rw [if_neg (by omega)] at hstep
      obtain rfl := Option.some.inj hstep
      refine h.enter hi rfl rfl rfl h.aborts hfin ?_ ?_
      · rw [← hst, Function.update_eq_self]
        exact h.accounts
      · rw [hcur]
        simp only [nextRound]
        rw [if_neg (by omega), if_neg (by omega)]

/-- A thread takes a step. -/
theorem step {p' : ThreadPool nth} {abort : Bool} (hstep : p.step nodes i abort = some p') :
    ∃ round' gen' start' status', Rounds nodes p' round' gen' start' status' := by
  simp only [ThreadPool.step] at hstep
  split_ifs at hstep with hi
  · exact h.advance hi hstep
  · obtain ⟨⟨c', st⟩, hb, rfl⟩ := Option.map_eq_some_iff.1 hstep
    exact h.barrier hb

/-- Where all threads are outside the barrier and one of them is finished, all of them are. -/
theorem finished_of_finished (hi : (p.threads i).stage = .out)
    (hpos : (p.threads i).pos = .finished) : start = .finished := by
  have hr : round i = gen := h.sync.round_eq (by simp [hi])
  have hloc := h.located i
  rcases hst : status i with _ | _ | c | _ | _ <;> rw [hst] at hloc
  · rcases hloc with ⟨hb, -⟩ | ⟨-, -, hp | ⟨k, j, -, hp⟩⟩
    · exact absurd hr hb
    · exact hp.symm.trans hpos
    · cases hp.symm.trans hpos
  · obtain ⟨-, -, -, k, j, -, -, hp⟩ := hloc
    cases hp.symm.trans hpos
  · obtain ⟨-, -, k, j, n, -, -, hp⟩ := hloc
    cases hp.symm.trans hpos
  · obtain ⟨-, -, k, j, n, -, -, hp⟩ := hloc
    cases hp.symm.trans hpos
  · obtain ⟨-, -, ⟨hout, -⟩ | ⟨-, k, j, -, -, hp | ⟨-, hp⟩⟩⟩ := hloc
    · exact absurd hi hout
    · cases hp.symm.trans hpos
    · cases hp.symm.trans hpos

/-- A thread outside the barrier takes a step unless it is finished. -/
theorem advance_ne_none (hi : (p.threads i).stage = .out) {abort : Bool}
    (hpos : (p.threads i).pos ≠ .finished) :
    p.advance nodes i abort (p.threads i).pos ≠ none := by
  have hloc := h.located i
  rcases hp : (p.threads i).pos with k | ⟨k, j⟩ | ⟨k, j⟩ | ⟨k, j, c⟩ | ⟨k, j⟩ | _
  · simp only [ThreadPool.advance]
    split_ifs <;> simp
  · simp only [ThreadPool.advance]
    rcases (nodes.getD k (.parts 0)).phases[j]? with _ | _ | _ | n
    · simp
    · simp
    · simp only
      split_ifs <;> simp
    · simp
  · simp [ThreadPool.advance]
  · have hph : ∃ n, (phasesAt nodes k)[j]? = some (.chunks n) := by
      rcases hst : status i with _ | _ | c' | _ | _ <;> rw [hst] at hloc
      · rcases hloc with ⟨-, hs⟩ | ⟨-, -, hs | ⟨k', j', -, hs⟩⟩
        · exact (hp.symm.trans hs ▸ h.starts : Starts nodes (.chunk k j c)).elim
        · exact (hp.symm.trans hs ▸ h.starts : Starts nodes (.chunk k j c)).elim
        · cases hp.symm.trans hs
      · obtain ⟨-, -, -, k', j', -, -, hs⟩ := hloc
        cases hp.symm.trans hs
      · obtain ⟨-, -, k', j', n, -, hph, hs⟩ := hloc
        obtain ⟨rfl, rfl, -⟩ := CpuPos.chunk.inj (hp.symm.trans hs)
        exact ⟨n, hph⟩
      · obtain ⟨-, -, k', j', n, -, -, hs⟩ := hloc
        cases hp.symm.trans hs
      · obtain ⟨-, -, ⟨hout, -⟩ | ⟨-, k', j', -, -, hs | ⟨-, hs⟩⟩⟩ := hloc
        · exact absurd hi hout
        · cases hp.symm.trans hs
        · cases hp.symm.trans hs
    obtain ⟨n, hph⟩ := hph
    simp only [ThreadPool.advance]
    rw [show (nodes.getD k (.parts 0)).phases = phasesAt nodes k from rfl, hph]
    simp only
    split_ifs <;> simp
  · simp [ThreadPool.advance]
  · exact absurd hp hpos

/-- There is a step until all threads are finished. -/
theorem exists_step (hnot : ∃ i, p.threads i ≠ ⟨.finished, .out⟩) :
    ∃ i, ∀ abort, p.step nodes i abort ≠ none := by
  have hbarrier : ∀ i, Barrier.step nth p.barrier (p.threads i).stage ≠ none →
      ∀ abort, p.step nodes i abort ≠ none := fun i hb abort => by
    have hout : (p.threads i).stage ≠ .out := fun hout => by
      rw [hout] at hb
      exact hb rfl
    simp only [ThreadPool.step, if_neg hout, ne_eq, Option.map_eq_none_iff]
    exact hb
  by_cases hall : ∀ i, (p.threads i).stage ≠ .out
  · obtain ⟨i, hi⟩ := h.sync.exists_step hall
    exact ⟨i, hbarrier i hi⟩
  · simp only [ne_eq, not_forall, not_not] at hall
    obtain ⟨i, hi⟩ := hall
    by_cases hpos : (p.threads i).pos = .finished
    · obtain rfl := h.finished_of_finished hi hpos
      obtain ⟨l, hl⟩ := hnot
      have hloc := h.located l
      by_cases hout : (p.threads l).stage = .out
      · refine ⟨l, fun abort => ?_⟩
        simp only [ThreadPool.step, if_pos hout]
        refine h.advance_ne_none hout fun hp => hl ?_
        rw [← hp, ← hout]
      · refine ⟨l, hbarrier l ?_⟩
        have hbehind : round l ≠ gen := fun hr => (h.past_of_in hout hr).2.1 rfl
        have hst := (h.sync.inRound l).resolve_left fun hr => hbehind hr.1
        rw [hst.2]
        simp only [Barrier.step, if_neg (Barrier.sub_one_ne p.barrier.passed).symm]
        simp
    · refine ⟨i, fun abort => ?_⟩
      simp only [ThreadPool.step, if_pos hi]
      exact h.advance_ne_none hi hpos

end Rounds

/-- The steps of the threads; the abort callback answers what it likes. -/
def Step (nodes : List CpuNode) (p : ThreadPool nth) (t : Fin nth × Bool) (p' : ThreadPool nth) :
    Prop :=
  p.step nodes t.1 t.2 = some p'

/-- An item of a graph. -/
def IsItem (nodes : List CpuNode) (nth : ℕ) (x : CpuItem) : Prop :=
  ∃ ph, (phasesAt nodes x.node)[x.j]? = some ph ∧ x.item < ph.items nth

/-- The threads are in a round together in whatever order they take their steps. -/
theorem rounds_of_reachable (hnth : 0 < nth) {passed : BitVec 32} {c : ℕ} {p : ThreadPool nth}
    (h : Reachable (· = ThreadPool.start nth passed c) (Step nodes) p) :
    ∃ round gen start status, Rounds nodes p round gen start status := by
  refine h.invariant (I := fun p => ∃ round gen start status, Rounds nodes p round gen start status)
    (fun p hp => ?_) fun p t p' hp hstep => ?_
  · subst hp
    refine ⟨_, 0, .check 0, fun _ => .before, Barrier.sync_start hnth passed, fun _ _ => rfl, trivial,
      rfl, fun i => .inr ⟨fun hne => hne rfl, rfl, .inl rfl⟩, ?_⟩
    refine ⟨List.Pairwise.nil, fun x hx => by simp [ThreadPool.start] at hx,
      fun k j ph _ hb => ?_, fun k j ph hcur hph => ?_⟩
    · simp [boundOf, Before] at hb
    · simp only [phaseOf, Option.ite_none_right_eq_some, Option.some.injEq, Prod.mk.injEq] at hcur
      obtain ⟨-, rfl, rfl⟩ := hcur
      rcases ph with _ | _ | n
      · exact ⟨WorkCounter.shared_start nth _, trivial⟩
      · exact ⟨WorkCounter.shared_start nth _, fun i _ hi => by cases hi⟩
      · obtain ⟨i, hi, -⟩ := phases_chunks hph
        omega
  · obtain ⟨round, gen, start, status, hr⟩ := hp
    exact hr.step hstep

namespace Rounds

variable {p : ThreadPool nth} {round : Fin nth → ℕ} {gen : ℕ}

/-- What has been computed is of the graph, and nothing twice. -/
theorem items (h : Rounds nodes p round gen start status) :
    p.computed.Nodup ∧ ∀ x ∈ p.computed, IsItem nodes nth x ∧
      ∀ y, IsItem nodes nth y → Before (y.node, y.j) (x.node, x.j) → y ∈ p.computed := by
  have hacc := h.accounts
  have hof : ∀ x ∈ p.computed, ∃ ph, (phasesAt nodes x.node)[x.j]? = some ph ∧
      (itemsOf p.computed x.node x.j).Nodup ∧
        ∀ c ∈ itemsOf p.computed x.node x.j, c < ph.items nth := fun x hx => by
    obtain ⟨⟨ph, hph⟩, hb | hcur⟩ := hacc.began x hx
    · obtain ⟨hnodup, hmem⟩ := hacc.complete _ _ ph hph hb
      exact ⟨ph, hph, hnodup, fun c hc => (hmem c).1 hc⟩
    · obtain ⟨hshared, -⟩ := hacc.current _ _ ph hcur hph
      exact ⟨ph, hph, hshared.nodup, fun c hc => (hshared.done_lt c hc).1⟩
  refine ⟨?_, fun x hx => ?_⟩
  · rw [List.nodup_iff_count_le_one]
    intro x
    by_cases hx : x ∈ p.computed
    · obtain ⟨-, -, hnodup, -⟩ := hof x hx
      refine le_trans ?_ (List.nodup_iff_count_le_one.1 hnodup x.item)
      rw [← List.count_filter (p := fun y => decide (y.node = x.node ∧ y.j = x.j)) (by simp)]
      exact List.count_le_count_map
    · rw [List.count_eq_zero_of_not_mem hx]
      exact Nat.zero_le _
  · obtain ⟨ph, hph, -, hlt⟩ := hof x hx
    refine ⟨⟨ph, hph, hlt _ (mem_itemsOf.2 hx)⟩, fun y ⟨phy, hphy, hy⟩ hlt => ?_⟩
    rw [← mem_itemsOf (k := y.node) (j := y.j)]
    refine ((hacc.complete _ _ phy hphy ?_).2 _).2 hy
    obtain ⟨-, hb | hcur⟩ := hacc.began x hx
    · unfold Before at hb hlt ⊢
      simp only at hb hlt ⊢
      omega
    · rwa [boundOf_eq hcur]

/-- An item is computed by a thread at a phase or at a chunk. -/
theorem mem_computed_advance {p' : ThreadPool nth} {i : Fin nth} {abort : Bool} {pos : CpuPos}
    {x : CpuItem} (hstep : p.advance nodes i abort pos = some p')
    (hx : p'.computed = p.computed ++ [x]) :
    pos = .phase x.node x.j ∨ ∃ c, pos = .chunk x.node x.j c := by
  rcases pos with k | ⟨k, j⟩ | ⟨k, j⟩ | ⟨k, j, c⟩ | ⟨k, j⟩ | _ <;>
    simp only [ThreadPool.advance] at hstep
  · split_ifs at hstep <;> obtain rfl := Option.some.inj hstep <;> simp at hx
  · rcases hph : (nodes.getD k (.parts 0)).phases[j]? with _ | _ | _ | n <;> rw [hph] at hstep
    · obtain rfl := Option.some.inj hstep
      simp at hx
    · obtain rfl := Option.some.inj hstep
      simp at hx
      simp [← hx]
    · simp only at hstep
      split_ifs at hstep <;> obtain rfl := Option.some.inj hstep <;> simp at hx
      · simp [← hx]
      · simp [← hx]
    · obtain rfl := Option.some.inj hstep
      simp at hx
  · obtain rfl := Option.some.inj hstep
    simp at hx
  · rcases hph : (nodes.getD k (.parts 0)).phases[j]? with _ | _ | _ | n <;> rw [hph] at hstep
    · cases hstep
    · cases hstep
    · cases hstep
    · simp only at hstep
      split_ifs at hstep <;> obtain rfl := Option.some.inj hstep <;> simp at hx
      · simp [← hx]
      · simp [← hx]
  · obtain rfl := Option.some.inj hstep
    simp at hx
  · cases hstep

/-- Who computes an item computes one of the phase of the round. -/
theorem current_of_computes (h : Rounds nodes p round gen start status) {p' : ThreadPool nth}
    {t : Fin nth × Bool} {x : CpuItem} (hstep : Step nodes p t p')
    (hx : p'.computed = p.computed ++ [x]) :
    phaseOf nodes p.abort start = some (x.node, x.j) := by
  unfold Step at hstep
  simp only [ThreadPool.step] at hstep
  split_ifs at hstep with hi
  · have hr : round t.1 = gen := h.sync.round_eq (by simp [hi])
    have hloc := h.located t.1
    have hpos := mem_computed_advance hstep hx
    have hat : ∀ {k j}, (p.threads t.1).pos = .phase k j ∨
        (∃ c, (p.threads t.1).pos = .chunk k j c) → k = x.node ∧ j = x.j := by
      rintro k j (hp | ⟨c, hp⟩) <;> rcases hpos with hp' | ⟨c', hp'⟩ <;>
        cases hp.symm.trans hp' <;> exact ⟨rfl, rfl⟩
    rcases hst : status t.1 with _ | _ | c | _ | _ <;> rw [hst] at hloc
    · rcases hloc with ⟨hb, -⟩ | ⟨-, -, hp | ⟨k, j, hcur, hp⟩⟩
      · exact absurd hr hb
      · rcases hpos with hp' | ⟨c', hp'⟩
        · rw [hp.symm.trans hp']
          rfl
        · exact (hp.symm.trans hp' ▸ h.starts : Starts nodes (.chunk x.node x.j c')).elim
      · obtain ⟨rfl, rfl⟩ := hat (.inl hp)
        exact hcur
    · obtain ⟨-, -, -, k, j, -, -, hp⟩ := hloc
      rcases hpos with hp' | ⟨c', hp'⟩ <;> cases hp.symm.trans hp'
    · obtain ⟨-, -, k, j, n, hcur, -, hp⟩ := hloc
      obtain ⟨rfl, rfl⟩ := hat (.inr ⟨c, hp⟩)
      exact hcur
    · obtain ⟨-, -, k, j, n, -, -, hp⟩ := hloc
      rcases hpos with hp' | ⟨c', hp'⟩ <;> cases hp.symm.trans hp'
    · obtain ⟨-, -, ⟨hout, -⟩ | ⟨-, k, j, hcur, hlen, hp | ⟨-, hp⟩⟩⟩ := hloc
      · exact absurd hi hout
      · rw [hp] at hstep
        simp only [ThreadPool.advance] at hstep
        rw [show (nodes.getD k (.parts 0)).phases = phasesAt nodes k from rfl,
          List.getElem?_eq_none hlen] at hstep
        obtain rfl := Option.some.inj hstep
        simp at hx
      · rcases hpos with hp' | ⟨c', hp'⟩ <;> cases hp.symm.trans hp'
  · obtain ⟨⟨c', st⟩, -, rfl⟩ := Option.map_eq_some_iff.1 hstep
    simp [setThread] at hx

/-- Where all threads are finished, the nodes in front of the abort are computed. -/
theorem computed_of_finished (h : Rounds nodes p round gen start status) (hnth : 0 < nth)
    (hfin : ∀ i, p.threads i = ⟨.finished, .out⟩) :
    ∃ K ≤ nodes.length, (if p.aborted then p.abort = K else K = nodes.length) ∧
      ∀ x, x ∈ p.computed ↔ IsItem nodes nth x ∧ x.node < K := by
  have hstart := h.finished_of_finished (i := ⟨0, hnth⟩) (by rw [hfin]) (by rw [hfin])
  subst hstart
  have hacc := h.accounts
  have haborts := h.aborts
  refine ⟨if p.aborted then p.abort.toNat else nodes.length, ?_, ?_, fun x => ?_⟩
  · unfold Aborts at haborts
    split_ifs at haborts ⊢ with hab
    · rcases haborts with ⟨k, j, hk, -⟩ | ⟨-, h0, hle, -⟩
      · cases hk
      · omega
    · exact le_rfl
  · unfold Aborts at haborts
    split_ifs at haborts ⊢ with hab
    · rcases haborts with ⟨k, j, hk, -⟩ | ⟨-, h0, hle, -⟩
      · cases hk
      · omega
    · rfl
  · have hbound : ∀ k j, Before (k, j) (boundOf nodes p.abort p.aborted .finished) ↔
        k < if p.aborted then p.abort.toNat else nodes.length := fun k j => by
      simp [boundOf, Before]
    constructor
    · intro hx
      obtain ⟨-, hb | hcur⟩ := hacc.began x hx
      · exact ⟨(h.items.2 x hx).1, (hbound _ _).1 hb⟩
      · cases hcur
    · rintro ⟨⟨ph, hph, hlt⟩, hx⟩
      rw [← mem_itemsOf (k := x.node) (j := x.j)]
      exact ((hacc.complete _ _ ph hph ((hbound _ _).2 hx)).2 _).2 hlt

end Rounds

/-- Whatever the order of the steps, nothing of a phase is computed before all of the phases in
front of it, and nothing twice; what is computed at the same time is of one phase; there is a step
until all threads are finished, and then the graph is computed up to the node of the abort. -/
theorem computes_inOrder (hnth : 0 < nth) {passed : BitVec 32} {c : ℕ} {p : ThreadPool nth}
    (h : Reachable (· = ThreadPool.start nth passed c) (Step nodes) p) :
    (p.computed.Nodup ∧ ∀ xs x ys, p.computed = xs ++ x :: ys → IsItem nodes nth x ∧
      ∀ y, IsItem nodes nth y → Before (y.node, y.j) (x.node, x.j) → y ∈ xs) ∧
    (∀ t t' p₁ p₂ x y, Step nodes p t p₁ → Step nodes p t' p₂ →
      p₁.computed = p.computed ++ [x] → p₂.computed = p.computed ++ [y] →
      x.node = y.node ∧ x.j = y.j) ∧
    ((∃ i, p.threads i ≠ ⟨.finished, .out⟩) → ∃ i, ∀ abort, ∃ p', Step nodes p (i, abort) p') ∧
    ((∀ i, p.threads i = ⟨.finished, .out⟩) →
      ∃ K ≤ nodes.length, (if p.aborted then p.abort = K else K = nodes.length) ∧
        ∀ x, x ∈ p.computed ↔ IsItem nodes nth x ∧ x.node < K) := by
  obtain ⟨round, gen, start, status, hr⟩ := rounds_of_reachable hnth h
  obtain ⟨hnodup, hitems⟩ := hr.items
  refine ⟨⟨hnodup, fun xs x ys hxs => ?_⟩, fun t t' p₁ p₂ x y hx hy hcx hcy => ?_, fun hnot => ?_,
    hr.computed_of_finished hnth⟩
  · have hx : x ∈ p.computed := by rw [hxs]; simp
    refine ⟨(hitems x hx).1, fun y hy hlt => ?_⟩
    have hmem := (hitems x hx).2 y hy hlt
    rw [hxs, List.mem_append, List.mem_cons] at hmem
    refine hmem.resolve_right fun hmem => ?_
    have hsorted := hr.accounts.sorted
    rw [hxs, List.pairwise_append, List.pairwise_cons] at hsorted
    unfold Before at hlt
    simp only at hlt
    rcases hmem with rfl | hmem
    · omega
    · have := hsorted.2.1.1 y hmem
      omega
  · have heq := (hr.current_of_computes hx hcx).symm.trans (hr.current_of_computes hy hcy)
    exact Prod.mk.injEq .. ▸ Option.some.inj heq
  · obtain ⟨i, hi⟩ := hr.exists_step hnot
    exact ⟨i, fun abort => Option.ne_none_iff_exists'.1 (hi abort)⟩

/-- Two threads multiply in three chunks, and the callback aborts the graph behind that. -/
theorem computes_inOrder_abort :
    ∃ p, Reachable (· = ThreadPool.start 2 0xFFFFFFFF 0) (Step [.mulMat 3, .parts 1]) p ∧
      p.computed = [⟨0, 0, 0⟩, ⟨0, 0, 1⟩, ⟨0, 1, 0⟩, ⟨0, 1, 1⟩, ⟨0, 1, 2⟩] ∧
      ∃ K : ℕ, K ≤ 2 ∧ (if p.aborted then p.abort = K else K = 2) ∧
        ∀ x, x ∈ p.computed ↔ IsItem [.mulMat 3, .parts 1] 2 x ∧ x.node < K := by
  have hrun : ∃ p, exec (fun p t => p.step [.mulMat 3, .parts 1] t.1 t.2)
      (ThreadPool.start 2 0xFFFFFFFF 0) ([0, 1, 0, 1, 1, 0, 0, 0, 0, 0, 1, 0, 1, 1, 1, 1, 0, 1, 0,
        1, 0, 1, 1, 0, 0, 0, 1, 0, 1, 0, 1, 1, 1, 0].map (·, true)) = some p ∧
      p.computed = [⟨0, 0, 0⟩, ⟨0, 0, 1⟩, ⟨0, 1, 0⟩, ⟨0, 1, 1⟩, ⟨0, 1, 2⟩] ∧
      ∀ i, p.threads i = ⟨.finished, .out⟩ := by
    exact ⟨_, rfl, by decide, Fin.forall_fin_two.2 ⟨rfl, rfl⟩⟩
  obtain ⟨p, hexec, hcomputed, hfin⟩ := hrun
  have hreach : Reachable (· = ThreadPool.start 2 0xFFFFFFFF 0) (Step [.mulMat 3, .parts 1]) p :=
    ⟨_, _, rfl, run_of_exec hexec⟩
  exact ⟨p, hreach, hcomputed, (computes_inOrder (by decide) hreach).2.2.2 hfin⟩

end ThreadPool

end LamaServer
