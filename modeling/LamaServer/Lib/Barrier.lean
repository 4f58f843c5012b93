import Mathlib.Algebra.Order.BigOperators.Group.Finset
import Mathlib.Data.Fintype.Card
import Mathlib.Data.Fintype.EquivFin
import Mathlib.Logic.Function.Basic

/-!
# A barrier of two counters

The last of `n` threads to arrive at the barrier clears the count of the arrivals and then moves the
count of the rounds on, which the others wait for. The threads take these steps in any order. Two
threads are never more than one round apart, and a thread that is behind is about to leave
(`Sync`), although the rounds are counted in a machine word.
-/

namespace Barrier

/-- Where a thread is in the barrier. -/
inductive Stage
  | out
  | entered (passed : BitVec 32)
  | waiting (passed : BitVec 32)
  | last
  | cleared
deriving DecidableEq

structure Counters where
  arrived : ℕ
  passed : BitVec 32

/-- The next step of a thread in the barrier; none for a thread that has to wait. -/
def step (n : ℕ) (c : Counters) : Stage → Option (Counters × Stage)
  | .out => none
  | .entered passed =>
    some ({ c with arrived := c.arrived + 1 },
      if c.arrived = n - 1 then .last else .waiting passed)
  | .last => some ({ c with arrived := 0 }, .cleared)
  | .cleared => some ({ c with passed := c.passed + 1 }, .out)
  | .waiting passed => if c.passed = passed then none else some (c, .out)

variable {n : ℕ} {c c' : Counters} {stage : Fin n → Stage} {round : Fin n → ℕ} {gen : ℕ}
  {i : Fin n} {st : Stage}

/-- The threads that have arrived in the current round. -/
def arrivals (c : Counters) (stage : Fin n → Stage) : Finset (Fin n) :=
  Finset.univ.filter fun i => stage i = .waiting c.passed ∨ stage i = .last

/-- A thread is in the round `gen`, or it has not left the one before yet. -/
def InRound (c : Counters) (gen : ℕ) (st : Stage) (round : ℕ) : Prop :=
  round = gen ∧ (st = .out ∨ st = .entered c.passed ∨ st = .waiting c.passed ∨ st = .last ∨
      st = .cleared) ∨
    round + 1 = gen ∧ st = .waiting (c.passed - 1)

/-- The threads are in the round `gen` together. -/
structure Sync (c : Counters) (stage : Fin n → Stage) (round : Fin n → ℕ) (gen : ℕ) : Prop where
  inRound : ∀ i, InRound c gen (stage i) (round i)
  arrived : (∀ i, stage i ≠ .cleared) → c.arrived = (arrivals c stage).card
  alone : ∀ i, stage i = .last ∨ stage i = .cleared → ∀ j, j ≠ i →
    round j = gen ∧ stage j = .waiting c.passed
  cleared : ∀ i, stage i = .cleared → c.arrived = 0
  notAll : ∃ i, stage i ≠ .waiting c.passed

theorem sub_one_ne (passed : BitVec 32) : passed - 1 ≠ passed := by
  intro h
  have := congrArg BitVec.toNat h
  rw [BitVec.toNat_sub] at this
  have hlt := passed.isLt
  simp at this
  omega

theorem sync_start (hn : 0 < n) (passed : BitVec 32) :
    Sync ⟨0, passed⟩ (fun _ : Fin n => .out) (fun _ => 0) 0 where
  inRound _ := .inl ⟨rfl, .inl rfl⟩
  arrived _ := by simp [arrivals]
  alone _ h := by simp at h
  cleared _ h := by simp at h
  notAll := ⟨⟨0, hn⟩, by simp⟩

namespace Sync

variable (h : Sync c stage round gen)

include h

/-- A thread that is not waiting is in the current round. -/
theorem round_eq (hi : ∀ passed, stage i ≠ .waiting passed) : round i = gen := by
  rcases h.inRound i with hr | ⟨-, hw⟩
  · exact hr.1
  · exact absurd hw (hi _)

/-- Nobody is through the barrier while a thread is still outside. -/
theorem round_of_waiting (hi : stage i = .waiting c.passed) : round i = gen := by
  rcases h.inRound i with hr | ⟨-, hw⟩
  · exact hr.1
  · rw [hi] at hw
    exact absurd (Stage.waiting.inj hw).symm (sub_one_ne _)

/-- A thread outside enters. -/
theorem enter (hi : stage i = .out) :
    Sync c (Function.update stage i (.entered c.passed)) round gen := by
  have hother : ∀ j st, st ≠ Stage.entered c.passed → st ≠ .out →
      (Function.update stage i (.entered c.passed) j = st ↔ stage j = st) := fun j st hst hout => by
    by_cases hj : j = i
    · subst hj
      simp [hst.symm, hi, hout.symm]
    · rw [Function.update_of_ne hj]
  refine ⟨fun j => ?_, fun hnot => ?_, fun j hj k hk => ?_, fun j hj => ?_, i, by simp⟩
  · by_cases hj : j = i
    · subst hj
      rw [Function.update_self]
      exact .inl ⟨h.round_eq (by simp [hi]), .inr (.inl rfl)⟩
    · rw [Function.update_of_ne hj]
      exact h.inRound j
  · rw [h.arrived fun j hj => hnot j ((hother j _ (by simp) (by simp)).2 hj)]
    unfold arrivals
    simp only [hother _ (.waiting _) (by simp) (by simp), hother _ .last (by simp) (by simp)]
  · rw [hother j _ (by simp) (by simp), hother j _ (by simp) (by simp)] at hj
    rw [hother k _ (by simp) (by simp)]
    exact h.alone j hj k hk
  · exact h.cleared j ((hother j _ (by simp) (by simp)).1 hj)

/-- A thread arrives; the one that finds all the others there is the last. -/
theorem arrive {passed : BitVec 32} (hi : stage i = .entered passed) :
    Sync { c with arrived := c.arrived + 1 }
      (Function.update stage i (if c.arrived = n - 1 then .last else .waiting passed)) round gen := by
  have hround : round i = gen := h.round_eq (by simp [hi])
  have hpassed : passed = c.passed := by
    rcases h.inRound i with ⟨-, hst⟩ | ⟨-, hst⟩ <;> rw [hi] at hst
    · simpa using hst
    · cases hst
  subst hpassed
  have hbusy : ∀ j, stage j ≠ .last ∧ stage j ≠ .cleared := fun j => by
    rw [← not_or]
    intro hj
    have hij : i ≠ j := by
      rintro rfl
      rw [hi] at hj
      simp at hj
    have := (h.alone j hj i hij).2
    rw [hi] at this
    cases this
  have hcount := h.arrived fun j => (hbusy j).2
  have hiarr : i ∉ arrivals c stage := by simp [arrivals, hi]
  have harr : arrivals { c with arrived := c.arrived + 1 }
      (Function.update stage i (if c.arrived = n - 1 then .last else .waiting c.passed)) =
        insert i (arrivals c stage) := by
    ext j
    by_cases hj : j = i
    · subst hj
      simp only [arrivals, Finset.mem_filter, Finset.mem_univ, true_and, Function.update_self,
        Finset.mem_insert, true_or, iff_true]
      split_ifs <;> simp
    · simp [arrivals, hj]
  have hcard := Finset.card_insert_of_notMem hiarr
  have hlast : c.arrived = n - 1 → ∀ j, j ≠ i → stage j = .waiting c.passed := fun hn j hj => by
    have hall : insert i (arrivals c stage) = Finset.univ := by
      refine Finset.eq_univ_of_card _ ?_
      rw [hcard, ← hcount, hn, Fintype.card_fin]
      have := i.pos
      omega
    have hmem := Finset.mem_of_mem_insert_of_ne (hall ▸ Finset.mem_univ j) hj
    simpa [arrivals, (hbusy j).1] using hmem
  refine ⟨fun j => ?_, fun _ => ?_, fun j hj k hk => ?_, fun j hj => ?_, ?_⟩
  · by_cases hj : j = i
    · subst hj
      rw [Function.update_self]
      refine .inl ⟨hround, ?_⟩
      split_ifs <;> simp
    · rw [Function.update_of_ne hj]
      exact h.inRound j
  · rw [harr, hcard, hcount]
  · have hji : j = i := by
      by_contra hji
      rw [Function.update_of_ne hji] at hj
      exact hj.elim (hbusy j).1 (hbusy j).2
    subst hji
    rw [Function.update_self] at hj
    split_ifs at hj with hn
    · rw [Function.update_of_ne hk]
      have hwait := hlast hn k hk
      exact ⟨h.round_of_waiting hwait, hwait⟩
    · simp at hj
  · by_cases hji : j = i
    · subst hji
      rw [Function.update_self] at hj
      split_ifs at hj
    · rw [Function.update_of_ne hji] at hj
      exact absurd hj (hbusy j).2
  · by_cases hn : c.arrived = n - 1
    · exact ⟨i, by simp [hn]⟩
    · by_contra hall
      simp only [ne_eq, not_exists, not_not] at hall
      have huniv : insert i (arrivals c stage) = Finset.univ :=
        Finset.eq_univ_of_forall fun j => by
          rw [← harr]
          simp only [arrivals, Finset.mem_filter, Finset.mem_univ, true_and]
          exact .inl (hall j)
      have hsize := congrArg Finset.card huniv
      rw [hcard, Finset.card_univ, Fintype.card_fin] at hsize
      omega

/-- The last thread clears the count. -/
theorem clear (hi : stage i = .last) :
    Sync { c with arrived := 0 } (Function.update stage i .cleared) round gen := by
  have hround : round i = gen := h.round_eq (by simp [hi])
  have halone := h.alone i (.inl hi)
  refine ⟨fun j => ?_, fun hnot => absurd (Function.update_self ..) (hnot i), fun j hj k hk => ?_,
    fun _ _ => rfl, i, by simp⟩
  · by_cases hj : j = i
    · subst hj
      rw [Function.update_self]
      exact .inl ⟨hround, by simp⟩
    · rw [Function.update_of_ne hj]
      exact h.inRound j
  · have hji : j = i := by
      by_contra hji
      rw [Function.update_of_ne hji, (halone j hji).2] at hj
      simp at hj
    subst hji
    rw [Function.update_of_ne hk]
    exact halone k hk

/-- The last thread lets the others go, and leaves. -/
theorem release (hi : stage i = .cleared) :
    Sync { c with passed := c.passed + 1 } (Function.update stage i .out)
      (Function.update round i (gen + 1)) (gen + 1) := by
  have halone := h.alone i (.inr hi)
  have hwait : ∀ j, j ≠ i → Function.update stage i .out j = .waiting c.passed := fun j hj => by
    rw [Function.update_of_ne hj]
    exact (halone j hj).2
  have hback : c.passed + 1 - 1 = c.passed := by
    rw [BitVec.add_sub_cancel]
  refine ⟨fun j => ?_, fun _ => ?_, fun j hj => ?_, fun j hj => ?_, i, by simp⟩
  · by_cases hj : j = i
    · subst hj
      rw [Function.update_self, Function.update_self]
      exact .inl ⟨rfl, .inl rfl⟩
    · rw [hwait j hj, Function.update_of_ne hj]
      refine .inr ⟨by rw [(halone j hj).1], ?_⟩
      rw [hback]
  · rw [h.cleared i hi, eq_comm, Finset.card_eq_zero]
    refine Finset.filter_eq_empty_iff.2 fun j _ => ?_
    by_cases hj : j = i
    · subst hj
      simp
    · rw [hwait j hj]
      simp
  · by_cases hji : j = i
    · subst hji
      simp at hj
    · rw [hwait j hji] at hj
      simp at hj
  · by_cases hji : j = i
    · subst hji
      simp at hj
    · rw [hwait j hji] at hj
      cases hj

/-- A thread that waits for a count that has moved on leaves. -/
theorem leave {passed : BitVec 32} (hi : stage i = .waiting passed) (hne : c.passed ≠ passed) :
    round i + 1 = gen ∧
      Sync c (Function.update stage i .out) (Function.update round i gen) gen := by
  have hbehind : round i + 1 = gen ∧ passed = c.passed - 1 := by
    rcases h.inRound i with ⟨-, hst⟩ | ⟨hr, hst⟩ <;> rw [hi] at hst
    · simp only [reduceCtorEq, Stage.waiting.injEq, false_or, or_false] at hst
      exact absurd hst.symm hne
    · exact ⟨hr, Stage.waiting.inj hst⟩
  have hst : ∀ st, st = .last ∨ st = .cleared ∨ st = .waiting c.passed → ∀ j,
      (Function.update stage i .out j = st ↔ stage j = st) := fun st hst j => by
    by_cases hj : j = i
    · subst hj
      rw [Function.update_self, hi]
      rcases hst with rfl | rfl | rfl <;> simp [hne.symm]
    · rw [Function.update_of_ne hj]
  refine ⟨hbehind.1, fun j => ?_, fun hnot => ?_, fun j hj k hk => ?_, fun j hj => ?_, i, by simp⟩
  · by_cases hj : j = i
    · subst hj
      rw [Function.update_self, Function.update_self]
      exact .inl ⟨rfl, .inl rfl⟩
    · rw [Function.update_of_ne hj, Function.update_of_ne hj]
      exact h.inRound j
  · rw [h.arrived fun j hj => hnot j ((hst _ (by simp) j).2 hj)]
    unfold arrivals
    simp only [hst (.waiting c.passed) (by simp), hst .last (by simp)]
  · rw [hst _ (by simp), hst _ (by simp)] at hj
    rw [hst _ (by simp)]
    have hki : k ≠ i := by
      rintro rfl
      have := (h.alone j hj k hk).2
      rw [hi] at this
      exact hne (Stage.waiting.inj this).symm
    rw [Function.update_of_ne hki]
    exact h.alone j hj k hk
  · exact h.cleared j ((hst _ (by simp) j).1 hj)

/-- A thread can take a step in the barrier where none is outside. -/
theorem exists_step (hin : ∀ i, stage i ≠ .out) : ∃ i, Barrier.step n c (stage i) ≠ none := by
  obtain ⟨i, hi⟩ := h.notAll
  refine ⟨i, ?_⟩
  rcases hst : stage i with _ | passed | passed | _ | _
  · exact absurd hst (hin i)
  · simp [Barrier.step]
  · rw [hst] at hi
    have hne : c.passed ≠ passed := fun heq => hi (by rw [heq])
    simp [Barrier.step, hne]
  · simp [Barrier.step]
  · simp [Barrier.step]

end Sync

end Barrier
