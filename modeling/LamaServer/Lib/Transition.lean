import Mathlib.Logic.Relation
import Mathlib.Data.List.Basic

/-!
# Runs of a labelled transition system

A run lists the actions taken between two states. A property of the states that every step keeps
is kept by every run (`Run.invariant`); `Guarded` restricts a system to the steps a condition on
the state and the action allows, so that a claim about the runs that meet a condition is a claim
about the runs of the guarded system.
-/

namespace Transition

variable {σ α : Type*}

/-- The steps of `step` at the states and actions `ok` allows. -/
def Guarded (ok : σ → α → Prop) (step : σ → α → σ → Prop) : σ → α → σ → Prop :=
  fun s a s' => ok s a ∧ step s a s'

/-- `as` are the actions of a run from one state to another. -/
inductive Run (step : σ → α → σ → Prop) : σ → List α → σ → Prop
  | nil {s : σ} : Run step s [] s
  | cons {s s' s'' : σ} {a : α} {as : List α} :
      step s a s' → Run step s' as s'' → Run step s (a :: as) s''

/-- The states runs from an initial state end in. -/
def Reachable (init : σ → Prop) (step : σ → α → σ → Prop) (s : σ) : Prop :=
  ∃ s₀ as, init s₀ ∧ Run step s₀ as s

variable {step : σ → α → σ → Prop} {ok : σ → α → Prop} {init : σ → Prop}

theorem Run.append {s s' s'' : σ} {as bs : List α} (h : Run step s as s')
    (h' : Run step s' bs s'') : Run step s (as ++ bs) s'' := by
  induction h with
  | nil => exact h'
  | cons hs _ ih => exact .cons hs (ih h')

theorem Run.single {s s' : σ} {a : α} (h : step s a s') : Run step s [a] s' :=
  .cons h .nil

/-- A property every step keeps holds at the end of a run that starts in it. -/
theorem Run.invariant {I : σ → Prop} (hstep : ∀ s a s', I s → step s a s' → I s') {s s' : σ}
    {as : List α} (h : Run step s as s') (hs : I s) : I s' := by
  induction h with
  | nil => exact hs
  | cons h _ ih => exact ih (hstep _ _ _ hs h)

theorem Run.mono {step' : σ → α → σ → Prop} (hle : ∀ s a s', step s a s' → step' s a s')
    {s s' : σ} {as : List α} (h : Run step s as s') : Run step' s as s' := by
  induction h with
  | nil => exact .nil
  | cons h _ ih => exact .cons (hle _ _ _ h) ih

/-- A run is not longer than a measure that each step makes smaller is at its start. -/
theorem Run.length_le {I : σ → Prop} {m : σ → ℕ}
    (hstep : ∀ s a s', I s → step s a s' → I s' ∧ m s' < m s) {s s' : σ} {as : List α}
    (h : Run step s as s') (hs : I s) : as.length + m s' ≤ m s := by
  induction h with
  | nil => simp
  | cons h _ ih =>
    obtain ⟨hI, hlt⟩ := hstep _ _ _ hs h
    have := ih hI
    rw [List.length_cons]
    omega

theorem Reachable.invariant {I : σ → Prop} (hinit : ∀ s, init s → I s)
    (hstep : ∀ s a s', I s → step s a s' → I s') {s : σ} (h : Reachable init step s) : I s := by
  obtain ⟨s₀, as, h0, hr⟩ := h
  exact hr.invariant hstep (hinit _ h0)

theorem Reachable.next {s s' : σ} {a : α} (h : Reachable init step s) (hs : step s a s') :
    Reachable init step s' := by
  obtain ⟨s₀, as, h0, hr⟩ := h
  exact ⟨s₀, as ++ [a], h0, hr.append (.single hs)⟩

section Partial

variable {f : σ → α → Option σ}

/-- The states a deterministic partial step function goes through, action by action. -/
def exec (f : σ → α → Option σ) : σ → List α → Option σ
  | s, [] => some s
  | s, a :: as => (f s a).bind (exec f · as)

theorem run_of_exec {s' : σ} : ∀ {s : σ} {as : List α}, exec f s as = some s' →
    Run (fun s a s' => f s a = some s') s as s'
  | s, [], h => by
    simp only [exec, Option.some.injEq] at h
    exact h ▸ .nil
  | s, a :: as, h => by
    simp only [exec, Option.bind_eq_some_iff] at h
    obtain ⟨s₁, hs, hr⟩ := h
    exact .cons hs (run_of_exec hr)

theorem guarded_run_of_exec [∀ s a, Decidable (ok s a)] {s s' : σ} {as : List α}
    (h : exec (fun s a => if ok s a then f s a else none) s as = some s') :
    Run (Guarded ok fun s a s' => f s a = some s') s as s' := by
  refine (run_of_exec h).mono fun s a s' hs => ?_
  simp only [Option.ite_none_right_eq_some] at hs
  exact hs

end Partial

end Transition
