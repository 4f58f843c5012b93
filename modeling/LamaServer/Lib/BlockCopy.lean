import Mathlib.Data.List.Basic

/-!
# Block copies

Copies of blocks of rows within one array. Where no copy writes a row that a copy reads, and no two
of them write one row from different places, every order of the copies has one effect.
-/

/-- Copies `len` rows, those from `src` on, to the rows from `dst` on. -/
structure BlockCopy where
  src : ℕ
  dst : ℕ
  len : ℕ
  deriving DecidableEq

namespace BlockCopy

variable {α : Type*} {g : BlockCopy} {gs gs' : List BlockCopy} {rows : ℕ → α} {i d : ℕ}

def apply (g : BlockCopy) (rows : ℕ → α) : ℕ → α := fun d =>
  if g.dst ≤ d ∧ d < g.dst + g.len then rows (g.src + (d - g.dst)) else rows d

def applyAll (gs : List BlockCopy) (rows : ℕ → α) : ℕ → α :=
  gs.foldl (fun rows g => g.apply rows) rows

/-- Row `d` is written with row `i`. -/
def Copies (g : BlockCopy) (i d : ℕ) : Prop := ∃ k < g.len, i = g.src + k ∧ d = g.dst + k

theorem apply_of_copies (h : g.Copies i d) : g.apply rows d = rows i := by
  obtain ⟨k, hk, rfl, rfl⟩ := h
  simp [apply, hk]

theorem apply_of_not_copies (h : ∀ i, ¬ g.Copies i d) : g.apply rows d = rows d :=
  if_neg fun hd => h (g.src + (d - g.dst)) ⟨d - g.dst, by omega, rfl, by omega⟩

/-- One of the copies writes row `d` with row `i`. -/
def Carries (gs : List BlockCopy) (i d : ℕ) : Prop := ∃ g ∈ gs, g.Copies i d

theorem carries_cons : Carries (g :: gs) i d ↔ g.Copies i d ∨ Carries gs i d := by
  simp [Carries]

/-- No copy writes what a copy reads, and a row is written from one place. -/
structure Independent (gs : List BlockCopy) : Prop where
  apart : ∀ {i d i' d'}, Carries gs i d → Carries gs i' d' → d ≠ i'
  single : ∀ {i i' d}, Carries gs i d → Carries gs i' d → i = i'

theorem Independent.tail (h : Independent (g :: gs)) : Independent gs where
  apart hi hi' := h.apart (carries_cons.2 (.inr hi)) (carries_cons.2 (.inr hi'))
  single hi hi' := h.single (carries_cons.2 (.inr hi)) (carries_cons.2 (.inr hi'))

/-- What independent copies do to the rows. -/
theorem applyAll_spec : ∀ {gs : List BlockCopy} (rows : ℕ → α), Independent gs →
    (∀ i d, Carries gs i d → applyAll gs rows d = rows i) ∧
      ∀ d, (∀ i, ¬ Carries gs i d) → applyAll gs rows d = rows d
  | [], rows, _ => ⟨fun i d ⟨g, hg, _⟩ => absurd hg (by simp), fun d _ => rfl⟩
  | g :: gs, rows, h => by
    obtain ⟨hcopied, hkept⟩ := applyAll_spec (g.apply rows) h.tail
    have hstep : applyAll (g :: gs) rows = applyAll gs (g.apply rows) := rfl
    rw [hstep]
    -- a row that is read later is not written now
    have hlater : ∀ i d, Carries gs i d → applyAll gs (g.apply rows) d = rows i := by
      intro i d hi
      rw [hcopied i d hi]
      refine apply_of_not_copies fun j hj => ?_
      exact h.apart (carries_cons.2 (.inl hj)) (carries_cons.2 (.inr hi)) rfl
    constructor
    · intro i d hi
      rcases carries_cons.1 hi with hg | hgs
      · by_cases hlast : ∃ j, Carries gs j d
        · obtain ⟨j, hj⟩ := hlast
          rw [h.single hi (carries_cons.2 (.inr hj))]
          exact hlater j d hj
        · rw [hkept d (not_exists.1 hlast)]
          exact apply_of_copies hg
      · exact hlater i d hgs
    · intro d hd
      rw [hkept d fun i hi => hd i (carries_cons.2 (.inr hi))]
      exact apply_of_not_copies fun i hi => hd i (carries_cons.2 (.inl hi))

/-- Only the rows carried count, not the order of the copies or how they are grouped. -/
theorem applyAll_congr (h : Independent gs) (hc : ∀ i d, Carries gs' i d ↔ Carries gs i d)
    (rows : ℕ → α) : applyAll gs' rows = applyAll gs rows := by
  have h' : Independent gs' :=
    ⟨fun hi hi' => h.apart ((hc _ _).1 hi) ((hc _ _).1 hi'),
      fun hi hi' => h.single ((hc _ _).1 hi) ((hc _ _).1 hi')⟩
  obtain ⟨hcopied, hkept⟩ := applyAll_spec rows h
  obtain ⟨hcopied', hkept'⟩ := applyAll_spec rows h'
  funext d
  by_cases hd : ∃ i, Carries gs i d
  · obtain ⟨i, hi⟩ := hd
    rw [hcopied i d hi, hcopied' i d ((hc i d).2 hi)]
  · rw [hkept d (not_exists.1 hd), hkept' d fun i hi => hd ⟨i, (hc i d).1 hi⟩]

theorem carries_of_mem_iff (h : ∀ g, g ∈ gs' ↔ g ∈ gs) (i d : ℕ) :
    Carries gs' i d ↔ Carries gs i d := by
  simp only [Carries, h]

end BlockCopy
