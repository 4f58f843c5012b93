import Mathlib.Data.List.Induction
import Mathlib.Data.Int.Init

/-!
# The first maximum

A scan that keeps an entry and replaces it by one with a greater key, and takes none with a key that
is not positive.
-/

variable {α : Type*} {f : α → ℤ} {l : List α} {a : α}

/-- The first of the entries whose key is the greatest, if it is positive. -/
def firstMax (f : α → ℤ) (l : List α) : Option α :=
  l.foldl (fun best a => if best.elim 0 f < f a then some a else best) none

theorem firstMax_nil : firstMax f [] = none := rfl

/-- The key of what is kept, or 0, is compared with the next key. -/
theorem firstMax_concat : firstMax f (l ++ [a]) =
    if (firstMax f l).elim 0 f < f a then some a else firstMax f l := by
  unfold firstMax
  rw [List.foldl_append]
  rfl

/-- What is kept is an entry with a positive key. -/
theorem mem_of_firstMax (h : firstMax f l = some a) : a ∈ l ∧ 0 < f a := by
  induction l using List.reverseRecOn generalizing a with
  | nil => exact absurd h nofun
  | append_singleton l b ih =>
    rw [firstMax_concat] at h
    split_ifs at h with hlt
    · obtain rfl := Option.some.inj h
      refine ⟨List.mem_append_right _ List.mem_cons_self, ?_⟩
      rcases hbest : firstMax f l with _ | best
      · rwa [hbest] at hlt
      · rw [hbest, Option.elim_some] at hlt
        exact Int.lt_trans (ih hbest).2 hlt
    · exact ⟨List.mem_append_left _ (ih h).1, (ih h).2⟩

theorem le_elim_firstMax {b : α} (hb : b ∈ l) : f b ≤ (firstMax f l).elim 0 f := by
  induction l using List.reverseRecOn with
  | nil => exact absurd hb List.not_mem_nil
  | append_singleton l a ih =>
    rw [firstMax_concat]
    rcases List.mem_append.1 hb with hb | hb
    · have hle := ih hb
      split_ifs with h
      · exact Int.le_trans hle (Int.le_of_lt h)
      · exact hle
    · obtain rfl := List.mem_singleton.1 hb
      split_ifs with h
      · exact Int.le_refl _
      · exact Int.not_lt.1 h

theorem firstMax_eq_some (h : firstMax f l = some a) : a ∈ l ∧ (∀ b ∈ l, f b ≤ f a) ∧ 0 < f a := by
  refine ⟨(mem_of_firstMax h).1, fun b hb => ?_, (mem_of_firstMax h).2⟩
  have hle : f b ≤ (firstMax f l).elim 0 f := le_elim_firstMax hb
  rwa [h] at hle
