import Mathlib.Data.List.Nodup
import Mathlib.Logic.Function.Basic

/-!
# Work taken from a counter

The numbers below a counter have been given out, each to one worker, who does the item of that
number or, if there is none, nothing. So an item is done once, and all of them are when nobody holds
a number any more and the counter is past the last item (`Shared.mem_iff`).
-/

namespace WorkCounter

variable {ι : Type*} [DecidableEq ι] {items counter : ℕ} {held : ι → Option ℕ} {done : List ℕ}
  {i : ι} {c : ℕ}

/-- The items done, and the numbers held, of those below the counter. -/
structure Shared (items counter : ℕ) (held : ι → Option ℕ) (done : List ℕ) : Prop where
  nodup : done.Nodup
  done_lt : ∀ c ∈ done, c < items ∧ c < counter
  held_lt : ∀ i c, held i = some c → c < counter
  not_done : ∀ i c, held i = some c → c ∉ done
  inj : ∀ i j c, held i = some c → held j = some c → i = j
  given : ∀ c < counter, c < items → c ∈ done ∨ ∃ i, held i = some c

namespace Shared

variable (h : Shared items counter held done)

include h

/-- Somebody does the item of the number held. -/
theorem perform (hi : held i = some c) (hc : c < items) :
    Shared items counter (Function.update held i none) (done ++ [c]) where
  nodup := by
    rw [List.nodup_append]
    refine ⟨h.nodup, List.nodup_singleton _, fun a ha b hb hab => h.not_done i c hi ?_⟩
    rw [List.mem_singleton.1 hb] at hab
    exact hab ▸ ha
  done_lt d hd := by
    rcases List.mem_append.1 hd with hd | hd
    · exact h.done_lt d hd
    · rw [List.mem_singleton.1 hd]
      exact ⟨hc, h.held_lt i c hi⟩
  held_lt j d hj := by
    by_cases hji : j = i
    · simp [hji] at hj
    · exact h.held_lt j d (by rwa [Function.update_of_ne hji] at hj)
  not_done j d hj := by
    by_cases hji : j = i
    · simp [hji] at hj
    · rw [Function.update_of_ne hji] at hj
      rw [List.mem_append, List.mem_singleton, not_or]
      exact ⟨h.not_done j d hj, fun hdc => hji (h.inj j i d hj (hdc ▸ hi))⟩
  inj j k d hj hk := by
    by_cases hji : j = i
    · simp [hji] at hj
    · by_cases hki : k = i
      · simp [hki] at hk
      · rw [Function.update_of_ne hji] at hj
        rw [Function.update_of_ne hki] at hk
        exact h.inj j k d hj hk
  given d hd hditems := by
    rcases h.given d hd hditems with hdone | ⟨j, hj⟩
    · exact .inl (List.mem_append_left _ hdone)
    · by_cases hji : j = i
      · subst hji
        rw [hi] at hj
        exact .inl (by simp [Option.some.inj hj])
      · exact .inr ⟨j, by rwa [Function.update_of_ne hji]⟩

/-- Somebody holds a number without an item. -/
theorem drop (hi : held i = some c) (hc : items ≤ c) :
    Shared items counter (Function.update held i none) done where
  nodup := h.nodup
  done_lt := h.done_lt
  held_lt j d hj := by
    by_cases hji : j = i
    · simp [hji] at hj
    · exact h.held_lt j d (by rwa [Function.update_of_ne hji] at hj)
  not_done j d hj := by
    by_cases hji : j = i
    · simp [hji] at hj
    · exact h.not_done j d (by rwa [Function.update_of_ne hji] at hj)
  inj j k d hj hk := by
    by_cases hji : j = i
    · simp [hji] at hj
    · by_cases hki : k = i
      · simp [hki] at hk
      · rw [Function.update_of_ne hji] at hj
        rw [Function.update_of_ne hki] at hk
        exact h.inj j k d hj hk
  given d hd hditems := by
    rcases h.given d hd hditems with hdone | ⟨j, hj⟩
    · exact .inl hdone
    · refine .inr ⟨j, ?_⟩
      rw [Function.update_of_ne]
      · exact hj
      · rintro rfl
        rw [hi] at hj
        exact absurd (Option.some.inj hj) (by omega)

/-- The next number is given out. -/
theorem fetch (hi : held i = none) :
    Shared items (counter + 1) (Function.update held i (some counter)) done where
  nodup := h.nodup
  done_lt c hc := ⟨(h.done_lt c hc).1, Nat.lt_succ_of_lt (h.done_lt c hc).2⟩
  held_lt j d hj := by
    by_cases hji : j = i
    · subst hji
      simp only [Function.update_self, Option.some.injEq] at hj
      omega
    · rw [Function.update_of_ne hji] at hj
      exact Nat.lt_succ_of_lt (h.held_lt j d hj)
  not_done j d hj hdone := by
    by_cases hji : j = i
    · subst hji
      simp only [Function.update_self, Option.some.injEq] at hj
      exact absurd (h.done_lt d hdone).2 (by omega)
    · rw [Function.update_of_ne hji] at hj
      exact h.not_done j d hj hdone
  inj j k d hj hk := by
    have hlt : ∀ l, l ≠ i → Function.update held i (some counter) l = some d → d < counter :=
      fun l hl hd => h.held_lt l d (by rwa [Function.update_of_ne hl] at hd)
    by_cases hji : j = i <;> by_cases hki : k = i
    · rw [hji, hki]
    · subst hji
      have := hlt k hki hk
      simp only [Function.update_self, Option.some.injEq] at hj
      omega
    · subst hki
      have := hlt j hji hj
      simp only [Function.update_self, Option.some.injEq] at hk
      omega
    · rw [Function.update_of_ne hji] at hj
      rw [Function.update_of_ne hki] at hk
      exact h.inj j k d hj hk
  given d hd hditems := by
    by_cases hdc : d = counter
    · exact .inr ⟨i, by rw [Function.update_self, hdc]⟩
    · rcases h.given d (by omega) hditems with hdone | ⟨j, hj⟩
      · exact .inl hdone
      · refine .inr ⟨j, ?_⟩
        rw [Function.update_of_ne]
        · exact hj
        · rintro rfl
          rw [hi] at hj
          cases hj

omit [DecidableEq ι] in
/-- All is done. -/
theorem mem_iff (hnone : ∀ i, held i = none) (hle : items ≤ counter) :
    c ∈ done ↔ c < items := by
  refine ⟨fun hc => (h.done_lt c hc).1, fun hc => ?_⟩
  rcases h.given c (Nat.lt_of_lt_of_le hc hle) hc with hdone | ⟨i, hi⟩
  · exact hdone
  · rw [hnone i] at hi
    cases hi

end Shared

/-- At first each worker holds its own number. -/
theorem shared_start (nth items : ℕ) :
    Shared items nth (fun i : Fin nth => some i.val) [] where
  nodup := List.nodup_nil
  done_lt := by simp
  held_lt i c hi := Option.some.inj hi ▸ i.isLt
  not_done := by simp
  inj i j c hi hj := Fin.ext (Option.some.inj (hi.trans hj.symm))
  given c hc _ := .inr ⟨⟨c, hc⟩, rfl⟩

end WorkCounter
