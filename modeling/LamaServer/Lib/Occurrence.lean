import Mathlib.Data.List.Infix
import Mathlib.Data.Nat.Find
import Mathlib.Tactic.Basic

/-!
# Where words stand in a text

Positions at which a word stands, the first of them, texts in which none of some words stands, and
texts in which none can start whatever follows.
-/

namespace Occurrence

variable {α : Type*} {w text u v : List α} {words : List (List α)} {p q n : Nat}

/-- The word stands in the text at `p`. -/
def At (w text : List α) (p : Nat) : Prop := w <+: text.drop p

/-- One of the words stands in the text at `p`. -/
def AnyAt (words : List (List α)) (text : List α) (p : Nat) : Prop := ∃ w ∈ words, At w text p

/-- The first position at which one of the words stands. -/
def First (words : List (List α)) (text : List α) (p : Nat) : Prop :=
  AnyAt words text p ∧ ∀ q < p, ¬ AnyAt words text q

/-- None of the words stands in the text. -/
def Free (words : List (List α)) (text : List α) : Prop := ∀ w ∈ words, ¬ w <:+: text

/-- None of the words starts in the text, whatever follows it. -/
def Closed (words : List (List α)) (text : List α) : Prop :=
  ∀ w ∈ words, ∀ v p, At w (text ++ v) p → text.length ≤ p

section Decidable

variable [DecidableEq α]

instance : Decidable (At w text p) := inferInstanceAs (Decidable (w <+: text.drop p))

instance : Decidable (AnyAt words text p) :=
  inferInstanceAs (Decidable (∃ w ∈ words, At w text p))

instance : Decidable (First words text p) :=
  inferInstanceAs (Decidable (AnyAt words text p ∧ ∀ q < p, ¬ AnyAt words text q))

instance : Decidable (Free words text) := inferInstanceAs (Decidable (∀ w ∈ words, ¬ w <:+: text))

end Decidable

theorem First.le_length (h : First words text p) : p ≤ text.length := by
  obtain ⟨⟨w, hw, hat⟩, hmin⟩ := h
  by_contra hlt
  rw [At, List.drop_eq_nil_of_le (by omega), List.prefix_nil] at hat
  subst hat
  exact hmin 0 (by omega) ⟨[], hw, List.nil_prefix⟩

theorem First.unique (hp : First words text p) (hq : First words text q) : p = q :=
  Nat.le_antisymm (Nat.not_lt.1 fun hlt => hp.2 q hlt hq.1)
    (Nat.not_lt.1 fun hlt => hq.2 p hlt hp.1)

theorem first_singleton : First [w] text p ↔ At w text p ∧ ∀ q < p, ¬ At w text q := by
  simp only [First, AnyAt, List.mem_singleton, exists_eq_left]

theorem At.add_length_le (h : At w text p) (hw : w ≠ []) : p + w.length ≤ text.length := by
  have hpos := List.length_pos_of_ne_nil hw
  have hle := h.length_le
  rw [List.length_drop] at hle
  omega

theorem infix_iff : w <:+: text ↔ ∃ p, At w text p := by
  constructor
  · rintro ⟨s, t, rfl⟩
    exact ⟨s.length, by simp [At]⟩
  · rintro ⟨p, h⟩
    exact h.isInfix.trans (List.drop_suffix p text).isInfix

theorem at_drop : At w (text.drop n) p ↔ At w text (n + p) := by
  rw [At, At, List.drop_drop]

theorem At.append (h : At w text p) (hw : w ≠ []) (v : List α) : At w (text ++ v) p := by
  have hle := h.add_length_le hw
  rw [At, List.drop_append_of_le_length (by omega)]
  exact h.trans (List.prefix_append ..)

theorem At.of_append (h : At w (text ++ v) p) (hp : p + w.length ≤ text.length) :
    At w text p := by
  rw [At, List.drop_append_of_le_length (by omega)] at h
  exact List.prefix_of_prefix_length_le h (List.prefix_append ..) (by
    rw [List.length_drop]
    omega)

theorem At.of_take (h : At w (text.take n) p) (hw : w ≠ []) :
    At w text p ∧ p + w.length ≤ n := by
  have hle := h.add_length_le hw
  rw [List.length_take] at hle
  refine ⟨?_, by omega⟩
  have happ := h.append hw (text.drop n)
  rwa [List.take_append_drop] at happ

theorem free_iff : Free words text ↔ ∀ p, ¬ AnyAt words text p := by
  simp only [Free, infix_iff, AnyAt, not_exists, not_and]
  exact ⟨fun h p w hw => h w hw p, fun h w hw p => h p w hw⟩

theorem Free.of_prefix (h : Free words text) (hu : u <+: text) : Free words u :=
  fun w hw hwu => h w hw (hwu.trans hu.isInfix)

/-- Up to where a word first stands, none does. -/
theorem First.free_take (h : First words text p) (hne : [] ∉ words) :
    Free words (text.take p) := by
  refine free_iff.2 fun q ⟨w, hw, hq⟩ => ?_
  have hw0 : w ≠ [] := fun h0 => hne (h0 ▸ hw)
  obtain ⟨hq, hle⟩ := hq.of_take hw0
  have hpos := List.length_pos_of_ne_nil hw0
  exact h.2 q (by omega) ⟨w, hw, hq⟩

theorem exists_first (h : ¬ Free words text) : ∃ p, First words text p := by
  classical
  rw [free_iff] at h
  push Not at h
  exact ⟨Nat.find h, Nat.find_spec h, fun q hq => Nat.find_min h hq⟩

theorem closed_nil : Closed words [] := fun _ _ _ p _ => Nat.zero_le p

theorem Closed.free (h : Closed words text) (hne : [] ∉ words) : Free words text := by
  refine free_iff.2 fun p ⟨w, hw, hp⟩ => ?_
  have hw0 : w ≠ [] := fun h0 => hne (h0 ▸ hw)
  have hle := hp.add_length_le hw0
  have hpos := List.length_pos_of_ne_nil hw0
  have := h w hw [] p (by rwa [List.append_nil])
  omega

/-- Behind a closed text, words stand where they stand in the rest alone. -/
theorem Closed.anyAt_iff (h : Closed words text) :
    AnyAt words (text ++ u) p ↔ ∃ q, p = text.length + q ∧ AnyAt words u q := by
  have hdrop : ∀ w q, At w u q ↔ At w (text ++ u) (text.length + q) := fun w q => by
    rw [← at_drop, List.drop_left]
  constructor
  · rintro ⟨w, hw, hp⟩
    obtain ⟨q, rfl⟩ := Nat.exists_eq_add_of_le (h w hw u p hp)
    exact ⟨q, rfl, w, hw, (hdrop w q).2 hp⟩
  · rintro ⟨q, rfl, w, hw, hq⟩
    exact ⟨w, hw, (hdrop w q).1 hq⟩

theorem Closed.free_append (h : Closed words text) (hu : Free words u) :
    Free words (text ++ u) := by
  refine free_iff.2 fun p hp => ?_
  obtain ⟨q, -, hq⟩ := h.anyAt_iff.1 hp
  exact free_iff.1 hu q hq

theorem Closed.first_append (h : Closed words text) (hp : First words u p) :
    First words (text ++ u) (text.length + p) := by
  refine ⟨h.anyAt_iff.2 ⟨p, rfl, hp.1⟩, fun q hq hat => ?_⟩
  obtain ⟨q', rfl, hu⟩ := h.anyAt_iff.1 hat
  exact hp.2 q' (by omega) hu

/-- A text stays closed when no word stands in what is added, and no end of that starts a word. -/
theorem Closed.append (h : Closed words text) (hu : Free words u)
    (hend : ∀ w ∈ words, ∀ s, s ≠ [] → s <:+ u → ¬ s <+: w) : Closed words (text ++ u) := by
  intro w hw v p hp
  rw [List.append_assoc] at hp
  obtain ⟨q, rfl⟩ := Nat.exists_eq_add_of_le (h w hw _ p hp)
  rw [← at_drop, List.drop_left] at hp
  rw [List.length_append]
  by_contra hlt
  have hq : q < u.length := by omega
  by_cases hin : q + w.length ≤ u.length
  · exact free_iff.1 hu q ⟨w, hw, hp.of_append hin⟩
  · rw [At, List.drop_append_of_le_length hq.le] at hp
    refine hend w hw (u.drop q) ?_ (List.drop_suffix ..) ?_
    · rw [ne_eq, List.drop_eq_nil_iff]
      omega
    · refine List.prefix_of_prefix_length_le (List.prefix_append ..) hp ?_
      rw [List.length_drop]
      omega

end Occurrence
