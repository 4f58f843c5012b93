import Mathlib.Data.List.Sort
import Mathlib.Order.Basic

/-!
# Sorting by a comparison

A sort that is not stable leaves the order of equivalent entries open. So it is any function that
permutes its list into an order of the comparison, where this is a strict weak order.
-/

/-- What a sort asks of its comparison. -/
structure StrictWeak {α : Type*} (less : α → α → Bool) : Prop where
  irrefl : ∀ a, ¬ less a a
  trans : ∀ {a b c}, less a b → less b c → less a c
  split : ∀ {a c} (b), less a c → less a b ∨ less b c

namespace StrictWeak

variable {α β : Type*} {less : α → α → Bool}

theorem of_key [LinearOrder β] (key : α → β) (h : ∀ a b, less a b ↔ key a < key b) :
    StrictWeak less where
  irrefl a := by
    rw [h]
    exact lt_irrefl (key a)
  trans hab hbc := (h _ _).2 (((h _ _).1 hab).trans ((h _ _).1 hbc))
  split {a c} b hac := by
    rw [h] at hac ⊢
    rw [h]
    rcases lt_or_ge (key a) (key b) with hab | hba
    · exact .inl hab
    · exact .inr (hba.trans_lt hac)

theorem trans_not (h : StrictWeak less) {a b c : α} (hba : ¬ less b a) (hcb : ¬ less c b) :
    ¬ less c a := fun hca => (h.split b hca).elim hcb hba

theorem total_not (h : StrictWeak less) (a b : α) : ¬ less b a ∨ ¬ less a b := by
  by_contra hab
  rw [not_or, not_not, not_not] at hab
  exact h.irrefl a (h.trans hab.2 hab.1)

end StrictWeak

/-- `std::sort`. -/
structure StdSort where
  sort : ∀ {α : Type}, (α → α → Bool) → List α → List α
  perm : ∀ {α : Type} {less : α → α → Bool} (l : List α), StrictWeak less → (sort less l).Perm l
  sorted : ∀ {α : Type} {less : α → α → Bool} (l : List α), StrictWeak less →
    (sort less l).Pairwise fun a b => ¬ less b a

/-- A stable sort is one of them. -/
def StdSort.insertion : StdSort where
  sort less l := l.insertionSort fun a b => ¬ less b a
  perm l _ := List.perm_insertionSort _ l
  sorted {α less} l h := by
    have : Std.Total fun a b => ¬ less b a := ⟨fun a b => h.total_not a b⟩
    have : IsTrans α fun a b => ¬ less b a := ⟨fun _ _ _ => h.trans_not⟩
    exact List.pairwise_insertionSort _ l

/-- `std::partial_sort` of the first `m` entries: the others are in any order. -/
structure StdPartialSort where
  sort : ∀ {α : Type}, (α → α → Bool) → ℕ → List α → List α
  perm : ∀ {α : Type} {less : α → α → Bool} (m : ℕ) (l : List α), StrictWeak less →
    (sort less m l).Perm l
  sorted : ∀ {α : Type} {less : α → α → Bool} (m : ℕ) (l : List α), StrictWeak less →
    ((sort less m l).take m).Pairwise fun a b => ¬ less b a
  least : ∀ {α : Type} {less : α → α → Bool} {m : ℕ} {l : List α} {a b : α}, StrictWeak less →
    a ∈ (sort less m l).take m → b ∈ (sort less m l).drop m → ¬ less b a

/-- A sort of the whole list is one of them. -/
def StdSort.whole (s : StdSort) : StdPartialSort where
  sort less _ l := s.sort less l
  perm _ l h := s.perm l h
  sorted _ l h := (s.sorted l h).sublist (List.take_sublist ..)
  least {α less m l a b} h ha hb := by
    have hsorted := s.sorted l h
    rw [← List.take_append_drop m (s.sort less l)] at hsorted
    exact (List.pairwise_append.1 hsorted).2.2 a ha b hb

/-- The entries with which a sorted list of all entries may begin. -/
structure FirstSorted {α : Type*} (less : α → α → Bool) (first l : List α) : Prop where
  sorted : first.Pairwise fun a b => ¬ less b a
  least : ∃ rest, (first ++ rest).Perm l ∧ ∀ a ∈ first, ∀ b ∈ rest, ¬ less b a

/-- They have the keys with which the list of all keys in order begins. -/
theorem FirstSorted.map_eq {α β : Type*} [LinearOrder β] {less : α → α → Bool} {key : α → β}
    (hless : ∀ a b, less a b ↔ key b < key a) {first l : List α} (h : FirstSorted less first l) :
    first.map key = ((l.map key).insertionSort (· ≥ ·)).take first.length := by
  obtain ⟨hsorted, rest, hperm, hleast⟩ := h
  simp only [hless, not_lt] at hsorted hleast
  have hall : (first.map key ++ (rest.map key).insertionSort (· ≥ ·)).Pairwise (· ≥ ·) := by
    refine List.pairwise_append.2 ⟨List.pairwise_map.2 hsorted, List.pairwise_insertionSort _ _, ?_⟩
    intro x hx y hy
    obtain ⟨a, ha, rfl⟩ := List.mem_map.1 hx
    obtain ⟨b, hb, rfl⟩ := List.mem_map.1 ((List.mem_insertionSort _).1 hy)
    exact hleast a ha b hb
  have hkeys : (first.map key ++ (rest.map key).insertionSort (· ≥ ·)).Perm
      ((l.map key).insertionSort (· ≥ ·)) := by
    refine ((List.perm_insertionSort _ _).append_left _).trans (.trans ?_
      (List.perm_insertionSort _ _).symm)
    rw [← List.map_append]
    exact hperm.map key
  rw [← hkeys.eq_of_pairwise' hall (List.pairwise_insertionSort _ _)]
  simp

theorem StdPartialSort.firstSorted {α : Type} {less : α → α → Bool} (s : StdPartialSort) (m : ℕ)
    (l : List α) (h : StrictWeak less) : FirstSorted less ((s.sort less m l).take m) l where
  sorted := s.sorted m l h
  least := ⟨(s.sort less m l).drop m, by rw [List.take_append_drop]; exact s.perm m l h,
    fun _ ha _ hb => s.least h ha hb⟩
