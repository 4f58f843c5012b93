import Mathlib

/-!
# Fragments

A set kept as the list of its intervals, in order and none of them empty. What an operation does to
the set is what it does to each interval: an operation that replaces every interval by a list in
order within it keeps the list in order, and covers what its pieces cover.
-/

namespace Fragments

variable {α : Type*} [LinearOrder α]

/-- The elements of the intervals `[p.1, p.2)`. -/
def covered (l : List (α × α)) : Set α := {x | ∃ p ∈ l, x ∈ Set.Ico p.1 p.2}

/-- Intervals that are not empty, one behind the other. -/
structure Ordered (l : List (α × α)) : Prop where
  nonempty : ∀ p ∈ l, p.1 < p.2
  behind : l.Pairwise fun p q => p.2 ≤ q.1

/-- `l` is in order, and within `p`. -/
structure Refines (p : α × α) (l : List (α × α)) : Prop extends Ordered l where
  within : ∀ q ∈ l, p.1 ≤ q.1 ∧ q.2 ≤ p.2

variable {l : List (α × α)} {p q : α × α} {g : α × α → List (α × α)} {s : Set α} {x : α}

@[simp]
theorem covered_nil : covered ([] : List (α × α)) = ∅ := by simp [covered]

@[simp]
theorem covered_cons : covered (p :: l) = Set.Ico p.1 p.2 ∪ covered l := by
  ext x
  simp [covered]

theorem Ordered.nil : Ordered ([] : List (α × α)) := ⟨by simp, .nil⟩

theorem Ordered.single (h : p.1 < p.2) : Ordered [p] := ⟨by simpa using h, by simp⟩

theorem Refines.self (h : p.1 < p.2) : Refines p [p] := ⟨.single h, by simp⟩

theorem Refines.nil : Refines p [] := ⟨.nil, by simp⟩

/-- The lists that stand for the intervals of a list in order are in order themselves. -/
theorem Ordered.flatMap (h : Ordered l) (hg : ∀ p ∈ l, Refines p (g p)) :
    Ordered (l.flatMap g) := by
  refine ⟨fun q hq => ?_, List.pairwise_flatMap.2 ⟨fun p hp => (hg p hp).behind, ?_⟩⟩
  · obtain ⟨p, hp, hq⟩ := List.mem_flatMap.1 hq
    exact (hg p hp).nonempty q hq
  · refine h.behind.imp_of_mem fun {p p'} hp hp' hle q hq q' hq' => ?_
    exact (((hg p hp).within q hq).2.trans hle).trans ((hg p' hp').within q' hq').1

theorem covered_flatMap (hg : ∀ p ∈ l, covered (g p) = Set.Ico p.1 p.2 \ s) :
    covered (l.flatMap g) = covered l \ s := by
  induction l with
  | nil => simp
  | cons p l ih =>
    have hcons : covered (g p ++ l.flatMap g) = covered (g p) ∪ covered (l.flatMap g) := by
      ext x
      simp only [covered, List.mem_append, or_and_right, exists_or]
      rfl
    rw [List.flatMap_cons, hcons, hg p List.mem_cons_self, covered_cons, Set.union_sdiff_distrib,
      ih fun q hq => hg q (List.mem_cons_of_mem _ hq)]

/-- Two intervals of a list in order that share an element are one. -/
theorem Ordered.disjoint (h : Ordered l) :
    l.Pairwise fun p q => Disjoint (Set.Ico p.1 p.2) (Set.Ico q.1 q.2) := by
  refine h.behind.imp fun {p q} hle => Set.disjoint_left.2 fun x hx hx' => ?_
  exact absurd (hx.2.trans_le hle) (not_lt.2 hx'.1)

end Fragments
