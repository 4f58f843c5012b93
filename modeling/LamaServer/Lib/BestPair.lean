import Mathlib.Data.List.Infix
import Mathlib.Order.WithBot

/-!
# Joining the best pair

A list is shortened by joining two neighbours of the least key, the first ones of that key, for as
long as two neighbours have a key at all; `⊤` stands for no key.
-/

namespace BestPair

variable {α κ : Type*} [LinearOrder κ] (key : α → α → WithTop κ) (join : α → α → α)

/-- The least key of two neighbours. -/
def best : List α → WithTop κ
  | x :: y :: xs => min (key x y) (best (y :: xs))
  | _ => ⊤

/-- The first neighbours with the key `k` are joined. -/
def joinFirst (k : WithTop κ) : List α → List α
  | x :: y :: xs => if key x y = k then join x y :: xs else x :: joinFirst k (y :: xs)
  | xs => xs

/-- Up to `n` rounds; each leaves one element less, so the length of the list is enough. -/
def joinAll : Nat → List α → List α
  | 0, xs => xs
  | n + 1, xs => if best key xs = ⊤ then xs else joinAll n (joinFirst key join (best key xs) xs)

section Lemmas

variable {key : α → α → WithTop κ} {join : α → α → α} {pre post xs : List α} {x y : α}
  {k : WithTop κ} {n : Nat}

theorem le_best (h : ∀ a b, [a, b] <:+: xs → k ≤ key a b) : k ≤ best key xs := by
  induction xs with
  | nil => exact le_top
  | cons x xs ih =>
    rcases xs with _ | ⟨y, xs⟩
    · exact le_top
    · exact le_min (h x y ⟨[], xs, rfl⟩) (ih fun a b hab => h a b (List.infix_cons hab))

theorem best_eq_top (h : ∀ a b, [a, b] <:+: xs → key a b = ⊤) : best key xs = ⊤ :=
  top_le_iff.1 (le_best fun a b hab => (h a b hab).ge)

/-- The key of two neighbours is the least one, and smaller than those before them. -/
structure IsFirst (key : α → α → WithTop κ) (pre : List α) (x y : α) (post : List α) : Prop where
  before : ∀ a b, [a, b] <:+: pre ++ [x] → key x y < key a b
  behind : ∀ a b, [a, b] <:+: y :: post → key x y ≤ key a b

theorem IsFirst.best_eq (h : IsFirst key pre x y post) :
    best key (pre ++ x :: y :: post) = key x y := by
  obtain ⟨hpre, hpost⟩ := h
  induction pre with
  | nil => exact min_eq_left (le_best hpost)
  | cons c pre ih =>
    have hrest := ih fun a b hab => hpre a b (List.infix_cons hab)
    rcases pre with _ | ⟨d, pre⟩
    · exact (congrArg _ hrest).trans (min_eq_right (hpre c x ⟨[], [], rfl⟩).le)
    · exact (congrArg _ hrest).trans (min_eq_right (hpre c d ⟨[], pre ++ [x], rfl⟩).le)

theorem IsFirst.joinFirst_eq (h : IsFirst key pre x y post) :
    joinFirst key join (key x y) (pre ++ x :: y :: post) = pre ++ join x y :: post := by
  obtain ⟨hpre, -⟩ := h
  induction pre with
  | nil => exact if_pos rfl
  | cons c pre ih =>
    have hrest := ih fun a b hab => hpre a b (List.infix_cons hab)
    rcases pre with _ | ⟨d, pre⟩
    · exact (if_neg (hpre c x ⟨[], [], rfl⟩).ne').trans (congrArg _ hrest)
    · exact (if_neg (hpre c d ⟨[], pre ++ [x], rfl⟩).ne').trans (congrArg _ hrest)

theorem joinAll_of_top (h : best key xs = ⊤) : joinAll key join n xs = xs := by
  cases n with
  | zero => rfl
  | succ n => exact if_pos h

/-- A round joins the first neighbours of the least key. -/
theorem IsFirst.joinAll_eq (h : IsFirst key pre x y post) (hk : key x y ≠ ⊤) :
    joinAll key join (n + 1) (pre ++ x :: y :: post) =
      joinAll key join n (pre ++ join x y :: post) := by
  rw [joinAll, h.best_eq, if_neg hk, h.joinFirst_eq]

end Lemmas

end BestPair
