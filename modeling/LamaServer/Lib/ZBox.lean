import Mathlib.Data.List.Basic
import Mathlib.Order.Bounds.Basic

/-!
# Longest matches of a sequence with itself

How far a sequence matches itself shifted by `k`. Inside a match at a smaller shift, a box, the
match is that of the shift within the box, as long as it does not reach the end of the box.
-/

namespace ZBox

variable {α : Type*} {u : ℕ → α} {N k l m n p z z' : ℕ}

/-- The sequence shifted by `k` has the same first `n` entries. -/
def Matches (u : ℕ → α) (k n : ℕ) : Prop := ∀ i < n, u (k + i) = u i

/-- The longest match at the shift `k` of the first `N` entries. -/
structure IsLongest (u : ℕ → α) (N k z : ℕ) : Prop where
  le : k + z ≤ N
  agree : Matches u k z
  ends : k + z < N → u (k + z) ≠ u z

theorem matches_zero (u : ℕ → α) (k : ℕ) : Matches u k 0 := fun _ hi => absurd hi (Nat.not_lt_zero _)

theorem Matches.mono (h : Matches u k n) (hle : m ≤ n) : Matches u k m :=
  fun i hi => h i (hi.trans_le hle)

theorem Matches.succ (h : Matches u k n) (hn : u (k + n) = u n) : Matches u k (n + 1) := by
  intro i hi
  rcases Nat.lt_succ_iff_lt_or_eq.1 hi with hlt | rfl
  · exact h i hlt
  · exact hn

/-- A match inside a box is one at the shift of both. -/
theorem Matches.box (hbox : Matches u l n) (h : Matches u p m) (hle : p + m ≤ n) :
    Matches u (l + p) m := by
  intro i hi
  rw [Nat.add_assoc, hbox (p + i) (by omega), h i hi]

theorem IsLongest.le_of_matches (h : IsLongest u N k z) (hm : Matches u k m) (hle : k + m ≤ N) :
    m ≤ z := by
  by_contra hlt
  exact h.ends (by omega) (hm z (by omega))

theorem IsLongest.unique (h : IsLongest u N k z) (h' : IsLongest u N k z') : z = z' :=
  le_antisymm (h'.le_of_matches h.agree h.le) (h.le_of_matches h'.agree h'.le)

/-- A match that ends inside the box is copied. -/
theorem IsLongest.copy (h : IsLongest u N p z) (hbox : Matches u l n) (hlt : p + z < n)
    (hle : l + n ≤ N) : IsLongest u N (l + p) z where
  le := by omega
  agree := hbox.box h.agree hlt.le
  ends _ := by
    rw [Nat.add_assoc, hbox (p + z) hlt]
    exact h.ends (by omega)

/-! ## Common prefixes and suffixes -/

section Common

variable [DecidableEq α]

def commonPrefix : List α → List α → ℕ
  | a :: l, b :: l' => if a = b then commonPrefix l l' + 1 else 0
  | _, _ => 0

/-- The length of the longest common suffix. -/
def commonSuffix (l l' : List α) : ℕ := commonPrefix l.reverse l'.reverse

theorem commonPrefix_nil_right (l : List α) : commonPrefix l [] = 0 := by
  cases l <;> rfl

theorem commonPrefix_isGreatest : ∀ l l' : List α,
    IsGreatest {n | ∃ s : List α, s <+: l ∧ s <+: l' ∧ s.length = n} (commonPrefix l l')
  | [], l' => ⟨⟨[], by simp [commonPrefix]⟩, fun n ⟨s, hs, _, hn⟩ => by simp_all⟩
  | a :: l, [] => ⟨⟨[], by simp [commonPrefix]⟩, fun n ⟨s, _, hs, hn⟩ => by simp_all⟩
  | a :: l, b :: l' => by
    unfold commonPrefix
    split_ifs with h
    · subst h
      obtain ⟨⟨s, hs, hs', hlen⟩, hmax⟩ := commonPrefix_isGreatest l l'
      refine ⟨⟨a :: s, List.cons_prefix_cons.2 ⟨rfl, hs⟩, List.cons_prefix_cons.2 ⟨rfl, hs'⟩,
        congrArg _ hlen⟩, ?_⟩
      rintro n ⟨_ | ⟨c, t⟩, ht, ht', rfl⟩
      · exact Nat.zero_le _
      · exact Nat.succ_le_succ
          (hmax ⟨t, (List.cons_prefix_cons.1 ht).2, (List.cons_prefix_cons.1 ht').2, rfl⟩)
    · refine ⟨⟨[], List.nil_prefix, List.nil_prefix, rfl⟩, ?_⟩
      rintro n ⟨_ | ⟨c, t⟩, ht, ht', rfl⟩
      · exact le_rfl
      · exact absurd ((List.cons_prefix_cons.1 ht).1.symm.trans (List.cons_prefix_cons.1 ht').1) h

theorem commonPrefix_le : ∀ l l' : List α, commonPrefix l l' ≤ l.length ∧
    commonPrefix l l' ≤ l'.length
  | [], _ | _ :: _, [] => ⟨Nat.zero_le _, Nat.zero_le _⟩
  | a :: l, b :: l' => by
    have ih := commonPrefix_le l l'
    unfold commonPrefix
    split_ifs <;> simp [ih]

theorem getElem?_commonPrefix : ∀ l l' : List α,
    (∀ i < commonPrefix l l', l[i]? = l'[i]?) ∧
      (commonPrefix l l' < l.length → commonPrefix l l' < l'.length →
        l[commonPrefix l l']? ≠ l'[commonPrefix l l']?)
  | [], l' => by simp [commonPrefix]
  | a :: l, [] => by simp [commonPrefix]
  | a :: l, b :: l' => by
    obtain ⟨hsame, hother⟩ := getElem?_commonPrefix l l'
    unfold commonPrefix
    split_ifs with h
    · subst h
      refine ⟨fun i hi => ?_, by simpa using hother⟩
      rcases i with _ | i
      · rfl
      · simpa using hsame i (by omega)
    · simp [h]

theorem isLongest_commonPrefix {v : List α} (hlen : v.length = N)
    (hu : ∀ i < N, v[i]? = some (u i)) (hk : k ≤ N) :
    IsLongest u N k (commonPrefix v (v.drop k)) := by
  obtain ⟨hle, hle'⟩ := commonPrefix_le v (v.drop k)
  obtain ⟨hsame, hother⟩ := getElem?_commonPrefix v (v.drop k)
  rw [List.length_drop, hlen] at hle' hother
  rw [hlen] at hle
  refine ⟨by omega, fun i hi => ?_, fun hlt heq => ?_⟩
  · have h := hsame i hi
    rw [List.getElem?_drop, hu _ (by omega), hu _ (by omega)] at h
    exact (Option.some.inj h).symm
  · refine hother (by omega) (by omega) ?_
    rw [List.getElem?_drop, hu _ (by omega), hu _ (by omega), heq]

end Common

end ZBox
