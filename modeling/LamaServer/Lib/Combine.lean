import Mathlib.Data.List.AList

/-!
# Combining maps entry by entry

Each entry of a list goes into a map, and is combined with what the map has for its key. There may
be no result of combining two values.
-/

namespace AList

variable {κ : Type*} {β : κ → Type*} [DecidableEq κ] (f : ∀ k, Option (β k) → β k → Option (β k))

def combine (s : AList β) (a : Sigma β) : Option (AList β) :=
  (f a.1 (s.lookup a.1) a.2).map (s.insert a.1 ·)

variable {f} {s s' : AList β} {a : Sigma β} {l : List (Sigma β)} {k : κ}

theorem combine_eq_some : combine f s a = some s' ↔
    ∃ b, f a.1 (s.lookup a.1) a.2 = some b ∧ s.insert a.1 b = s' := Option.map_eq_some_iff

theorem lookup_of_combine_ne (h : combine f s a = some s') (hk : k ≠ a.1) :
    s'.lookup k = s.lookup k := by
  obtain ⟨b, -, rfl⟩ := combine_eq_some.1 h
  exact lookup_insert_ne hk

/-- There is a map in the end if each entry can be combined with what was there before. -/
theorem isSome_foldlM_combine (hl : l.NodupKeys) : (l.foldlM (combine f) s).isSome ↔
    ∀ a ∈ l, (f a.1 (s.lookup a.1) a.2).isSome := by
  induction l generalizing s with
  | nil => simp
  | cons a l ih =>
    obtain ⟨ha, hl⟩ := List.nodupKeys_cons.1 hl
    rw [List.foldlM_cons, List.forall_mem_cons]
    rcases h : combine f s a with _ | s₁
    · have hnone : f a.1 (s.lookup a.1) a.2 = none := Option.map_eq_none_iff.1 h
      simp [hnone]
    · obtain ⟨b, hb, -⟩ := combine_eq_some.1 h
      have hother (c : Sigma β) (hc : c ∈ l) : s₁.lookup c.1 = s.lookup c.1 :=
        lookup_of_combine_ne h fun heq => ha (heq ▸ List.mem_keys_of_mem hc)
      rw [hb, Option.isSome_some, and_iff_right rfl]
      refine (ih hl).trans (forall₂_congr fun c hc => ?_)
      rw [hother c hc]

/-- The entries of the list are combined with those of the map, and the others stay. -/
theorem lookup_of_foldlM_combine (hl : l.NodupKeys) (h : l.foldlM (combine f) s = some s')
    (k : κ) : s'.lookup k = (l.dlookup k).elim (s.lookup k) (f k (s.lookup k)) := by
  induction l generalizing s with
  | nil =>
    obtain rfl := Option.some.inj h
    rfl
  | cons a l ih =>
    obtain ⟨ha, hl⟩ := List.nodupKeys_cons.1 hl
    rw [List.foldlM_cons] at h
    obtain ⟨s₁, hs₁, h⟩ := Option.bind_eq_some_iff.1 h
    rw [ih hl h]
    by_cases hk : k = a.1
    · subst hk
      obtain ⟨b, hb, rfl⟩ := combine_eq_some.1 hs₁
      rw [List.dlookup_eq_none.2 ha, Option.elim_none, lookup_insert, List.dlookup_cons_eq,
        Option.elim_some, hb]
    · rw [lookup_of_combine_ne hs₁ hk, List.dlookup_cons_ne _ _ hk]

/-- All entries of a list go into a map. -/
def insertAll (s : AList β) (l : List (Sigma β)) : AList β :=
  l.foldl (fun s a => s.insert a.1 a.2) s

theorem lookup_insertAll (hl : l.NodupKeys) (k : κ) :
    (s.insertAll l).lookup k = (l.dlookup k).elim (s.lookup k) some := by
  have h (s : AList β) : l.foldlM (combine fun _ _ b => some b) s = some (s.insertAll l) := by
    clear hl
    induction l generalizing s with
    | nil => rfl
    | cons a l ih => exact ih (s.insert a.1 a.2)
  exact lookup_of_foldlM_combine hl (h s) k

end AList
