import Mathlib.Data.List.Basic
import Mathlib.Data.List.FinRange
import Mathlib.Data.List.Nodup
import Mathlib.Data.List.Perm.Subperm
import Mathlib.Data.List.Range
import Mathlib.Logic.Function.Basic

/-!
# Open addressing

A table of `size` places in which a key is looked for from its own place on, cyclically, until the
key or an empty place is found. Keys are only added. A key that was put somewhere is found there
(`Holds`), since the places it passed are never given back.
-/

namespace Probing

section Probe

variable {size start : ℕ} {p : ℕ → Bool}

/-- The first place with `p` from `i` on, cyclically, or none if the loop is back at `start` before.
The first argument bounds the rounds. -/
def probe (size start : ℕ) (p : ℕ → Bool) : ℕ → ℕ → Option ℕ
  | 0, _ => none
  | r + 1, i =>
    if p i then some i
    else if (i + 1) % size = start then none
    else probe size start p r ((i + 1) % size)

theorem probe_eq_find? (hstart : start < size) :
    ∀ r k, k + r = size → probe size start p r ((start + k) % size) =
      ((List.range' k r).map fun j => (start + j) % size).find? p
  | 0, k, _ => rfl
  | r + 1, k, h => by
    rw [probe, List.range'_succ, List.map_cons, List.find?_cons]
    rcases hp : p ((start + k) % size) with _ | _
    · have hnext : ((start + k) % size + 1) % size = (start + (k + 1)) % size := by
        rw [Nat.mod_add_mod, Nat.add_assoc]
      rw [if_neg (by simp), hnext]
      split_ifs with hback
      · have hr : r = 0 := by
          by_contra hr
          rcases Nat.lt_or_ge (start + (k + 1)) size with hlt | hge
          · rw [Nat.mod_eq_of_lt hlt] at hback
            omega
          · rw [Nat.mod_eq_sub_mod hge, Nat.mod_eq_of_lt (by omega)] at hback
            omega
        subst hr
        rfl
      · exact probe_eq_find? hstart r (k + 1) (by omega)
    · simp

theorem probe_eq_some (hstart : start < size) {i : ℕ} :
    probe size start p size start = some i ↔
      ∃ k < size, (start + k) % size = i ∧ p i ∧ ∀ j < k, p ((start + j) % size) = false := by
  have h := probe_eq_find? (p := p) hstart size 0 (Nat.zero_add _)
  rw [Nat.add_zero, Nat.mod_eq_of_lt hstart, ← List.range_eq_range', List.find?_map] at h
  simp only [h, Option.map_eq_some_iff, List.find?_range_eq_some, Function.comp_apply,
    List.mem_range, Bool.not_eq_true']
  constructor
  · rintro ⟨k, ⟨hp, hk, hbefore⟩, rfl⟩
    exact ⟨k, hk, rfl, hp, hbefore⟩
  · rintro ⟨k, hk, rfl, hp, hbefore⟩
    exact ⟨k, ⟨hp, hk, hbefore⟩, rfl⟩

theorem probe_eq_none (hstart : start < size) :
    probe size start p size start = none ↔ ∀ i < size, p i = false := by
  have h := probe_eq_find? (p := p) hstart size 0 (Nat.zero_add _)
  rw [Nat.add_zero, Nat.mod_eq_of_lt hstart, ← List.range_eq_range'] at h
  rw [h, List.find?_eq_none]
  simp only [List.mem_map, List.mem_range, forall_exists_index, and_imp,
    forall_apply_eq_imp_iff₂, Bool.not_eq_true]
  constructor
  · intro hall i hi
    rcases Nat.lt_or_ge i start with hlt | hge
    · have hback := hall (size - start + i) (by omega)
      rwa [show start + (size - start + i) = i + size by omega, Nat.add_mod_right,
        Nat.mod_eq_of_lt hi] at hback
    · have hon := hall (i - start) (by omega)
      rwa [Nat.add_sub_cancel' hge, Nat.mod_eq_of_lt hi] at hon
  · exact fun hall j _ => hall _ (Nat.mod_lt _ (by omega))

end Probe

variable {α : Type*} [DecidableEq α] {hash : α → ℕ} {size i : ℕ} {slots : ℕ → Option α}
  {keys : List α} {key : α}

/-- Where a key is, or where it goes; none in a full table without it. -/
def place (hash : α → ℕ) (size : ℕ) (slots : ℕ → Option α) (key : α) : Option ℕ :=
  probe size (hash key % size) (fun i => slots i = none ∨ slots i = some key) size
    (hash key % size)

/-- The table holds each of the keys once, at the place where the search for it ends. -/
structure Holds (hash : α → ℕ) (size : ℕ) (slots : ℕ → Option α) (keys : List α) : Prop where
  pos : 0 < size
  nodup : keys.Nodup
  mem : ∀ key, key ∈ keys ↔ ∃ i < size, slots i = some key
  found : ∀ i < size, ∀ key, slots i = some key → place hash size slots key = some i

theorem holds_nil (hpos : 0 < size) (hempty : ∀ i < size, slots i = none) :
    Holds hash size slots [] where
  pos := hpos
  nodup := List.nodup_nil
  mem key := by
    simp only [List.not_mem_nil, false_iff, not_exists, not_and]
    intro i hi h
    rw [hempty i hi] at h
    cases h
  found i hi key h := by
    rw [hempty i hi] at h
    cases h

theorem place_eq_some (hpos : 0 < size) : place hash size slots key = some i ↔
    ∃ k < size, (hash key % size + k) % size = i ∧ (slots i = none ∨ slots i = some key) ∧
      ∀ j < k, slots ((hash key % size + j) % size) ≠ none ∧
        slots ((hash key % size + j) % size) ≠ some key := by
  rw [place, probe_eq_some (Nat.mod_lt _ hpos)]
  simp

theorem lt_of_place (hpos : 0 < size) (h : place hash size slots key = some i) : i < size := by
  obtain ⟨k, -, rfl, -⟩ := (place_eq_some hpos).1 h
  exact Nat.mod_lt _ hpos

namespace Holds

variable (h : Holds hash size slots keys)

include h

theorem place_of_mem (hkey : key ∈ keys) :
    ∃ i < size, slots i = some key ∧ place hash size slots key = some i := by
  obtain ⟨i, hi, hslot⟩ := (h.mem key).1 hkey
  exact ⟨i, hi, hslot, h.found i hi key hslot⟩

theorem slot_of_place (hplace : place hash size slots key = some i) :
    slots i = if key ∈ keys then some key else none := by
  split_ifs with hkey
  · obtain ⟨j, -, hslot, hj⟩ := h.place_of_mem hkey
    rw [hj] at hplace
    exact Option.some.inj hplace ▸ hslot
  · obtain ⟨k, -, rfl, hslot | hslot, -⟩ := (place_eq_some h.pos).1 hplace
    · exact hslot
    · exact absurd ((h.mem key).2 ⟨_, Nat.mod_lt _ h.pos, hslot⟩) hkey

theorem length_le : keys.length ≤ size := by
  have hinj : (keys.map fun key => (place hash size slots key).getD 0).Nodup := by
    refine (List.nodup_map_iff_inj_on h.nodup).2 fun a ha b hb hab => ?_
    obtain ⟨i, -, hi, hpa⟩ := h.place_of_mem ha
    obtain ⟨j, -, hj, hpb⟩ := h.place_of_mem hb
    simp only [hpa, hpb, Option.getD_some] at hab
    subst hab
    exact Option.some.inj (hi.symm.trans hj)
  have hsub : (keys.map fun key => (place hash size slots key).getD 0) ⊆ List.range size := by
    intro i hi
    obtain ⟨a, ha, rfl⟩ := List.mem_map.1 hi
    obtain ⟨i, hi, -, hpa⟩ := h.place_of_mem ha
    simpa [hpa] using hi
  simpa using (hinj.subperm hsub).length_le

/-- A search ends without a place only in a full table. -/
theorem size_le_of_place (hplace : place hash size slots key = none) :
    size ≤ keys.length ∧ key ∉ keys := by
  rw [place, probe_eq_none (Nat.mod_lt _ h.pos)] at hplace
  simp only [decide_eq_false_iff_not, not_or] at hplace
  refine ⟨?_, fun hkey => ?_⟩
  · have hsome : ∀ i : Fin size, ∃ key ∈ keys, slots i = some key := fun i => by
      obtain ⟨key, hkey⟩ := Option.ne_none_iff_exists'.1 (hplace i i.2).1
      exact ⟨key, (h.mem key).2 ⟨i, i.2, hkey⟩, hkey⟩
    choose f hf hslot using hsome
    have hinj : (List.ofFn f).Nodup := by
      refine List.nodup_ofFn.2 fun i j hij => Fin.ext ?_
      have hi := h.found i i.2 _ (hslot i)
      rw [hij, h.found j j.2 _ (hslot j)] at hi
      exact (Option.some.inj hi).symm
    have hsub : List.ofFn f ⊆ keys := by
      intro key hkey
      obtain ⟨i, rfl⟩ := List.mem_ofFn.1 hkey
      exact hf i
    simpa using (hinj.subperm hsub).length_le
  · obtain ⟨i, hi, hslot⟩ := (h.mem key).1 hkey
    exact (hplace i hi).2 hslot

/-- A key is put where its search ends, and no other search passes this place with another end. -/
theorem insert (hkey : key ∉ keys) (hplace : place hash size slots key = some i) :
    Holds hash size (Function.update slots i (some key)) (keys ++ [key]) := by
  have hi := lt_of_place h.pos hplace
  have hempty : slots i = none := by simpa [hkey] using h.slot_of_place hplace
  refine ⟨h.pos, ?_, fun key' => ?_, fun i' hi' key' hslot => ?_⟩
  · rw [List.nodup_append]
    refine ⟨h.nodup, List.nodup_singleton _, fun a ha b hb hab => ?_⟩
    rw [List.mem_singleton.1 hb] at hab
    exact hkey (hab ▸ ha)
  · rw [List.mem_append, List.mem_singleton, h.mem]
    constructor
    · rintro (⟨j, hj, hslot⟩ | rfl)
      · refine ⟨j, hj, ?_⟩
        rw [Function.update_of_ne (fun hji => by rw [hji, hempty] at hslot; cases hslot)]
        exact hslot
      · exact ⟨i, hi, Function.update_self ..⟩
    · rintro ⟨j, hj, hslot⟩
      by_cases hji : j = i
      · rw [hji, Function.update_self] at hslot
        exact .inr (Option.some.inj hslot).symm
      · rw [Function.update_of_ne hji] at hslot
        exact .inl ⟨j, hj, hslot⟩
  · by_cases hne : i' = i
    · rw [hne, Function.update_self] at hslot
      obtain rfl := Option.some.inj hslot
      obtain ⟨k, hk, hend, -, hbefore⟩ := (place_eq_some h.pos).1 hplace
      rw [hne]
      refine (place_eq_some h.pos).2 ⟨k, hk, hend, .inr (Function.update_self ..), fun j hj => ?_⟩
      have hother : (hash key % size + j) % size ≠ i := fun heq => by
        have := (hbefore j hj).1
        rw [heq] at this
        exact this hempty
      rw [Function.update_of_ne hother]
      exact hbefore j hj
    · rw [Function.update_of_ne hne] at hslot
      have hother : key' ≠ key := fun heq => hkey ((h.mem key).2 ⟨i', hi', heq ▸ hslot⟩)
      obtain ⟨k, hk, hend, -, hbefore⟩ := (place_eq_some h.pos).1 (h.found i' hi' key' hslot)
      refine (place_eq_some h.pos).2 ⟨k, hk, hend, .inr ?_, fun j hj => ?_⟩
      · rw [Function.update_of_ne hne]
        exact hslot
      · by_cases hji : (hash key' % size + j) % size = i
        · rw [hji, Function.update_self]
          exact ⟨Option.some_ne_none _, fun heq => hother (Option.some.inj heq).symm⟩
        · rw [Function.update_of_ne hji]
          exact hbefore j hj

end Holds

end Probing
