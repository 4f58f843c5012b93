import Mathlib.Algebra.Ring.Nat
import Mathlib.Algebra.Order.BigOperators.Group.List
import Mathlib.Algebra.Order.Group.Nat
import Mathlib.Data.List.Basic
import Mathlib.Data.List.Perm.Subperm
import Mathlib.Data.Option.Basic

/-!
# Connection strings

A connection string is a sequence of settings `keyword = value` with blanks between them. A value
that is empty or has blanks, single quotes or backslashes is written in single quotes, with a
backslash before each quote and each backslash in it. A keyword that is set again has its last
value, and one that is not set has none, which is the same as an empty one.
-/

namespace Conninfo

abbrev Bytes := List UInt8

/-- A keyword with its value. -/
abbrev Setting := Bytes × Bytes

def isBlank (c : UInt8) : Bool := c = 32 ∨ 9 ≤ c ∧ c ≤ 13

def quote : UInt8 := 39

def backslash : UInt8 := 92

def equals : UInt8 := 61

/-- The value can be written without quotes. -/
def Plain (v : Bytes) : Prop := v ≠ [] ∧ ∀ c ∈ v, ¬isBlank c ∧ c ≠ quote ∧ c ≠ backslash

instance (v : Bytes) : Decidable (Plain v) := @instDecidableAnd _ _ inferInstance (v.decidableBAll _)

/-- The rest of a value in quotes, and what follows the closing quote. -/
def quoted : Bytes → Option (Bytes × Bytes)
  | [] => none
  | [c] => if c = quote then some ([], []) else none
  | c :: d :: text =>
    if c = quote then some ([], d :: text)
    else if c = backslash then
      if d = quote ∨ d = backslash then (quoted text).map fun (v, rest) => (d :: v, rest) else none
    else (quoted (d :: text)).map fun (v, rest) => (c :: v, rest)

def value (text : Bytes) : Option (Bytes × Bytes) :=
  if text.head? = some quote then quoted text.tail
  else
    let v := text.takeWhile (!isBlank ·)
    if Plain v then some (v, text.drop v.length) else none

def setting (text : Bytes) : Option (Setting × Bytes) :=
  let keyword := text.takeWhile fun c => !isBlank c && c ≠ equals
  let rest := (text.drop keyword.length).dropWhile isBlank
  if keyword ≠ [] ∧ rest.head? = some equals then
    (value (rest.tail.dropWhile isBlank)).map fun (v, rest) => ((keyword, v), rest)
  else none

/-- As many settings as the fuel allows. -/
def settings : Nat → Bytes → Option (List Setting)
  | 0, _ => none
  | fuel + 1, text =>
    match text.dropWhile isBlank with
    | [] => some []
    | c :: text => do
      let (s, rest) ← setting (c :: text)
      guard (rest.head?.all isBlank)
      return s :: (← settings fuel rest)

/-- There are fewer settings than bytes. -/
def parse (text : Bytes) : Option (List Setting) := settings (text.length + 1) text

/-- The value that a keyword is left with. -/
def valueOf (l : List Setting) (keyword : Bytes) : Option Bytes := l.reverse.lookup keyword

/-- A setting without quotes. -/
def render (s : Setting) : Bytes := s.1 ++ equals :: s.2

/-- Settings without quotes. -/
def join : List Setting → Bytes
  | [] => []
  | [s] => render s
  | s :: s' :: l => render s ++ 32 :: join (s' :: l)

/-- A keyword that is read as it is written. -/
def Word (k : Bytes) : Prop := k ≠ [] ∧ ∀ c ∈ k, !isBlank c && c ≠ equals

instance (k : Bytes) : Decidable (Word k) :=
  @instDecidableAnd _ _ _ (List.decidableBAll _ k)

variable {text rest v k : Bytes} {s : Setting} {l ss : List Setting} {fuel : Nat}

theorem mem_of_valueOf (h : valueOf l k = some v) : (k, v) ∈ l := by
  obtain ⟨l₁, l₂, heq, -⟩ := List.lookup_eq_some_iff.1 h
  have hmem : (k, v) ∈ l.reverse := heq ▸ List.mem_append_right _ (List.mem_cons_self ..)
  exact List.mem_reverse.1 hmem

/-! ## Plain settings are read -/

theorem takeWhile_append_of_all {p : UInt8 → Bool} (hv : ∀ c ∈ v, p c)
    (hrest : rest.head?.all (!p ·)) : (v ++ rest).takeWhile p = v := by
  rw [List.takeWhile_append_of_pos hv]
  rcases rest with _ | ⟨c, rest⟩
  · simp
  · rw [List.takeWhile_cons_of_neg (by simpa using hrest), List.append_nil]

theorem value_plain (hv : Plain v) (hrest : rest.head?.all isBlank) :
    value (v ++ rest) = some (v, rest) := by
  have htake : (v ++ rest).takeWhile (!isBlank ·) = v :=
    takeWhile_append_of_all (fun c hc => by simpa using (hv.2 c hc).1) (by simpa using hrest)
  have hhead : (v ++ rest).head? ≠ some quote := by
    rcases v with _ | ⟨c, v⟩
    · exact absurd rfl hv.1
    · simpa using (hv.2 c (List.mem_cons_self ..)).2.1
  rw [value, if_neg hhead, htake, if_pos hv, List.drop_left]

theorem setting_render (hk : Word s.1) (hv : Plain s.2) (hrest : rest.head?.all isBlank) :
    setting (render s ++ rest) = some (s, rest) := by
  obtain ⟨k, v⟩ := s
  have htake : (k ++ equals :: (v ++ rest)).takeWhile (fun c => !isBlank c && c ≠ equals) = k :=
    takeWhile_append_of_all hk.2 rfl
  have hdrop : (v ++ rest).dropWhile isBlank = v ++ rest := by
    rcases v with _ | ⟨c, v⟩
    · exact absurd rfl hv.1
    · exact List.dropWhile_cons_of_neg (hv.2 c (List.mem_cons_self ..)).1
  have heq : (equals :: (v ++ rest)).dropWhile isBlank = equals :: (v ++ rest) := rfl
  simp only [setting, render, List.append_assoc, List.cons_append, htake, List.drop_left, heq,
    List.head?_cons, List.tail_cons, hdrop, value_plain hv hrest]
  rw [if_pos ⟨hk.1, trivial⟩]
  rfl

theorem render_ne_nil : render s ≠ [] := by simp [render]

theorem dropWhile_render (hk : Word s.1) (rest : Bytes) :
    (render s ++ rest).dropWhile isBlank = render s ++ rest := by
  obtain ⟨_ | ⟨c, k⟩, v⟩ := s
  · exact absurd rfl hk.1
  · have hc := hk.2 c (List.mem_cons_self ..)
    rw [Bool.and_eq_true, Bool.not_eq_true'] at hc
    exact List.dropWhile_cons_of_neg (by simp [hc.1])

theorem settings_step (htext : text.dropWhile isBlank = text) (hs : setting text = some (s, rest))
    (hrest : rest.head?.all isBlank) (hne : text ≠ []) :
    settings (fuel + 1) text = (settings fuel rest).map (s :: ·) := by
  obtain ⟨c, text, rfl⟩ := List.exists_cons_of_ne_nil hne
  rw [settings, htext]
  simp only [hs, Option.bind_eq_bind, Option.bind_some, guard, hrest, if_true]
  cases settings fuel rest <;> rfl

theorem settings_blank (text : Bytes) : ∀ fuel, settings fuel (32 :: text) = settings fuel text
  | 0 => rfl
  | fuel + 1 => by
    have hdrop : (32 :: text).dropWhile isBlank = text.dropWhile isBlank := rfl
    rw [settings, settings, hdrop]

theorem settings_join : ∀ {l : List Setting} {fuel : Nat}, l.length < fuel →
    (∀ s ∈ l, Word s.1 ∧ Plain s.2) → settings fuel (join l) = some l
  | [], fuel + 1, _, _ => rfl
  | [s], fuel + 2, _, h => by
    obtain ⟨hk, hv⟩ := h s (List.mem_singleton_self s)
    have hs : setting (render s ++ []) = some (s, []) := setting_render hk hv rfl
    have hdrop := dropWhile_render hk []
    rw [List.append_nil] at hs hdrop
    rw [join, settings_step hdrop hs rfl render_ne_nil]
    rfl
  | s :: s' :: l, fuel + 1, hlen, h => by
    obtain ⟨hk, hv⟩ := h s (List.mem_cons_self ..)
    have hrest : (32 :: join (s' :: l)).head?.all isBlank := rfl
    rw [join, settings_step (dropWhile_render hk _) (setting_render hk hv hrest) hrest
      (by simp [render_ne_nil]), settings_blank,
      settings_join (by simpa using hlen) fun s hs => h s (List.mem_cons_of_mem _ hs)]
    rfl

/-! ## What is read is as long as its text -/

/-- The bytes of a setting and one that separates it from the next, and one more if the value has
to be in quotes. -/
def weight (s : Setting) : Nat := s.1.length + s.2.length + 2 + if Plain s.2 then 0 else 1

theorem quoted_length : ∀ {text v rest : Bytes}, quoted text = some (v, rest) →
    v.length + 1 + rest.length ≤ text.length
  | [], _, _, h => by cases h
  | [c], v, rest, h => by
    unfold quoted at h
    split_ifs at h
    cases h
    simp
  | c :: d :: text, v, rest, h => by
    unfold quoted at h
    split_ifs at h with h1 h2 h3
    · cases h
      simp only [List.length_nil, List.length_cons]
      omega
    · obtain ⟨⟨v', rest'⟩, hq, heq⟩ := Option.map_eq_some_iff.1 h
      cases heq
      have := quoted_length hq
      simp only [List.length_cons]
      omega
    · obtain ⟨⟨v', rest'⟩, hq, heq⟩ := Option.map_eq_some_iff.1 h
      cases heq
      have := quoted_length hq
      simp only [List.length_cons] at this ⊢
      omega

theorem value_length (h : value text = some (v, rest)) :
    v.length + (if Plain v then 0 else 1) + rest.length ≤ text.length := by
  unfold value at h
  dsimp only at h
  split_ifs at h with hquote hplain
  · have hlen := quoted_length h
    have htail : text.tail.length + 1 = text.length := by
      rcases text with _ | ⟨c, text⟩
      · cases hquote
      · rfl
    split_ifs <;> omega
  · cases h
    have hle := (List.takeWhile_prefix (l := text) (!isBlank ·)).length_le
    rw [if_pos hplain, List.length_drop]
    omega

theorem setting_length (h : setting text = some (s, rest)) :
    weight s + rest.length ≤ text.length + 1 := by
  unfold setting at h
  dsimp only at h
  split_ifs at h with hkeyword
  obtain ⟨⟨v, rest'⟩, hv, heq⟩ := Option.map_eq_some_iff.1 h
  cases heq
  have hlen := value_length hv
  have hle := (List.takeWhile_prefix (l := text) fun c => !isBlank c && c ≠ equals).length_le
  generalize text.takeWhile (fun c => !isBlank c && c ≠ equals) = k at *
  have h1 := (List.dropWhile_suffix (l := text.drop k.length) isBlank).length_le
  rw [List.length_drop] at h1
  generalize (text.drop k.length).dropWhile isBlank = after at *
  have h2 := (List.dropWhile_suffix (l := after.tail) isBlank).length_le
  have h3 : after.tail.length + 1 = after.length := by
    rcases after with _ | ⟨c, after⟩
    · cases hkeyword.2
    · rfl
  simp only [weight]
  omega

/-- All settings together are no longer than the text, with one byte for the end of the last. -/
theorem settings_weight : ∀ {fuel : Nat} {text : Bytes} {ss : List Setting},
    settings fuel text = some ss →
    (ss.map weight).sum ≤ (text.dropWhile isBlank).length + 1
  | fuel + 1, text, ss, h => by
    unfold settings at h
    split at h
    · cases h
      simp
    · rename_i c text' htext
      obtain ⟨⟨s, rest⟩, hs, h⟩ := Option.bind_eq_some_iff.1 h
      obtain ⟨_, hrest, h⟩ := Option.bind_eq_some_iff.1 h
      obtain ⟨ss', hss, h⟩ := Option.bind_eq_some_iff.1 h
      cases h
      have hlen := setting_length hs
      have ih := settings_weight hss
      have hblank : (ss'.map weight).sum ≤ rest.length := by
        rcases rest with _ | ⟨c', rest⟩
        · rcases fuel with _ | fuel
          · cases hss
          · cases hss
            exact Nat.le_refl 0
        · have hc : isBlank c' = true := by
            by_contra hc
            simp [guard, hc] at hrest
          rw [List.dropWhile_cons_of_pos hc] at ih
          have hle := (List.dropWhile_suffix (l := rest) isBlank).length_le
          rw [List.length_cons]
          omega
      rw [htext, List.map_cons, List.sum_cons]
      omega

theorem length_join : ∀ {l : List Setting}, l ≠ [] →
    (join l).length + 1 = (l.map fun s => s.1.length + s.2.length + 2).sum
  | [s], _ => by
    simp [join, render]
    omega
  | s :: s' :: l, _ => by
    have ih := length_join (List.cons_ne_nil s' l)
    simp only [join, render, List.length_append, List.length_cons, List.map_cons,
      List.sum_cons] at ih ⊢
    omega

/-- There is no room for quotes, so settings that are read again are plain. -/
theorem plain_of_parse (h : parse (join l) = some ss) (hl : l.Nodup) (hsub : ∀ s ∈ l, s ∈ ss) :
    ∀ s ∈ l, Plain s.2 := by
  intro s hs
  by_contra hplain
  obtain ⟨l', hperm, hl'⟩ := List.subperm_of_subset hl hsub
  have hread := settings_weight h
  have hdrop := (List.dropWhile_suffix (l := join l) isBlank).length_le
  have hlen := length_join (List.ne_nil_of_mem hs)
  have hsum : (l.map weight).sum ≤ (ss.map weight).sum := by
    rw [← (hperm.map weight).sum_eq]
    exact (hl'.map weight).sum_le_sum fun _ _ => Nat.zero_le _
  have hlt : (l.map fun s => s.1.length + s.2.length + 2).sum < (l.map weight).sum :=
    List.sum_lt_sum _ _ (fun s _ => Nat.le_add_right _ _)
      ⟨s, hs, by simp [weight, hplain]⟩
  omega

theorem length_le_join : ∀ l : List Setting, l.length ≤ (join l).length
  | [] => Nat.le_refl 0
  | [_] => List.length_pos_iff.2 render_ne_nil
  | s :: s' :: l => by
    have ih := length_le_join (s' :: l)
    simp only [join, List.length_append, List.length_cons] at ih ⊢
    omega

theorem parse_join (h : ∀ s ∈ l, Word s.1 ∧ Plain s.2) : parse (join l) = some l :=
  settings_join (Nat.lt_succ_of_le (length_le_join l)) h

end Conninfo
