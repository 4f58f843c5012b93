import Mathlib.Data.List.Infix
import Mathlib.Tactic.SplitIfs

/-!
# Regular expressions with groups

A backtracking search runs an expression together with what has to come behind it, and takes the
next way to match the expression where that fails: `Pattern.run`. The ways come in the order of
preference, so the first that succeeds is the match, and what it says of the groups is what they
have matched. Which ways there are is said by `Pattern.Way`.
-/

/-- A regular expression. The repeated parts are single characters. -/
inductive Pattern (α : Type*) where
  | empty
  | char (p : α → Bool)
  | seq (r s : Pattern α)
  | alt (r s : Pattern α)
  /-- As many characters as possible. -/
  | star (p : α → Bool)
  /-- As few characters as possible. -/
  | lazyStar (p : α → Bool)
  | group (i : ℕ) (r : Pattern α)
  /-- Something is the case of what is left. -/
  | assert (q : List α → Bool)

namespace Pattern

variable {α β γ : Type*}

/-- What the groups have matched, the latest first. -/
abbrev Groups (α : Type*) := List (ℕ × List α)

/-- What comes behind an expression. -/
abbrev Behind (α β : Type*) := List α → Groups α → Option β

/-- From the most characters on. -/
def runStar (p : α → Bool) (k : List α → Option β) : List α → Option β
  | [] => k []
  | c :: t => if p c then (runStar p k t).or (k (c :: t)) else k (c :: t)

/-- From the fewest characters on. -/
def runLazy (p : α → Bool) (k : List α → Option β) : List α → Option β
  | [] => k []
  | c :: t => (k (c :: t)).or (if p c then runLazy p k t else none)

/-- The first way to match the expression, and then what comes behind it. -/
def run : Pattern α → Behind α β → Behind α β
  | empty, k => k
  | char p, k => fun
    | [], _ => none
    | c :: t, g => if p c then k t g else none
  | seq r s, k => run r (run s k)
  | alt r s, k => fun t g => (run r k t g).or (run s k t g)
  | star p, k => fun t g => runStar p (k · g) t
  | lazyStar p, k => fun t g => runLazy p (k · g) t
  | group i r, k => fun t g =>
    run r (fun u g => k u ((i, t.take (t.length - u.length)) :: g)) t g
  | assert q, k => fun t g => if q t then k t g else none

/-- Where an expression has been found, and what its groups are. -/
structure Match (α : Type*) where
  before : List α
  found : List α
  behind : List α
  groups : Groups α

/-- The match at the start of a list. -/
def matchHere (r : Pattern α) (t : List α) : Option (Match α) :=
  r.run (fun u g => some ⟨[], t.take (t.length - u.length), u, g⟩) t []

/-- The first match in a list. -/
def search (r : Pattern α) : List α → Option (Match α)
  | [] => r.matchHere []
  | c :: t => (r.matchHere (c :: t)).or
      ((search r t).map fun m => { m with before := c :: m.before })

/-- The groups where the whole list is matched. -/
def fullMatch (r : Pattern α) (t : List α) : Option (Groups α) :=
  r.run (fun u g => if u.isEmpty then some g else none) t []

/-- A group that has matched nothing is empty. -/
def Groups.get (g : Groups α) (i : ℕ) : List α := (g.lookup i).getD []

def opt (r : Pattern α) : Pattern α := alt r empty

def plus (p : α → Bool) : Pattern α := seq (char p) (star p)

def seqs (rs : List (Pattern α)) : Pattern α := rs.foldr seq empty

def oneOf : List (Pattern α) → Pattern α
  | [] => char fun _ => false
  | [r] => r
  | r :: rs => alt r (oneOf rs)

def word [DecidableEq α] (w : List α) : Pattern α := seqs (w.map fun a => char (· == a))

/-- How many characters each match has at least. -/
def minLength : Pattern α → ℕ
  | empty | star _ | lazyStar _ | assert _ => 0
  | char _ => 1
  | seq r s => minLength r + minLength s
  | alt r s => min (minLength r) (minLength s)
  | group _ r => minLength r

section Run

variable {r s : Pattern α} {p : α → Bool} {k : Behind α β} {t : List α} {g : Groups α} {b : β}

@[simp] theorem run_empty : (empty : Pattern α).run k t g = k t g := rfl

@[simp] theorem run_char_nil : (char p).run k [] g = none := rfl

@[simp] theorem run_char_cons {c : α} :
    (char p).run k (c :: t) g = if p c then k t g else none := rfl

@[simp] theorem run_seq : (seq r s).run k t g = r.run (s.run k) t g := rfl

@[simp] theorem run_alt : (alt r s).run k t g = (r.run k t g).or (s.run k t g) := rfl

@[simp] theorem run_group {i : ℕ} : (group i r).run k t g =
    r.run (fun u g => k u ((i, t.take (t.length - u.length)) :: g)) t g := rfl

@[simp] theorem run_star : (star p).run k t g = runStar p (k · g) t := rfl

@[simp] theorem run_lazyStar : (lazyStar p).run k t g = runLazy p (k · g) t := rfl

@[simp] theorem run_assert {q : List α → Bool} :
    (assert q).run k t g = if q t then k t g else none := rfl

@[simp] theorem run_opt : (opt r).run k t g = (r.run k t g).or (k t g) := rfl

@[simp] theorem run_seqs_nil : (seqs ([] : List (Pattern α))).run k t g = k t g := rfl

@[simp] theorem run_seqs_cons {rs : List (Pattern α)} :
    (seqs (r :: rs)).run k t g = r.run ((seqs rs).run k) t g := rfl

@[simp] theorem run_plus : (plus p).run k t g = (char p).run ((star p).run k) t g := rfl

/-- A word is matched where the list starts with it. -/
theorem run_word [DecidableEq α] : ∀ (w : List α) {t : List α},
    (word w).run k t g = if w <+: t then k (t.drop w.length) g else none
  | [], t => by simp [word]
  | a :: w, [] => by simp [word]
  | a :: w, c :: t => by
    have ih : (word w).run k t g = if w <+: t then k (t.drop w.length) g else none := run_word w
    rw [word] at ih ⊢
    rw [List.map_cons, run_seqs_cons, run_char_cons, ih]
    by_cases hc : c = a
    · simp [hc, List.cons_prefix_cons]
    · simp [hc, List.cons_prefix_cons, Ne.symm hc]

end Run

/-! ## The ways to match -/

/-- The expression matches at the start of `t`, with `u` behind it and the groups `h` then. -/
def Way : Pattern α → List α → Groups α → List α → Groups α → Prop
  | empty, t, g, u, h => u = t ∧ h = g
  | char p, t, g, u, h => ∃ c, p c ∧ t = c :: u ∧ h = g
  | seq r s, t, g, u, h => ∃ v g', Way r t g v g' ∧ Way s v g' u h
  | alt r s, t, g, u, h => Way r t g u h ∨ Way s t g u h
  | star p, t, g, u, h => ∃ w, (∀ c ∈ w, p c) ∧ t = w ++ u ∧ h = g
  | lazyStar p, t, g, u, h => ∃ w, (∀ c ∈ w, p c) ∧ t = w ++ u ∧ h = g
  | group i r, t, g, u, h => ∃ h', Way r t g u h' ∧ h = (i, t.take (t.length - u.length)) :: h'
  | assert q, t, g, u, h => q t ∧ u = t ∧ h = g

section Way

variable {r s : Pattern α} {p : α → Bool} {k : Behind α β} {t u : List α} {g h : Groups α} {b : β}

theorem runStar_eq_some {k : List α → Option β} : ∀ {t : List α}, runStar p k t = some b →
    ∃ w u, (∀ c ∈ w, p c) ∧ t = w ++ u ∧ k u = some b
  | [], h => ⟨[], [], by simp, rfl, h⟩
  | c :: t, h => by
    rw [runStar] at h
    split_ifs at h with hp
    · rcases Option.or_eq_some_iff.1 h with h | ⟨-, h⟩
      · obtain ⟨w, u, hw, rfl, hk⟩ := runStar_eq_some h
        exact ⟨c :: w, u, by simpa using ⟨hp, hw⟩, rfl, hk⟩
      · exact ⟨[], c :: t, by simp, rfl, h⟩
    · exact ⟨[], c :: t, by simp, rfl, h⟩

theorem runLazy_eq_some {k : List α → Option β} : ∀ {t : List α}, runLazy p k t = some b →
    ∃ w u, (∀ c ∈ w, p c) ∧ t = w ++ u ∧ k u = some b
  | [], h => ⟨[], [], by simp, rfl, h⟩
  | c :: t, h => by
    rw [runLazy] at h
    rcases Option.or_eq_some_iff.1 h with h | ⟨-, h⟩
    · exact ⟨[], c :: t, by simp, rfl, h⟩
    · split_ifs at h with hp
      obtain ⟨w, u, hw, rfl, hk⟩ := runLazy_eq_some h
      exact ⟨c :: w, u, by simpa using ⟨hp, hw⟩, rfl, hk⟩

theorem run_eq_some : ∀ (r : Pattern α) {k : Behind α β} {t : List α} {g : Groups α},
    r.run k t g = some b → ∃ u h, r.Way t g u h ∧ k u h = some b
  | empty, _, t, g, h => ⟨t, g, ⟨rfl, rfl⟩, h⟩
  | char p, k, [], g, h => by simp at h
  | char p, k, c :: t, g, h => by
    rw [run_char_cons] at h
    split_ifs at h with hp
    exact ⟨t, g, ⟨c, hp, rfl, rfl⟩, h⟩
  | seq r s, k, t, g, h => by
    obtain ⟨u, g', hr, h⟩ := run_eq_some r h
    obtain ⟨v, h', hs, h⟩ := run_eq_some s h
    exact ⟨v, h', ⟨u, g', hr, hs⟩, h⟩
  | alt r s, k, t, g, h => by
    rcases Option.or_eq_some_iff.1 h with h | ⟨-, h⟩
    · obtain ⟨u, g', hr, h⟩ := run_eq_some r h
      exact ⟨u, g', .inl hr, h⟩
    · obtain ⟨u, g', hs, h⟩ := run_eq_some s h
      exact ⟨u, g', .inr hs, h⟩
  | star p, k, t, g, h => by
    obtain ⟨w, u, hw, ht, h⟩ := runStar_eq_some h
    exact ⟨u, g, ⟨w, hw, ht, rfl⟩, h⟩
  | lazyStar p, k, t, g, h => by
    obtain ⟨w, u, hw, ht, h⟩ := runLazy_eq_some h
    exact ⟨u, g, ⟨w, hw, ht, rfl⟩, h⟩
  | group i r, k, t, g, h => by
    obtain ⟨u, g', hr, h⟩ := run_eq_some r h
    exact ⟨u, _, ⟨g', hr, rfl⟩, h⟩
  | assert q, k, t, g, h => by
    rw [run_assert] at h
    split_ifs at h with hq
    exact ⟨t, g, ⟨hq, rfl, rfl⟩, h⟩

theorem runStar_isSome {k : List α → Option β} : ∀ {w u : List α}, (∀ c ∈ w, p c) →
    (k u).isSome → (runStar p k (w ++ u)).isSome
  | [], [], _, hk => hk
  | [], c :: u, _, hk => by
    rw [List.nil_append, runStar]
    split_ifs
    · simp [hk]
    · exact hk
  | c :: w, u, hw, hk => by
    have ih := runStar_isSome (fun d hd => hw d (List.mem_cons_of_mem c hd)) hk
    rw [List.cons_append, runStar, if_pos (hw c List.mem_cons_self)]
    simp [ih]

theorem runLazy_isSome {k : List α → Option β} : ∀ {w u : List α}, (∀ c ∈ w, p c) →
    (k u).isSome → (runLazy p k (w ++ u)).isSome
  | [], [], _, hk => hk
  | [], c :: u, _, hk => by
    rw [List.nil_append, runLazy]
    simp [hk]
  | c :: w, u, hw, hk => by
    have ih := runLazy_isSome (fun d hd => hw d (List.mem_cons_of_mem c hd)) hk
    rw [List.cons_append, runLazy, if_pos (hw c List.mem_cons_self)]
    simp [ih]

/-- The search comes to each way, unless one before it succeeds. -/
theorem run_isSome : ∀ (r : Pattern α) {k : Behind α β} {t u : List α} {g h : Groups α},
    r.Way t g u h → (k u h).isSome → (r.run k t g).isSome
  | empty, k, t, u, g, h, hway, hk => by
    obtain ⟨rfl, rfl⟩ := hway
    exact hk
  | char p, k, t, u, g, h, hway, hk => by
    obtain ⟨c, hp, rfl, rfl⟩ := hway
    rw [run_char_cons, if_pos hp]
    exact hk
  | seq r s, k, t, u, g, h, hway, hk => by
    obtain ⟨v, g', hr, hs⟩ := hway
    exact run_isSome r hr (run_isSome s hs hk)
  | alt r s, k, t, u, g, h, hway, hk => by
    rw [run_alt, Option.isSome_or]
    rcases hway with hr | hs
    · simp [run_isSome r hr hk]
    · simp [run_isSome s hs hk]
  | star p, k, t, u, g, h, hway, hk => by
    obtain ⟨w, hw, rfl, rfl⟩ := hway
    exact runStar_isSome hw hk
  | lazyStar p, k, t, u, g, h, hway, hk => by
    obtain ⟨w, hw, rfl, rfl⟩ := hway
    exact runLazy_isSome hw hk
  | group i r, k, t, u, g, h, hway, hk => by
    obtain ⟨h', hr, rfl⟩ := hway
    exact run_isSome r hr hk
  | assert q, k, t, u, g, h, hway, hk => by
    obtain ⟨hq, rfl, rfl⟩ := hway
    rw [run_assert, if_pos hq]
    exact hk

theorem way_word [DecidableEq α] : ∀ (w : List α) {t : List α},
    (word w).Way t g u h ↔ t = w ++ u ∧ h = g
  | [], t => by
    simp [word, seqs, Way, eq_comm]
  | a :: w, t => by
    have ih : ∀ {t : List α}, (word w).Way t g u h ↔ t = w ++ u ∧ h = g := way_word w
    simp only [word, seqs] at ih ⊢
    simp only [List.map_cons, List.foldr_cons, Way, beq_iff_eq, List.cons_append]
    constructor
    · rintro ⟨v, g', ⟨c, rfl, rfl, rfl⟩, hw⟩
      obtain ⟨rfl, rfl⟩ := ih.1 hw
      exact ⟨rfl, rfl⟩
    · rintro ⟨rfl, rfl⟩
      exact ⟨w ++ u, h, ⟨a, rfl, rfl, rfl⟩, ih.2 ⟨rfl, rfl⟩⟩

/-- What is left is the end of the list, and what the groups have matched is in front of it. -/
structure Leaves (r : Pattern α) (t : List α) (g : Groups α) (u : List α) (h : Groups α) :
    Prop where
  suffix : u <:+ t
  length_le : u.length + r.minLength ≤ t.length
  groups : ∀ x ∈ h, x ∈ g ∨ x.2.length + u.length ≤ t.length

theorem Leaves.refl (hr : r.minLength = 0) : Leaves r t g t g :=
  ⟨List.suffix_rfl, by omega, fun _ hx => .inl hx⟩

theorem Leaves.of_append {w : List α} (hr : r.minLength ≤ w.length) :
    Leaves r (w ++ u) g u g := by
  refine ⟨List.suffix_append w u, ?_, fun _ hx => .inl hx⟩
  rw [List.length_append]
  omega

theorem Leaves.trans {v : List α} {g' : Groups α} (hr : Leaves r t g v g')
    (hs : Leaves s v g' u h) : Leaves (seq r s) t g u h := by
  have := hr.length_le
  have := hs.length_le
  refine ⟨hs.suffix.trans hr.suffix, ?_, fun x hx => ?_⟩
  · rw [minLength]
    omega
  · rcases hs.groups x hx with hx | hx
    · rcases hr.groups x hx with hx | hx
      · exact .inl hx
      · exact .inr (by omega)
    · exact .inr (by omega)

theorem Leaves.group {i : ℕ} (hr : Leaves r t g u h) :
    Leaves (group i r) t g u ((i, t.take (t.length - u.length)) :: h) := by
  have := hr.length_le
  refine ⟨hr.suffix, hr.length_le, fun x hx => ?_⟩
  rcases List.mem_cons.1 hx with rfl | hx
  · refine .inr ?_
    rw [List.length_take]
    omega
  · exact hr.groups x hx

theorem Way.leaves : ∀ {r : Pattern α} {t u : List α} {g h : Groups α}, r.Way t g u h →
    Leaves r t g u h
  | empty, t, u, g, h, hway => by
    obtain ⟨rfl, rfl⟩ := hway
    exact .refl rfl
  | char p, t, u, g, h, hway => by
    obtain ⟨c, -, rfl, rfl⟩ := hway
    exact .of_append (w := [c]) (Nat.le_refl 1)
  | seq r s, t, u, g, h, hway => by
    obtain ⟨v, g', hr, hs⟩ := hway
    exact hr.leaves.trans hs.leaves
  | alt r s, t, u, g, h, hway => by
    rcases hway with hr | hs
    · exact ⟨hr.leaves.suffix, (Nat.add_le_add_left (Nat.min_le_left ..) _).trans
        hr.leaves.length_le, hr.leaves.groups⟩
    · exact ⟨hs.leaves.suffix, (Nat.add_le_add_left (Nat.min_le_right ..) _).trans
        hs.leaves.length_le, hs.leaves.groups⟩
  | star p, t, u, g, h, hway => by
    obtain ⟨w, -, rfl, rfl⟩ := hway
    exact .of_append (Nat.zero_le _)
  | lazyStar p, t, u, g, h, hway => by
    obtain ⟨w, -, rfl, rfl⟩ := hway
    exact .of_append (Nat.zero_le _)
  | .group i r, t, u, g, h, hway => by
    obtain ⟨h', hr, rfl⟩ := hway
    exact hr.leaves.group
  | assert q, t, u, g, h, hway => by
    obtain ⟨-, rfl, rfl⟩ := hway
    exact .refl rfl

/-- Something is the case of all that the groups of the expression may match. -/
def Checks (Q : ℕ → List α → Prop) : Pattern α → Prop
  | seq r s | alt r s => Checks Q r ∧ Checks Q s
  | group i r => Checks Q r ∧
    ∀ t u g h, r.Way t g u h → Q i (t.take (t.length - u.length))
  | _ => True

theorem checks_seqs {Q : ℕ → List α → Prop} : ∀ {rs : List (Pattern α)},
    (seqs rs).Checks Q ↔ ∀ r ∈ rs, r.Checks Q
  | [] => by simp [seqs, Checks]
  | r :: rs => by
    rw [List.forall_mem_cons, ← checks_seqs]
    rfl

@[simp] theorem checks_word [DecidableEq α] {Q : ℕ → List α → Prop} (w : List α) :
    (word w).Checks Q :=
  checks_seqs.2 fun r hr => by
    obtain ⟨a, -, rfl⟩ := List.mem_map.1 hr
    trivial

theorem Way.checked {Q : ℕ → List α → Prop} : ∀ {r : Pattern α} {t u : List α} {g h : Groups α},
    r.Way t g u h → r.Checks Q → ∀ x ∈ h, x ∈ g ∨ Q x.1 x.2
  | empty, t, u, g, h, hway, hQ, x, hx => by
    obtain ⟨-, rfl⟩ := hway
    exact .inl hx
  | char p, t, u, g, h, hway, hQ, x, hx => by
    obtain ⟨-, -, -, rfl⟩ := hway
    exact .inl hx
  | seq r s, t, u, g, h, hway, hQ, x, hx => by
    obtain ⟨v, g', hr, hs⟩ := hway
    rcases hs.checked hQ.2 x hx with hx | hx
    · exact hr.checked hQ.1 x hx
    · exact .inr hx
  | alt r s, t, u, g, h, hway, hQ, x, hx => by
    rcases hway with hr | hs
    · exact hr.checked hQ.1 x hx
    · exact hs.checked hQ.2 x hx
  | star p, t, u, g, h, hway, hQ, x, hx => by
    obtain ⟨-, -, -, rfl⟩ := hway
    exact .inl hx
  | lazyStar p, t, u, g, h, hway, hQ, x, hx => by
    obtain ⟨-, -, -, rfl⟩ := hway
    exact .inl hx
  | group i r, t, u, g, h, hway, hQ, x, hx => by
    obtain ⟨h', hr, rfl⟩ := hway
    rcases List.mem_cons.1 hx with rfl | hx
    · exact .inr (hQ.2 t u g h' hr)
    · exact hr.checked hQ.1 x hx
  | assert q, t, u, g, h, hway, hQ, x, hx => by
    obtain ⟨-, -, rfl⟩ := hway
    exact .inl hx

/-- What an expression ends in stands in front of what is left. -/
theorem suffix_of_way_word [DecidableEq α] {w : List α} : ∀ (rs : List (Pattern α)) {t : List α}
    {g : Groups α}, (seqs (rs ++ [word w])).Way t g u h → w ++ u <:+ t
  | [], t, g, hway => by
    obtain ⟨v, g', hw, rfl, rfl⟩ := hway
    rw [((way_word w).1 hw).1]
  | r :: rs, t, g, hway => by
    obtain ⟨v, g', hr, hrs⟩ := hway
    exact (suffix_of_way_word rs hrs).trans hr.leaves.suffix

end Way

section Search

variable {r : Pattern α} {t : List α} {m : Match α}

theorem matchHere_eq_some (h : r.matchHere t = some m) :
    m.before = [] ∧ t = m.found ++ m.behind ∧ r.Way t [] m.behind m.groups := by
  obtain ⟨u, g, hu, hm⟩ := run_eq_some r h
  cases hm
  refine ⟨rfl, ?_, hu⟩
  obtain ⟨w, rfl⟩ := hu.leaves.suffix
  simp

theorem search_spec_here (h : r.matchHere t = some m) :
    t = m.before ++ (m.found ++ m.behind) ∧
      r.matchHere (m.found ++ m.behind) = some { m with before := [] } := by
  obtain ⟨hbefore, ht, -⟩ := matchHere_eq_some h
  rw [← ht, h, hbefore, ← hbefore]
  exact ⟨by rw [hbefore]; rfl, rfl⟩

/-- What is found is a match at its place. -/
theorem search_spec : ∀ {t : List α} {m : Match α}, r.search t = some m →
    t = m.before ++ (m.found ++ m.behind) ∧
      r.matchHere (m.found ++ m.behind) = some { m with before := [] }
  | [], m, h => by
    exact search_spec_here h
  | c :: t, m, h => by
    rcases Option.or_eq_some_iff.1 h with h | ⟨-, h⟩
    · exact search_spec_here h
    · obtain ⟨m, hm, rfl⟩ := Option.map_eq_some_iff.1 h
      obtain ⟨ht, hhere⟩ := search_spec hm
      exact ⟨congrArg (c :: ·) ht, hhere⟩

theorem fullMatch_eq_some {g : Groups α} (h : r.fullMatch t = some g) : r.Way t [] [] g := by
  obtain ⟨u, g, hway, hu⟩ := run_eq_some r h
  split_ifs at hu with hnil
  cases hu
  rwa [List.isEmpty_iff.1 hnil] at hway

theorem isSome_fullMatch {g : Groups α} (h : r.Way t [] [] g) : (r.fullMatch t).isSome :=
  run_isSome r h rfl

theorem search_of_matchHere (h : r.matchHere t = some m) : r.search t = some m := by
  cases t with
  | nil => exact h
  | cons c t => rw [search, h, Option.some_or]

theorem way_of_search (h : r.search t = some m) :
    r.Way (m.found ++ m.behind) [] m.behind m.groups :=
  (matchHere_eq_some (search_spec h).2).2.2

theorem length_found_le (h : r.search t = some m) : (m.found ++ m.behind).length ≤ t.length := by
  rw [(search_spec h).1]
  exact (List.suffix_append ..).length_le

theorem length_behind_le (h : r.search t = some m) :
    m.behind.length + r.minLength ≤ t.length := by
  exact (way_of_search h).leaves.length_le.trans (length_found_le h)

theorem length_group_le (h : r.search t = some m) {i : ℕ} {w : List α}
    (hw : m.groups.lookup i = some w) : w.length + m.behind.length ≤ t.length := by
  obtain ⟨l, l', hgroups, -⟩ := List.lookup_eq_some_iff.1 hw
  rcases (way_of_search h).leaves.groups (i, w) (by simp [hgroups]) with hmem | hmem
  · cases hmem
  · exact hmem.trans (length_found_le h)

theorem length_get_le (h : r.search t = some m) (i : ℕ) :
    (m.groups.get i).length + m.behind.length ≤ t.length := by
  unfold Groups.get
  rcases hw : m.groups.lookup i with _ | w
  · have := length_behind_le h
    rw [Option.getD_none, List.length_nil]
    omega
  · exact length_group_le h hw

end Search

end Pattern
