import LamaServer.Lib.Segments

/-!
# Regular expressions by backtracking

An expression matches at the start of a list in several ways, of which the first is taken: that of
the first alternative, and of the most repetitions. The ways are the lengths that are matched, in
the order in which a backtracking search comes to them.
-/

namespace Backtrack

inductive Regex (α : Type*) where
  | empty
  | char (p : α → Bool)
  | seq (r s : Regex α)
  | alt (r s : Regex α)
  /-- As many repetitions as possible. -/
  | star (r : Regex α)
  /-- The expression does not match here. -/
  | notAhead (r : Regex α)

variable {α : Type*}

/-- The ways to repeat, where each repetition takes something. -/
def repeatEnds (f : List α → List ℕ) : ℕ → List α → List ℕ
  | 0, _ => [0]
  | fuel + 1, t =>
    ((f t).filter (0 < ·)).flatMap (fun n => (repeatEnds f fuel (t.drop n)).map (n + ·)) ++ [0]

namespace Regex

/-- The lengths that are matched at the start of a list, in order of preference. -/
def ends : Regex α → List α → List ℕ
  | empty, _ => [0]
  | char p, t => if t.head?.any p then [1] else []
  | seq r s, t => (ends r t).flatMap fun n => (ends s (t.drop n)).map (n + ·)
  | alt r s, t => ends r t ++ ends s t
  | star r, t => repeatEnds (ends r) t.length t
  | notAhead r, t => if ends r t = [] then [0] else []

/-- The match at the start of a list. -/
def first (r : Regex α) (t : List α) : Option ℕ := (r.ends t).head?

/-- The matches in a list from left to right, by position and length; `start` is the position of
what is left of it. -/
def findAll (r : Regex α) (start : ℕ) : List α → List (ℕ × ℕ)
  | [] => []
  | c :: t =>
    match r.first (c :: t) with
    | some (n + 1) => (start, n + 1) :: findAll r (start + (n + 1)) (t.drop n)
    | _ => findAll r (start + 1) t
  termination_by t => t.length

/-- The lengths of the matches and of what is between them. -/
def split (r : Regex α) (t : List α) : List ℕ := Segments.around t.length 0 (r.findAll 0 t)

def opt (r : Regex α) : Regex α := alt r empty

def plus (r : Regex α) : Regex α := seq r (star r)

/-- At most so many characters. -/
def upTo (p : α → Bool) : ℕ → Regex α
  | 0 => empty
  | n + 1 => opt (seq (char p) (upTo p n))

/-- A word, by what is asked of each of its characters. -/
def word : List (α → Bool) → Regex α
  | [] => empty
  | p :: ps => seq (char p) (word ps)

def oneOf : List (Regex α) → Regex α
  | [] => char fun _ => false
  | r :: rs => alt r (oneOf rs)

section First

variable {r s u : Regex α} {p q : α → Bool} {t : List α} {n : ℕ}

theorem ends_empty : (empty : Regex α).ends t = [0] := rfl

theorem ends_char : (char p).ends t = if t.head?.any p then [1] else [] := rfl

theorem ends_seq : (seq r s).ends t =
    (r.ends t).flatMap fun n => (s.ends (t.drop n)).map (n + ·) := rfl

theorem ends_alt : (alt r s).ends t = r.ends t ++ s.ends t := rfl

theorem ends_star : (star r).ends t = repeatEnds r.ends t.length t := rfl

theorem ends_notAhead : (notAhead r).ends t = if r.ends t = [] then [0] else [] := rfl

theorem first_alt : (alt r s).first t = (r.first t).or (s.first t) := List.head?_append

theorem first_seq : (seq r s).first t =
    (r.ends t).findSome? fun n => (s.first (t.drop n)).map (n + ·) := by
  rw [first, ends_seq, List.head?_flatMap]
  simp only [List.head?_map]
  rfl

theorem first_empty : (empty : Regex α).first t = some 0 := rfl

theorem first_char : (char p).first t = if t.head?.any p then some 1 else none := by
  rw [first, ends_char]
  split_ifs <;> rfl

theorem first_notAhead_char :
    (notAhead (char p)).first t = if t.head?.any p then none else some 0 := by
  rw [first, ends_notAhead, ends_char]
  by_cases h : t.head?.any p
  · rw [if_pos h, if_pos h]
    rfl
  · rw [if_neg h, if_neg h]
    rfl

theorem first_seq_char : (seq (char p) r).first t =
    if t.head?.any p then (r.first t.tail).map (1 + ·) else none := by
  rw [first_seq, ends_char]
  split_ifs
  · rw [List.findSome?_singleton, List.drop_one]
  · rfl

theorem first_word_nil : (word ([] : List (α → Bool))).first t = some 0 := rfl

theorem first_word_cons {ps : List (α → Bool)} : (word (p :: ps)).first t =
    if t.head?.any p then ((word ps).first t.tail).map (1 + ·) else none := first_seq_char

theorem first_oneOf {rs : List (Regex α)} : (oneOf rs).first t = rs.findSome? (·.first t) := by
  induction rs with
  | nil =>
    rw [oneOf, first_char]
    cases t <;> rfl
  | cons r rs ih =>
    rw [oneOf, first_alt, ih, List.findSome?_cons]
    cases r.first t <;> rfl

/-- An optional character is taken if what comes behind it then matches. -/
theorem first_opt_seq : (seq (opt r) s).first t = ((seq r s).first t).or (s.first t) := by
  simp only [first_seq, opt, ends_alt, ends_empty, List.findSome?_append,
    List.findSome?_singleton, List.drop_zero, Nat.zero_add, Option.map_id']

end First

/-! ## Repeated characters -/

section Run

variable {r s : Regex α} {p q : α → Bool} {c : α} {t : List α} {k n : ℕ}

/-- How many characters in a row are such. -/
def run (p : α → Bool) (t : List α) : ℕ := (t.takeWhile p).length

theorem run_le : run p t ≤ t.length := (List.takeWhile_prefix p).length_le

theorem run_cons : run p (c :: t) = if p c then run p t + 1 else 0 := by
  rw [run, List.takeWhile_cons]
  split_ifs <;> rfl

theorem run_pos : 0 < run p t ↔ t.head?.any p := by
  cases t with
  | nil => simp [run]
  | cons c t =>
    rw [run_cons]
    by_cases h : p c <;> simp [h]

theorem run_eq_zero : run p t = 0 ↔ ¬ t.head?.any p := by
  rw [← run_pos, Nat.not_lt, Nat.le_zero]

/-- Behind the first characters of a run there is the rest of it. -/
theorem run_drop : ∀ {k : ℕ} {t : List α}, k ≤ run p t → run p (t.drop k) = run p t - k
  | 0, t, _ => rfl
  | k + 1, [], _ => (Nat.zero_sub (k + 1)).symm
  | k + 1, c :: t, h => by
    rw [run_cons] at h ⊢
    split_ifs at h ⊢
    · rw [List.drop_succ_cons, run_drop (by omega)]
      omega
    · omega

theorem head?_drop_run : ¬ (t.drop (run p t)).head?.any p := by
  rw [← run_eq_zero, run_drop (Nat.le_refl _), Nat.sub_self]

theorem head?_drop (h : k < run p t) : (t.drop k).head?.any p := by
  rw [← run_pos, run_drop (Nat.le_of_lt h)]
  omega

theorem repeatEnds_char : ∀ {fuel : ℕ} {t : List α}, t.length ≤ fuel →
    repeatEnds (char p).ends fuel t = (List.range (run p t + 1)).reverse
  | 0, t, h => by
    cases List.eq_nil_of_length_eq_zero (Nat.le_zero.1 h)
    rfl
  | fuel + 1, [], _ => rfl
  | fuel + 1, c :: t, h => by
    have ih := repeatEnds_char (Nat.le_of_succ_le_succ h)
    rw [repeatEnds, ends_char, run_cons, List.head?_cons, Option.any_some]
    by_cases hp : p c
    · rw [if_pos hp, if_pos hp, List.range_succ_eq_map, List.reverse_cons, ← List.map_reverse, ← ih]
      simp [Nat.add_comm]
    · rw [if_neg hp, if_neg hp]
      rfl

theorem ends_star_char : (star (char p)).ends t = (List.range (run p t + 1)).reverse := by
  rw [ends_star, repeatEnds_char (Nat.le_refl _)]

theorem ends_plus_char :
    (plus (char p)).ends t = (List.range (run p t)).reverse.map (1 + ·) := by
  rw [plus, ends_seq, ends_char]
  cases t with
  | nil => rfl
  | cons c t =>
    rw [run_cons, List.head?_cons, Option.any_some]
    by_cases hp : p c
    · rw [if_pos hp, if_pos hp, List.flatMap_singleton, ends_star_char]
      rfl
    · rw [if_neg hp, if_neg hp]
      rfl

/-- The search from the longest on. -/
theorem findSome?_countdown {β : Type*} {f : ℕ → Option β} {b : β} : ∀ {n : ℕ}, k < n →
    f k = some b → (∀ j, k < j → j < n → f j = none) →
    (List.range n).reverse.findSome? f = some b
  | n + 1, hk, hb, hnone => by
    rw [List.range_succ, List.reverse_append, List.reverse_singleton, List.singleton_append,
      List.findSome?_cons]
    rcases Nat.lt_succ_iff_lt_or_eq.1 hk with hlt | rfl
    · rw [hnone n hlt (Nat.lt_succ_self n)]
      exact findSome?_countdown hlt hb fun j hj hjn => hnone j hj (Nat.lt_succ_of_lt hjn)
    · rw [hb]

theorem findSome?_countdown_none {β : Type*} {f : ℕ → Option β} {n : ℕ} :
    (List.range n).reverse.findSome? f = none ↔ ∀ k < n, f k = none := by
  simp only [List.findSome?_eq_none_iff, List.mem_reverse, List.mem_range]

theorem first_star_char : (star (char p)).first t = some (run p t) := by
  rw [first, ends_star_char, List.range_succ, List.reverse_append]
  rfl

/-- What comes behind repeated characters, from the most of them on. -/
theorem first_star_seq : (seq (star (char p)) r).first t =
    (List.range (run p t + 1)).reverse.findSome? fun n => (r.first (t.drop n)).map (n + ·) := by
  rw [first_seq, ends_star_char]

theorem first_plus_seq : (seq (plus (char p)) r).first t =
    (List.range (run p t)).reverse.findSome? fun n =>
      (r.first (t.drop (1 + n))).map (1 + n + ·) := by
  rw [first_seq, ends_plus_char, List.findSome?_map]
  rfl

/-- Where what comes behind always matches, all are taken. -/
theorem first_plus_seq_of_some (h : (r.first (t.drop (run p t))).isSome) :
    (seq (plus (char p)) r).first t =
      if 0 < run p t then (r.first (t.drop (run p t))).map (run p t + ·) else none := by
  obtain ⟨n, hn⟩ := Option.isSome_iff_exists.1 h
  rw [first_plus_seq, hn]
  split_ifs with hpos
  · have hrun : 1 + (run p t - 1) = run p t := by omega
    refine findSome?_countdown (Nat.sub_one_lt_of_lt hpos) ?_ fun j hj hlt => by omega
    rw [hrun, hn]
    rfl
  · rw [Nat.eq_zero_of_not_pos hpos]
    rfl

theorem first_plus_char :
    (plus (char p)).first t = if 0 < run p t then some (run p t) else none := by
  rw [first, ends_plus_char, List.head?_map, List.head?_reverse, List.getLast?_range]
  rcases run p t with _ | n
  · rfl
  · rw [if_neg (Nat.succ_ne_zero n), if_pos (Nat.succ_pos n), Option.map_some, Nat.add_comm]
    rfl

theorem any_head_mono (h : ∀ c, q c → p c) (hq : t.head?.any q) : t.head?.any p := by
  cases t with
  | nil => exact hq
  | cons c t => exact h c hq

theorem run_drop_eq_zero (hrun : ∀ c, q c → p c) (hle : k ≤ run p t)
    (h : k < run p t → ¬ (t.drop k).head?.any q) : run q (t.drop k) = 0 := by
  rw [run_eq_zero]
  rcases Nat.lt_or_eq_of_le hle with hlt | rfl
  · exact h hlt
  · exact fun h => head?_drop_run (any_head_mono hrun h)

theorem any_head_not : (t.drop k).head?.any (!p ·) ↔
    k < t.length ∧ ¬ (t.drop k).head?.any p := by
  rw [List.head?_drop]
  rcases Nat.lt_or_ge k t.length with hlt | hge
  · rw [List.getElem?_eq_getElem hlt]
    simp [hlt]
  · rw [List.getElem?_eq_none hge]
    simp [Nat.not_lt.2 hge]

theorem first_seq_upTo (n : ℕ) (h : (upTo p n).first t.tail = some (min n (run p t.tail))) :
    (seq (char p) (upTo p n)).first t =
      if 0 < run p t then some (min (n + 1) (run p t)) else none := by
  rw [first_seq_char, h]
  simp only [run_pos]
  cases t with
  | nil => rfl
  | cons c t =>
    rw [List.head?_cons, Option.any_some, run_cons]
    split_ifs
    · rw [List.tail_cons, Option.map_some, Nat.add_comm, Nat.add_min_add_right]
    · rfl

theorem first_upTo : ∀ (n : ℕ) (t : List α), (upTo p n).first t = some (min n (run p t))
  | 0, t => by
    rw [Nat.zero_min]
    rfl
  | n + 1, t => by
    rw [upTo, opt, first_alt, first_seq_upTo n (first_upTo n _), first_empty]
    split_ifs with h
    · rfl
    · rw [Nat.eq_zero_of_not_pos h]
      rfl

/-- Line breaks at the end of a run: up to the last of them. -/
theorem first_star_plus_of_last (hrun : ∀ c, q c → p c) {last : ℕ} (hlast : last < run p t)
    (hq : (t.drop last).head?.any q)
    (hnone : ∀ j, last < j → j < run p t → ¬ (t.drop j).head?.any q) :
    (seq (star (char p)) (plus (char q))).first t = some (last + 1) := by
  have hend : ∀ j, last < j → j ≤ run p t → run q (t.drop j) = 0 := fun j hj hle =>
    run_drop_eq_zero hrun hle (hnone j hj)
  have hone : run q (t.drop last) = 1 := by
    have hpos := run_pos.2 hq
    have hdrop := run_drop (p := q) (t := t.drop last) hpos
    rw [List.drop_drop, hend (last + 1) (Nat.lt_succ_self last) hlast] at hdrop
    omega
  rw [first_star_seq]
  refine findSome?_countdown (Nat.lt_succ_of_lt hlast) ?_ fun j hj hle => ?_
  · rw [first_plus_char, hone]
    rfl
  · rw [first_plus_char, hend j hj (Nat.le_of_lt_succ hle)]
    rfl

theorem first_star_plus_of_none (hrun : ∀ c, q c → p c)
    (hnone : ∀ j < run p t, ¬ (t.drop j).head?.any q) :
    (seq (star (char p)) (plus (char q))).first t = none := by
  rw [first_star_seq, findSome?_countdown_none]
  intro j hj
  rw [first_plus_char, run_drop_eq_zero hrun (Nat.le_of_lt_succ hj) (hnone j)]
  rfl

/-- A run that nothing else may follow: the last of it is left out where something does. -/
theorem first_plus_notAhead :
    (seq (plus (char p)) (notAhead (char (!p ·)))).first t =
      if 1 < run p t ∧ run p t < t.length then some (run p t - 1)
      else if 0 < run p t ∧ run p t = t.length then some (run p t) else none := by
  have hway : ∀ k < run p t, ((notAhead (char (!p ·))).first (t.drop (1 + k))).map (1 + k + ·) =
      if 1 + k = run p t ∧ run p t < t.length then none else some (1 + k) := fun k hk => by
    have hiff : (t.drop (1 + k)).head?.any (!p ·) ↔ 1 + k = run p t ∧ run p t < t.length := by
      rw [any_head_not]
      rcases Nat.lt_or_eq_of_le (Nat.one_add k ▸ hk : 1 + k ≤ run p t) with hlt | heq
      · exact iff_of_false (fun h => h.2 (head?_drop hlt)) fun h => by omega
      · rw [heq]
        exact ⟨fun h => ⟨rfl, h.1⟩, fun h => ⟨h.2, head?_drop_run⟩⟩
    rw [first_notAhead_char]
    simp only [hiff]
    split_ifs <;> rfl
  rw [first_plus_seq]
  split_ifs with hlt hend
  · have hrun : 1 + (run p t - 2) = run p t - 1 := by omega
    refine findSome?_countdown (k := run p t - 2) (by omega) ?_ fun j hj hjn => ?_
    · rw [hway _ (by omega), if_neg (by omega), hrun]
    · rw [hway j hjn, if_pos (by omega)]
  · refine findSome?_countdown (k := run p t - 1) (by omega) ?_ fun j hj hjn => by omega
    rw [hway _ (by omega), if_neg (by omega), Nat.add_sub_cancel' hend.1]
  · refine findSome?_countdown_none.2 fun k hk => ?_
    have hle : run p t ≤ t.length := run_le
    rw [hway k hk, if_pos (by omega)]

end Run

/-! ## Splitting -/

section Split

variable {r : Regex α} {c : α} {t : List α} {n : ℕ}

theorem repeatEnds_le {f : List α → List ℕ} (hf : ∀ t, ∀ n ∈ f t, n ≤ t.length) :
    ∀ {fuel : ℕ} {t : List α}, ∀ n ∈ repeatEnds f fuel t, n ≤ t.length
  | 0, t, n, h => by
    rw [List.mem_singleton.1 h]
    exact Nat.zero_le _
  | fuel + 1, t, n, h => by
    rcases List.mem_append.1 h with h | h
    · obtain ⟨m, hm, h⟩ := List.mem_flatMap.1 h
      obtain ⟨l, hl, rfl⟩ := List.mem_map.1 h
      have hmt := hf t m (List.mem_filter.1 hm).1
      have hlt := repeatEnds_le hf l hl
      rw [List.length_drop] at hlt
      omega
    · rw [List.mem_singleton.1 h]
      exact Nat.zero_le _

/-- A match ends within the list. -/
theorem ends_le : ∀ (r : Regex α) (t : List α), ∀ n ∈ r.ends t, n ≤ t.length
  | empty, t, n, h => by
    rw [List.mem_singleton.1 h]
    exact Nat.zero_le _
  | char p, t, n, h => by
    rw [ends_char] at h
    split_ifs at h with hp
    · cases t with
      | nil => cases hp
      | cons c t =>
        rw [List.mem_singleton.1 h]
        exact Nat.succ_pos _
    · cases h
  | seq r s, t, n, h => by
    obtain ⟨m, hm, h⟩ := List.mem_flatMap.1 h
    obtain ⟨l, hl, rfl⟩ := List.mem_map.1 h
    have hmt := ends_le r t m hm
    have hlt := ends_le s (t.drop m) l hl
    rw [List.length_drop] at hlt
    omega
  | alt r s, t, n, h => (List.mem_append.1 h).elim (ends_le r t n) (ends_le s t n)
  | star r, t, n, h => repeatEnds_le (ends_le r) n h
  | notAhead r, t, n, h => by
    rw [ends_notAhead] at h
    split_ifs at h
    · rw [List.mem_singleton.1 h]
      exact Nat.zero_le _
    · cases h

theorem first_le (h : r.first t = some n) : n ≤ t.length :=
  ends_le r t n (List.mem_of_head? h)

theorem findAll_some (h : r.first (c :: t) = some (n + 1)) (start : ℕ) :
    r.findAll start (c :: t) = (start, n + 1) :: r.findAll (start + (n + 1)) (t.drop n) := by
  rw [findAll, h]

theorem findAll_shift (r : Regex α) (k start : ℕ) (t : List α) :
    r.findAll (k + start) t = (r.findAll start t).map fun m => (k + m.1, m.2) := by
  fun_induction findAll r start t with
  | case1 => rw [findAll, List.map_nil]
  | case2 start c t n h ih => rw [findAll_some h, Nat.add_assoc, ih, List.map_cons]
  | case3 start c t h ih =>
    rw [findAll, Nat.add_assoc, ih]
    split
    · next n hn => exact absurd hn (h n)
    · rfl

/-- What the expression matches at the start of a list is the first segment. -/
theorem split_of_first (h : r.first t = some n) (hn : 0 < n) :
    r.split t = n :: r.split (t.drop n) := by
  obtain ⟨n, rfl⟩ := Nat.exists_eq_succ_of_ne_zero (Nat.ne_of_gt hn)
  have hle := first_le h
  cases t with
  | nil => cases hle
  | cons c t =>
    have hlen : (c :: t).length = (n + 1) + ((c :: t).drop (n + 1)).length := by
      rw [List.length_drop]
      omega
    rw [split, findAll_some h, hlen, Segments.around, if_neg (Nat.lt_irrefl 0), List.nil_append,
      Nat.zero_add]
    exact congrArg _ ((congrArg _ (findAll_shift r (n + 1) 0 _)).trans
      (Segments.around_shift (n + 1) _ _ 0))

/-- A scanner that takes what the expression matches, in one step or several, splits as the
expression does. `Holds` is what is known of the list. -/
theorem scan_eq_split {step : List α → List ℕ} {hstep : ∀ l, l ≠ [] → 0 < (step l).sum}
    {Holds : List α → Prop} (hdrop : ∀ l k, Holds l → Holds (l.drop k))
    (h : ∀ l, l ≠ [] → Holds l → r.split l = step l ++ r.split (l.drop (step l).sum))
    (l : List α) (hl : Holds l) : Segments.scan step hstep l = r.split l := by
  fun_induction Segments.scan step hstep l with
  | case1 => rw [split, findAll]; rfl
  | case2 a l ih => rw [h _ (List.cons_ne_nil a l) hl, ih (hdrop _ _ hl)]

end Split

end Regex

end Backtrack
