import Mathlib.Algebra.Ring.Nat
import Mathlib.Data.List.SplitLengths
import Mathlib.Logic.Relation

/-!
# Consecutive segments of a list

A list of lengths splits a list into consecutive segments. Where the lengths add up to that of the
list nothing is lost, and they still do after each segment has been split further, whether from
left to right by a scanner or along the parts that a search has found. Nor is anything lost where
segments that are next to each other are joined again.
-/

namespace Segments

variable {α β : Type*} {l : List α} {ns : List ℕ}

/-- Each segment is split further. -/
def refine (f : List α → List ℕ) (ns : List ℕ) (l : List α) : List ℕ :=
  (ns.splitLengths l).flatMap f

theorem sum_flatMap {f : β → List ℕ} {g : β → ℕ} (h : ∀ b, (f b).sum = g b) :
    ∀ bs : List β, (bs.flatMap f).sum = (bs.map g).sum
  | [] => rfl
  | b :: bs => by
    rw [List.flatMap_cons, List.sum_append, h, sum_flatMap h bs, List.map_cons, List.sum_cons]

theorem sum_refine {f : List α → List ℕ} (hf : ∀ s, (f s).sum = s.length)
    (h : ns.sum = l.length) : (refine f ns l).sum = l.length := by
  rw [refine, sum_flatMap hf, List.map_splitLengths_length l ns (Nat.le_of_eq h), h]

/-- The segments hold nothing else. -/
theorem mem_of_mem_splitLengths (h : ns.sum = l.length) {s : List α} (hs : s ∈ ns.splitLengths l)
    {a : α} (ha : a ∈ s) : a ∈ l := by
  rw [← List.flatten_splitLengths l ns (Nat.le_of_eq h.symm)]
  exact List.mem_flatten_of_mem hs ha

/-! ## From left to right -/

/-- Splits from left to right: `step` says the lengths of the segments that come next. -/
def scan (step : List α → List ℕ) (hstep : ∀ l, l ≠ [] → 0 < (step l).sum) : List α → List ℕ
  | [] => []
  | a :: l => step (a :: l) ++ scan step hstep ((a :: l).drop (step (a :: l)).sum)
  termination_by l => l.length
  decreasing_by
    have := hstep (a :: l) (List.cons_ne_nil a l)
    simp only [List.length_drop, List.length_cons]
    omega

theorem sum_scan {step : List α → List ℕ} {hstep : ∀ l, l ≠ [] → 0 < (step l).sum}
    (hle : ∀ l, l ≠ [] → (step l).sum ≤ l.length) (l : List α) :
    (scan step hstep l).sum = l.length := by
  fun_induction scan step hstep l with
  | case1 => rfl
  | case2 a l ih =>
    rw [List.sum_append, ih, List.length_drop]
    exact Nat.add_sub_cancel' (hle (a :: l) (List.cons_ne_nil a l))

/-! ## Along the parts that are found -/

/-- Parts of a list of the given length, by position and length: each has a length, comes after
`start` and the parts before it, and ends within the list. -/
def InOrder (size : ℕ) : ℕ → List (ℕ × ℕ) → Prop
  | _, [] => True
  | start, (pos, len) :: parts =>
    start ≤ pos ∧ 0 < len ∧ pos + len ≤ size ∧ InOrder size (pos + len) parts

/-- The lengths of the parts and of what is between them. -/
def around (size : ℕ) : ℕ → List (ℕ × ℕ) → List ℕ
  | start, [] => if start < size then [size - start] else []
  | start, (pos, len) :: parts =>
    (if start < pos then [pos - start] else []) ++ len :: around size (pos + len) parts

theorem sum_around {size : ℕ} : ∀ {parts : List (ℕ × ℕ)} {start : ℕ}, start ≤ size →
    InOrder size start parts → (around size start parts).sum = size - start
  | [], start, hstart, _ => by
    rw [around]
    split_ifs with h
    · simp
    · simp only [List.sum_nil]
      omega
  | (pos, len) :: parts, start, _, hparts => by
    obtain ⟨hpos, -, hlen, hparts⟩ := hparts
    rw [around, List.sum_append, List.sum_cons, sum_around hlen hparts]
    split_ifs with h
    · simp only [List.sum_cons, List.sum_nil]
      omega
    · simp only [List.sum_nil]
      omega

/-- Where the list starts does not matter. -/
theorem around_shift (k size : ℕ) : ∀ (parts : List (ℕ × ℕ)) (start : ℕ),
    around (k + size) (k + start) (parts.map fun part => (k + part.1, part.2)) =
      around size start parts
  | [], start => by
    rw [List.map_nil, around, around, Nat.add_sub_add_left]
    simp only [Nat.add_lt_add_iff_left]
  | (pos, len) :: parts, start => by
    rw [List.map_cons, around, around, Nat.add_assoc, around_shift k size parts,
      Nat.add_sub_add_left]
    simp only [Nat.add_lt_add_iff_left]

/-! ## Joining neighbours -/

/-- Two neighbours are joined to a segment that is known. -/
inductive Join (Known : List α → Prop) : List (List α) → List (List α) → Prop
  | intro (pre post : List (List α)) (left right : List α) : Known (left ++ right) →
    Join Known (pre ++ left :: right :: post) (pre ++ (left ++ right) :: post)

section Join

variable {Known : List α → Prop} {ps qs : List (List α)}

/-- What was not there before is known. -/
theorem mem_or_known_of_joins (h : Relation.ReflTransGen (Join Known) ps qs) :
    ∀ q ∈ qs, q ∈ ps ∨ Known q := by
  induction h with
  | refl => exact fun q hq => .inl hq
  | tail _ hjoin ih =>
    obtain ⟨pre, post, left, right, hknown⟩ := hjoin
    intro q hq
    rcases List.mem_append.1 hq with hq | hq
    · exact ih q (List.mem_append_left _ hq)
    · rcases List.mem_cons.1 hq with rfl | hq
      · exact .inr hknown
      · exact ih q (by simp [hq])

/-- What is encoded element by element stays so: the elements are joined in the same way. -/
theorem exists_of_joins {f : β → List α} {segs : List (List β)}
    (h : Relation.ReflTransGen (Join Known) (segs.map (·.flatMap f)) qs) :
    ∃ segs' : List (List β), segs'.flatten = segs.flatten ∧ qs = segs'.map (·.flatMap f) := by
  induction h with
  | refl => exact ⟨segs, rfl, rfl⟩
  | tail _ hjoin ih =>
    obtain ⟨segs', hflatten, hsegs'⟩ := ih
    obtain ⟨pre, post, left, right, -⟩ := hjoin
    obtain ⟨spre, srest, rfl, rfl, hrest⟩ := List.map_eq_append_iff.1 hsegs'.symm
    obtain ⟨sl, srest, rfl, rfl, hright⟩ := List.map_eq_cons_iff.1 hrest
    obtain ⟨sr, spost, rfl, rfl, rfl⟩ := List.map_eq_cons_iff.1 hright
    refine ⟨spre ++ (sl ++ sr) :: spost, ?_, ?_⟩
    · rw [← hflatten]
      simp
    · simp

end Join

end Segments
