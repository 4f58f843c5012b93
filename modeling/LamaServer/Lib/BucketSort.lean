import Mathlib.Algebra.Ring.Nat
import Mathlib.Data.List.Perm.Basic
import LamaServer.Lib.StdSort

/-!
# Sorting by buckets

Entries are written to the segments of a list, each through the pointer of its segment. The
segments are sorted one after the other.
-/

namespace BucketSort

variable {α : Type*}

/-! ## Writing through pointers -/

/-- Cells in a row, and a pointer into each segment of them. -/
structure Scatter (α : Type*) where
  cells : List α
  ptrs : List ℕ

/-- `*ptrs[t]++ = x`. -/
def Scatter.put (s : Scatter α) (t : ℕ) (x : α) : Option (Scatter α) :=
  (s.ptrs[t]?).bind fun ptr =>
    if ptr < s.cells.length then some ⟨s.cells.set ptr x, s.ptrs.set t (ptr + 1)⟩ else none

/-- Where segments of these lengths begin. -/
def startPtrs : ℕ → List ℕ → List ℕ
  | _, [] => []
  | ptr, n :: lens => ptr :: startPtrs (ptr + n) lens

/-- What is written to a segment, and what is there to be overwritten. -/
abbrev Segment (α : Type*) := List α × List α

def cellsOf (segs : List (Segment α)) : List α := (segs.map fun seg => seg.1 ++ seg.2).flatten

def ptrsOf : ℕ → List (Segment α) → List ℕ
  | _, [] => []
  | ptr, seg :: segs => (ptr + seg.1.length) :: ptrsOf (ptr + (seg.1 ++ seg.2).length) segs

def Scatter.ofSegments (segs : List (Segment α)) : Scatter α := ⟨cellsOf segs, ptrsOf 0 segs⟩

section Put

variable {segs segs' : List (Segment α)} {seg : Segment α} {w us : List α} {u x : α} {t : ℕ}

@[simp] theorem cellsOf_append : cellsOf (segs ++ segs') = cellsOf segs ++ cellsOf segs' := by
  simp [cellsOf]

@[simp] theorem cellsOf_cons : cellsOf (seg :: segs) = seg.1 ++ seg.2 ++ cellsOf segs := rfl

@[simp] theorem length_ptrsOf : ∀ (ptr : ℕ) (segs : List (Segment α)),
    (ptrsOf ptr segs).length = segs.length
  | _, [] => rfl
  | _, _ :: segs => congrArg (· + 1) (length_ptrsOf _ segs)

theorem ptrsOf_append : ∀ {ptr : ℕ} {segs : List (Segment α)},
    ptrsOf ptr (segs ++ segs') = ptrsOf ptr segs ++ ptrsOf (ptr + (cellsOf segs).length) segs'
  | ptr, [] => rfl
  | ptr, seg :: segs => by
    rw [List.cons_append, ptrsOf, ptrsOf, ptrsOf_append, cellsOf_cons, List.cons_append,
      @List.length_append α (seg.1 ++ seg.2), Nat.add_assoc]

/-- Where a segment is not full, the entry is behind what is written to it. -/
theorem put_ofSegments (h : segs[t]? = some (w, u :: us)) :
    (Scatter.ofSegments segs).put t x = some (.ofSegments (segs.set t (w ++ [x], us))) := by
  obtain ⟨ht, hseg⟩ := List.getElem?_eq_some_iff.1 h
  obtain ⟨A, B, hsegs, rfl, hset⟩ : ∃ A B, segs = A ++ segs[t] :: B ∧ A.length = t ∧
      segs.set t (w ++ [x], us) = A ++ (w ++ [x], us) :: B := List.exists_of_set ht
  rw [hset]
  rw [hseg] at hsegs
  subst hsegs
  unfold Scatter.put Scatter.ofSegments
  have hptr : (ptrsOf 0 (A ++ (w, u :: us) :: B))[A.length]? =
      some ((cellsOf A).length + w.length) := by
    rw [ptrsOf_append, List.getElem?_append_right (by simp), length_ptrsOf, Nat.sub_self, Nat.zero_add]
    rfl
  have hlt : (cellsOf A).length + w.length < (cellsOf (A ++ (w, u :: us) :: B)).length := by
    simp
  dsimp only
  rw [hptr, Option.bind_some, if_pos hlt, ptrsOf_append, ptrsOf_append]
  congr 2
  · simp
  · rw [List.set_append_right _ _ (by simp), length_ptrsOf, Nat.sub_self, ptrsOf, ptrsOf]
    simp only [List.length_append, List.length_cons, List.length_nil, List.set_cons_zero,
      Nat.zero_add, Nat.add_assoc, Nat.add_comm 1]

/-- All entries are written where the segments have room for just them. -/
theorem foldlM_put {xs : List (ℕ × α)} (h : ∀ t,
    (xs.filter (·.1 = t)).length = (segs[t]?).elim 0 (·.2.length)) :
    ∃ s, xs.foldlM (fun s x => s.put x.1 x.2) (Scatter.ofSegments segs) = some s ∧
      s.cells = (segs.mapIdx fun t seg => seg.1 ++ (xs.filter (·.1 = t)).map (·.2)).flatten := by
  induction xs generalizing segs with
  | nil =>
    refine ⟨_, rfl, ?_⟩
    refine congrArg List.flatten (List.ext_getElem (by simp) fun t ht _ => ?_)
    have hnone := h t
    rw [List.length_map] at ht
    rw [List.getElem?_eq_getElem ht] at hnone
    simp [List.length_eq_zero_iff.1 hnone.symm]
  | cons x xs ih =>
    obtain ⟨t, x⟩ := x
    have hroom := h t
    rw [List.filter_cons_of_pos (by simp), List.length_cons] at hroom
    rcases hseg : segs[t]? with _ | ⟨w, us⟩
    · simp [hseg] at hroom
    rcases us with _ | ⟨u, us⟩
    · simp [hseg] at hroom
    have hput := put_ofSegments (x := x) hseg
    obtain ⟨htlt, hget⟩ := List.getElem?_eq_some_iff.1 hseg
    have hrest (t' : ℕ) : (xs.filter (·.1 = t')).length =
        ((segs.set t (w ++ [x], us))[t']?).elim 0 (·.2.length) := by
      rcases eq_or_ne t t' with rfl | hne
      · rw [List.getElem?_set_self htlt]
        simpa [hseg] using hroom
      · have := h t'
        rw [List.filter_cons_of_neg (by simpa using hne)] at this
        rwa [List.getElem?_set_ne hne]
    obtain ⟨s, hs, hcells⟩ := ih hrest
    refine ⟨s, by rw [List.foldlM_cons, hput]; exact hs, hcells.trans ?_⟩
    refine congrArg List.flatten (List.ext_getElem (by simp) fun t' _ ht' => ?_)
    rw [List.length_mapIdx] at ht'
    rw [List.getElem_mapIdx, List.getElem_mapIdx, List.getElem_set]
    split_ifs with heq
    · subst heq
      rw [hget, List.filter_cons_of_pos (by simp)]
      simp
    · rw [List.filter_cons_of_neg (by simpa using heq)]

end Put

/-- The cells before anything is written. -/
def Scatter.start (blank : α) (lens : List ℕ) : Scatter α :=
  ⟨List.replicate lens.sum blank, startPtrs 0 lens⟩

theorem start_eq (blank : α) (lens : List ℕ) : Scatter.start blank lens =
    .ofSegments (lens.map fun n => ([], List.replicate n blank)) := by
  have hptrs (ptr : ℕ) : startPtrs ptr lens =
      ptrsOf ptr (lens.map fun n => ([], List.replicate n blank)) := by
    induction lens generalizing ptr with
    | nil => rfl
    | cons n lens ih => simp [startPtrs, ptrsOf, ih]
  unfold Scatter.start Scatter.ofSegments
  rw [hptrs]
  congr 1
  clear hptrs
  induction lens with
  | nil => rfl
  | cons n lens ih =>
    rw [List.sum_cons, ← List.replicate_append_replicate, ih]
    rfl

/-- Each segment gets its entries, in their order. -/
theorem foldlM_put_start {xs : List (ℕ × α)} {lens : List ℕ} (blank : α)
    (h : ∀ t, (xs.filter (·.1 = t)).length = lens.getD t 0) :
    ∃ s, xs.foldlM (fun s x => s.put x.1 x.2) (Scatter.start blank lens) = some s ∧
      s.cells = ((List.range lens.length).map fun t =>
        (xs.filter (·.1 = t)).map (·.2)).flatten := by
  have hroom (t : ℕ) : (xs.filter (·.1 = t)).length =
      ((lens.map fun n => (([], List.replicate n blank) : Segment α))[t]?).elim 0
        (·.2.length) := by
    rw [h, List.getD_eq_getElem?_getD, List.getElem?_map]
    rcases lens[t]? with _ | n <;> simp
  rw [start_eq]
  obtain ⟨s, hs, hcells⟩ := foldlM_put hroom
  refine ⟨s, hs, hcells.trans (congrArg List.flatten ?_)⟩
  exact List.ext_getElem (by simp) fun t _ _ => by simp

/-! ## Sorting segments in place -/

/-- The entries from `first` to `last` are sorted. -/
def sortRange (sort : List α → List α) (first last : ℕ) (l : List α) : List α :=
  l.take first ++ sort ((l.drop first).take (last - first)) ++ l.drop last

/-- The segments of these lengths, one after the other, and where they end. -/
def sortRanges (sort : List α → List α) : List ℕ → ℕ → List α → List α × ℕ
  | [], ptr, l => (l, ptr)
  | n :: lens, ptr, l => sortRanges sort lens (ptr + n) (sortRange sort ptr (ptr + n) l)

section Ranges

variable {sort : List α → List α} {A S B : List α}

theorem sortRange_append :
    sortRange sort A.length (A.length + S.length) (A ++ S ++ B) = A ++ sort S ++ B := by
  simp [sortRange]

theorem sortRanges_append (hsort : ∀ S, (sort S).length = S.length) :
    ∀ {A : List α} {segs : List (List α)},
      sortRanges sort (segs.map List.length) A.length (A ++ segs.flatten ++ B) =
        (A ++ (segs.map sort).flatten ++ B, A.length + segs.flatten.length)
  | A, [] => by simp [sortRanges]
  | A, S :: segs => by
    have hrest : sortRanges sort (segs.map List.length) (A ++ sort S).length
        (A ++ sort S ++ segs.flatten ++ B) = (A ++ sort S ++ (segs.map sort).flatten ++ B,
          (A ++ sort S).length + segs.flatten.length) := sortRanges_append hsort
    rw [List.map_cons, sortRanges, List.flatten_cons, ← List.append_assoc A S,
      List.append_assoc (A ++ S), sortRange_append, ← List.append_assoc]
    rw [List.length_append, hsort] at hrest
    rw [hrest]
    simp [Nat.add_assoc]

/-- All segments but the last are sorted, and that one in another way. -/
theorem sortRanges_last (hsort : ∀ S, (sort S).length = S.length) (segs : List (List α))
    (last : List α) (sortLast : List α → List α) {l : List α} {n : ℕ}
    (h : sortRanges sort (segs.map List.length) 0 (segs.flatten ++ last) = (l, n)) :
    n = segs.flatten.length ∧ sortRange sortLast n (n + last.length) l =
      (segs.map sort).flatten ++ sortLast last := by
  have happend : sortRanges sort (segs.map List.length) ([] : List α).length
      ([] ++ segs.flatten ++ last) = ([] ++ (segs.map sort).flatten ++ last,
        ([] : List α).length + segs.flatten.length) := sortRanges_append hsort
  rw [List.nil_append, List.nil_append, List.length_nil, Nat.zero_add, h, Prod.mk.injEq] at happend
  obtain ⟨rfl, rfl⟩ := happend
  have hlen : (segs.map sort).flatten.length = segs.flatten.length := by
    simp [List.length_flatten, Function.comp_def, hsort]
  refine ⟨rfl, ?_⟩
  rw [← hlen, ← List.append_nil ((segs.map sort).flatten ++ last), sortRange_append,
    List.append_nil]

end Ranges

/-! ## Entries by bucket -/

section Buckets

variable {α : Type} {less : α → α → Bool} {bucket : α → ℕ} {l : List α} {js : List ℕ} {j : ℕ}

theorem flatMap_filter_perm : ∀ {js : List ℕ}, js.Nodup →
    (js.flatMap fun j => l.filter (bucket · = j)).Perm (l.filter (bucket · ∈ js))
  | [], _ => by simp
  | j :: js, h => by
    obtain ⟨hj, hjs⟩ := List.nodup_cons.1 h
    have hsplit := List.filter_append_perm (bucket · = j) (l.filter (bucket · ∈ j :: js))
    rw [List.filter_filter, List.filter_filter] at hsplit
    refine List.Perm.trans ?_ hsplit
    rw [List.flatMap_cons]
    refine List.Perm.append (.of_eq (List.filter_congr fun a _ => ?_))
      ((flatMap_filter_perm hjs).trans (.of_eq (List.filter_congr fun a _ => ?_)))
    · by_cases ha : bucket a = j <;> simp [ha]
    · by_cases ha : bucket a = j <;> simp [ha, hj]

/-- The entries of the highest buckets, each bucket sorted, and the first ones of the next. -/
theorem firstSorted_buckets (s : StdSort) (p : StdPartialSort) (m : ℕ) (hless : StrictWeak less)
    (hbucket : ∀ {a b}, a ∈ l → b ∈ l → bucket b < bucket a → ¬ less b a)
    (hjs : (js ++ [j]).Pairwise (· > ·)) (hall : ∀ a ∈ l, bucket a ∈ js ++ [j] ∨ bucket a < j) :
    FirstSorted less ((js.flatMap fun i => s.sort less (l.filter (bucket · = i))) ++
      (p.sort less m (l.filter (bucket · = j))).take m) l := by
  have hmem {i : ℕ} {a : α} (ha : a ∈ s.sort less (l.filter (bucket · = i))) :
      a ∈ l ∧ bucket a = i := by
    simpa using List.mem_filter.1 ((s.perm _ hless).mem_iff.1 ha)
  have hlast {a : α} (ha : a ∈ p.sort less m (l.filter (bucket · = j))) : a ∈ l ∧ bucket a = j := by
    simpa using List.mem_filter.1 ((p.perm m _ hless).mem_iff.1 ha)
  have hlow {a : α} (ha : a ∈ l.filter (bucket · < j)) : a ∈ l ∧ bucket a < j := by
    simpa using List.mem_filter.1 ha
  obtain ⟨hjs', -, hgt⟩ := List.pairwise_append.1 hjs
  have hfirst {a : α} (ha : a ∈ js.flatMap fun i => s.sort less (l.filter (bucket · = i))) :
      a ∈ l ∧ j < bucket a := by
    obtain ⟨i, hi, ha⟩ := List.mem_flatMap.1 ha
    exact ⟨(hmem ha).1, (hmem ha).2 ▸ hgt i hi j (List.mem_singleton_self j)⟩
  refine ⟨List.pairwise_append.2 ⟨List.pairwise_flatMap.2 ⟨fun i _ => s.sorted _ hless, ?_⟩,
    p.sorted m _ hless, fun a ha b hb => ?_⟩,
    (p.sort less m (l.filter (bucket · = j))).drop m ++ l.filter (bucket · < j), ?_, ?_⟩
  · refine hjs'.imp fun hgt a ha b hb => hbucket (hmem ha).1 (hmem hb).1 ?_
    rwa [(hmem ha).2, (hmem hb).2]
  · have hb := hlast (List.mem_of_mem_take hb)
    exact hbucket (hfirst ha).1 hb.1 (by rw [hb.2]; exact (hfirst ha).2)
  · have hnodup : (js ++ [j]).Nodup := hjs.imp fun hgt => Nat.ne_of_gt hgt
    have hhigh : (js.flatMap (fun i => s.sort less (l.filter (bucket · = i))) ++
        p.sort less m (l.filter (bucket · = j))).Perm (l.filter (bucket · ∈ js ++ [j])) := by
      refine .trans ?_ (flatMap_filter_perm hnodup)
      rw [List.flatMap_append, List.flatMap_singleton]
      exact .append (.flatMap_left _ fun i _ => s.perm _ hless) (p.perm m _ hless)
    have hrest : l.filter (bucket · < j) = l.filter (fun a => !decide (bucket a ∈ js ++ [j])) := by
      refine List.filter_congr fun a ha => ?_
      have hge (h : bucket a ∈ js ++ [j]) : j ≤ bucket a := by
        rcases List.mem_append.1 h with h | h
        · exact (hgt _ h j (List.mem_singleton_self j)).le
        · exact (List.mem_singleton.1 h).ge
      rw [← decide_not, decide_eq_decide]
      exact ⟨fun hlt h => absurd (hge h) (Nat.not_le_of_lt hlt), (hall a ha).resolve_left⟩
    rw [List.append_assoc, ← List.append_assoc (List.take ..), List.take_append_drop,
      ← List.append_assoc, hrest]
    exact (hhigh.append_right _).trans (List.filter_append_perm _ l)
  · intro a ha b hb
    rcases List.mem_append.1 ha with ha | ha <;> rcases List.mem_append.1 hb with hb | hb
    · have hb := hlast (List.mem_of_mem_drop hb)
      exact hbucket (hfirst ha).1 hb.1 (by rw [hb.2]; exact (hfirst ha).2)
    · exact hbucket (hfirst ha).1 (hlow hb).1 ((hlow hb).2.trans (hfirst ha).2)
    · exact p.least hless ha hb
    · have ha := hlast (List.mem_of_mem_take ha)
      exact hbucket ha.1 (hlow hb).1 (by rw [ha.2]; exact (hlow hb).2)

end Buckets

end BucketSort
