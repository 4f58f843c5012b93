import Mathlib.Algebra.Ring.Nat
import Mathlib.Algebra.BigOperators.Group.List.Basic
import Mathlib.Data.List.GetD
import LamaServer.Samplers

/-!
# The candidates that top-k keeps

They are those with which the candidates in order begin, where each logit has a bucket.
-/

namespace LamaServer

open BucketSort

/-- The first `k` candidates are those of the whole array in order, none of them twice. -/
def KeepsTop (data : List LlamaTokenData) (k : ℤ) (result : Option (List LlamaTokenData × Bool)) :
    Prop :=
  ∃ r, result.map (·.1) = some r ∧
    let n := (min k data.length).toNat
    (r.take n).map (·.logit) = ((data.map (·.logit)).insertionSort (· ≥ ·)).take n ∧
      (r.take n).Subperm data ∧ (0 < k → r.length = n)

/-! ## Buckets -/

/-- The bucket of a candidate whose logit has one. -/
def bucketOf (c : LlamaTokenData) : ℕ := (bucketIdx c.logit).getD 0

theorem truncToInt_mono {q q' : ℚ} {n n' : ℤ} (hle : q ≤ q') (h : truncToInt q = some n)
    (h' : truncToInt q' = some n') : n ≤ n' := by
  have hceil (q : ℚ) (hq : ¬ 0 ≤ q) : q.ceil ≤ 0 := by
    rw [Rat.ceil_le_iff]
    exact_mod_cast (not_le.1 hq).le
  have hfloor (q : ℚ) (hq : 0 ≤ q) : 0 ≤ q.floor := by
    rw [Rat.le_floor_iff]
    exact_mod_cast hq
  unfold truncToInt at h h'
  dsimp only at h h'
  rw [Option.ite_none_right_eq_some, Option.some.injEq] at h h'
  rw [← h.2, ← h'.2]
  split_ifs with hq hq' hq'
  · exact Rat.floor_monotone hle
  · exact absurd (hq.trans hle) hq'
  · exact (hceil q hq).trans (hfloor q' hq')
  · rw [Rat.ceil_eq_neg_floor_neg, Rat.ceil_eq_neg_floor_neg]
    exact Int.neg_le_neg (Rat.floor_monotone (neg_le_neg hle))

theorem bucketIdx_mono {v v' : ℚ} {i i' : ℕ} (hle : v ≤ v') (h : bucketIdx v = some i)
    (h' : bucketIdx v' = some i') : i ≤ i' := by
  obtain ⟨n, hn, rfl⟩ := Option.map_eq_some_iff.1 h
  obtain ⟨n', hn', rfl⟩ := Option.map_eq_some_iff.1 h'
  have hscale : (0 : ℚ) ≤ bucketScale := by decide +kernel
  have := truncToInt_mono (add_le_add_left (mul_le_mul_of_nonneg_left hle hscale) _) hn hn'
  omega

theorem bucketIdx_lt {v : ℚ} {i : ℕ} (h : bucketIdx v = some i) : i < nbuckets := by
  obtain ⟨n, -, rfl⟩ := Option.map_eq_some_iff.1 h
  unfold nbuckets
  omega

theorem strictWeak_comp : StrictWeak comp :=
  .of_key (fun c => OrderDual.toDual c.logit) fun a b => by simp [comp]

/-! ## The histogram -/

section Histogram

variable {histo idx : List ℕ} {k n : ℕ}

theorem getD_modify (i j : ℕ) (hj : j < histo.length) :
    (histo.modify i (· + 1)).getD j 0 = histo.getD j 0 + if i = j then 1 else 0 := by
  rw [List.getD_eq_getElem?_getD, List.getElem?_modify, List.getD_eq_getElem _ _ hj,
    List.getElem?_eq_getElem hj]
  by_cases h : i = j <;> simp [h]

theorem getD_foldl_modify (j : ℕ) (hj : j < histo.length) :
    (idx.foldl (fun histo ib => histo.modify ib (· + 1)) histo).getD j 0 =
      histo.getD j 0 + idx.count j := by
  induction idx generalizing histo with
  | nil => simp
  | cons i idx ih =>
    rw [List.foldl_cons, ih (by simpa using hj), getD_modify i j hj, List.count_cons]
    by_cases h : i = j <;> simp [h]
    omega

theorem length_countBuckets (idx : List ℕ) : (countBuckets idx).length = nbuckets := by
  have h (histo : List ℕ) :
      (idx.foldl (fun histo ib => histo.modify ib (· + 1)) histo).length = histo.length := by
    induction idx generalizing histo with
    | nil => rfl
    | cons i idx ih => rw [List.foldl_cons, ih, List.length_modify]
  rw [countBuckets, h, List.length_replicate]

theorem getD_countBuckets (idx : List ℕ) {j : ℕ} (hj : j < nbuckets) :
    (countBuckets idx).getD j 0 = idx.count j := by
  rw [countBuckets, getD_foldl_modify j (by rwa [List.length_replicate]),
    List.getD_replicate _ hj, zero_add]

theorem sum_modify : ∀ {histo : List ℕ} {i : ℕ}, i < histo.length →
    (histo.modify i (· + 1)).sum = histo.sum + 1
  | [], _, h => absurd h (Nat.not_lt_zero _)
  | a :: histo, 0, _ => by
    rw [List.modify_zero_cons, List.sum_cons, List.sum_cons]
    omega
  | a :: histo, i + 1, h => by
    rw [List.modify_succ_cons, List.sum_cons, List.sum_cons, sum_modify (by simpa using h)]
    omega

/-- All candidates are counted. -/
theorem sum_countBuckets (hidx : ∀ i ∈ idx, i < nbuckets) :
    (countBuckets idx).sum = idx.length := by
  have h (histo : List ℕ) (hlen : histo.length = nbuckets) :
      (idx.foldl (fun histo ib => histo.modify ib (· + 1)) histo).sum =
        histo.sum + idx.length := by
    induction idx generalizing histo with
    | nil => rfl
    | cons i idx ih =>
      have hi := hidx i List.mem_cons_self
      rw [List.foldl_cons, ih (fun j hj => hidx j (List.mem_cons_of_mem _ hj)) _
        (by rwa [List.length_modify]), sum_modify (by omega), List.length_cons]
      omega
  rw [countBuckets, h _ List.length_replicate, List.sum_replicate]
  simp

theorem sum_drop (hn : n < histo.length) :
    (histo.drop n).sum = (histo.drop (n + 1)).sum + histo.getD n 0 := by
  rw [List.drop_eq_getElem_cons hn, List.sum_cons, List.getD_eq_getElem _ _ hn, Nat.add_comm]

/-- The buckets from `ib` on have the first `k`, and those above it do not. -/
theorem findCut_spec (hn : n ≤ histo.length) (hlt : (histo.drop n).sum < k) (hk : k ≤ histo.sum) :
    ∃ ib < n, findCut histo k n (histo.drop n).sum = some (ib, (histo.drop ib).sum) ∧
      k ≤ (histo.drop ib).sum ∧ (histo.drop (ib + 1)).sum < k := by
  induction n with
  | zero => exact absurd hk (by simpa using hlt)
  | succ n ih =>
    have hsum := sum_drop hn
    rw [findCut, ← hsum]
    split_ifs with hcut
    · exact ⟨n, Nat.lt_succ_self n, rfl, hcut, hlt⟩
    · obtain ⟨ib, hib, h⟩ := ih (Nat.le_of_succ_le hn) (not_le.1 hcut)
      exact ⟨ib, hib.trans (Nat.lt_succ_self n), h⟩

end Histogram

/-! ## The bucket sort -/

section BucketTopK

variable {data : List LlamaTokenData} {k ib : ℕ} (std : StdSort) (part : StdPartialSort)

/-- All logits have buckets. -/
def HaveBuckets (data : List LlamaTokenData) : Prop :=
  ∀ c ∈ data, (truncToInt (bucketScale * c.logit + bucketInter)).isSome

theorem HaveBuckets.bucketIdx_eq (h : HaveBuckets data) {c : LlamaTokenData} (hc : c ∈ data) :
    bucketIdx c.logit = some (bucketOf c) := by
  obtain ⟨n, hn⟩ := Option.isSome_iff_exists.1 (h c hc)
  unfold bucketOf bucketIdx
  rw [hn]
  rfl

theorem HaveBuckets.bucketOf_lt (h : HaveBuckets data) {c : LlamaTokenData} (hc : c ∈ data) :
    bucketOf c < nbuckets := bucketIdx_lt (h.bucketIdx_eq hc)

theorem HaveBuckets.mapM_eq (h : HaveBuckets data) :
    (data.mapM fun c => bucketIdx c.logit) = some (data.map bucketOf) := by
  induction data with
  | nil => rfl
  | cons c data ih =>
    rw [List.mapM_cons, h.bucketIdx_eq List.mem_cons_self,
      ih fun d hd => h d (List.mem_cons_of_mem _ hd)]
    rfl

theorem mapM_eq_none_of_not (h : ¬ HaveBuckets data) :
    (data.mapM fun c => bucketIdx c.logit) = none := by
  induction data with
  | nil => exact absurd nofun h
  | cons c data ih =>
    rw [List.mapM_cons]
    rcases hc : bucketIdx c.logit with _ | i
    · rfl
    · rw [ih fun hdata => h ?_]
      · rfl
      · intro d hd
        rcases List.mem_cons.1 hd with rfl | hd
        · obtain ⟨n, hn, -⟩ := Option.map_eq_some_iff.1 hc
          exact Option.isSome_of_eq_some hn
        · exact hdata d hd

/-- The candidates of a bucket. -/
def inBucket (data : List LlamaTokenData) (j : ℕ) : List LlamaTokenData :=
  data.filter (bucketOf · = j)

theorem count_map_bucketOf (j : ℕ) : (data.map bucketOf).count j = (inBucket data j).length := by
  unfold inBucket
  rw [List.count, List.countP_map, List.countP_eq_length_filter]
  congr 2

/-- The candidates that are written, each to its segment. -/
theorem foldlM_scatterToken (ib : ℕ) (s : Scatter LlamaTokenData) :
    (data.map fun c => (c, bucketOf c)).foldlM (scatterToken ib) s =
      ((data.filter (ib ≤ bucketOf ·)).map fun c => (nbuckets - 1 - bucketOf c, c)).foldlM
        (fun s x => s.put x.1 x.2) s := by
  induction data generalizing s with
  | nil => rfl
  | cons c data ih =>
    rw [List.map_cons, List.foldlM_cons]
    unfold scatterToken
    by_cases hc : ib ≤ bucketOf c
    · rw [if_pos hc, List.filter_cons_of_pos (by simpa using hc), List.map_cons, List.foldlM_cons]
      exact bind_congr fun s => ih s
    · rw [if_neg hc, List.filter_cons_of_neg (by simpa using hc)]
      exact ih s

/-- A segment gets the candidates of its bucket. -/
theorem filter_targets (h : HaveBuckets data) {t : ℕ} (ht : t + ib < nbuckets) :
    (((data.filter (ib ≤ bucketOf ·)).map fun c => (nbuckets - 1 - bucketOf c, c)).filter
      (·.1 = t)).map (·.2) = inBucket data (nbuckets - 1 - t) := by
  unfold inBucket
  rw [List.filter_map, List.map_map, List.filter_filter]
  change List.map id _ = _
  rw [List.map_id]
  refine List.filter_congr fun c hc => ?_
  have hlt := h.bucketOf_lt hc
  simp only [Function.comp_apply, ← Bool.decide_and, decide_eq_decide]
  omega

/-- The buckets above `ib`, from the last one down. -/
def above (ib : ℕ) : List ℕ := (List.range (nbuckets - 1 - ib)).map (nbuckets - 1 - ·)

theorem above_concat (hib : ib < nbuckets) :
    above ib ++ [ib] = (List.range (nbuckets - ib)).map (nbuckets - 1 - ·) := by
  have hlen : nbuckets - ib = nbuckets - 1 - ib + 1 := by omega
  rw [hlen, List.range_succ, List.map_append, List.map_singleton]
  congr 2
  omega

theorem pairwise_above (hib : ib < nbuckets) : (above ib ++ [ib]).Pairwise (· > ·) := by
  rw [above_concat hib, List.pairwise_map]
  refine List.Pairwise.imp_of_mem (fun ha hb hlt => ?_) List.pairwise_lt_range
  have := List.mem_range.1 ha
  have := List.mem_range.1 hb
  omega

theorem mem_above {j : ℕ} (hj : j < nbuckets) : j ∈ above ib ↔ ib < j := by
  unfold above
  rw [List.mem_map]
  constructor
  · rintro ⟨t, ht, rfl⟩
    have := List.mem_range.1 ht
    omega
  · intro h
    exact ⟨nbuckets - 1 - j, List.mem_range.2 (by omega), by omega⟩

/-- The sizes of the segments. -/
theorem reverse_drop_countBuckets (hib : ib < nbuckets) :
    ((countBuckets (data.map bucketOf)).drop ib).reverse =
      (above ib ++ [ib]).map fun j => (inBucket data j).length := by
  have hlen : (countBuckets (data.map bucketOf)).length = nbuckets := length_countBuckets _
  rw [above_concat hib]
  refine List.ext_getElem (by simp [hlen]) fun t ht _ => ?_
  rw [List.length_reverse, List.length_drop, hlen] at ht
  have hget := getD_countBuckets (data.map bucketOf) (j := nbuckets - 1 - t) (by omega)
  rw [List.getD_eq_getElem _ _ (by omega), count_map_bucketOf] at hget
  simp only [List.getElem_reverse, List.getElem_drop, List.length_drop, hlen, List.getElem_map,
    List.getElem_range]
  rw [← hget]
  congr 1
  omega

/-- Each bucket from `ib` on is in its segment. -/
theorem cells_scatter (h : HaveBuckets data) (hib : ib < nbuckets) :
    ∃ s, (data.zip (data.map bucketOf)).foldlM (scatterToken ib)
        ⟨List.replicate ((countBuckets (data.map bucketOf)).drop ib).sum default,
          startPtrs 0 ((countBuckets (data.map bucketOf)).drop ib).reverse⟩ = some s ∧
      s.cells = ((above ib).map (inBucket data)).flatten ++ inBucket data ib := by
  have hzip : data.zip (data.map bucketOf) = data.map fun c => (c, bucketOf c) :=
    List.ext_getElem (by simp) fun i _ _ => by simp
  have hlens : ((countBuckets (data.map bucketOf)).drop ib).reverse =
      (above ib ++ [ib]).map fun j => (inBucket data j).length := reverse_drop_countBuckets hib
  have hroom (t : ℕ) : (((data.filter (ib ≤ bucketOf ·)).map fun c =>
      (nbuckets - 1 - bucketOf c, c)).filter (·.1 = t)).length =
        ((countBuckets (data.map bucketOf)).drop ib).reverse.getD t 0 := by
    rw [hlens, above_concat hib]
    by_cases ht : t + ib < nbuckets
    · have htargets := congrArg List.length (filter_targets h ht)
      rw [List.length_map] at htargets
      rw [htargets, List.getD_eq_getElem _ _ (by simp; omega)]
      simp
    · rw [List.getD_eq_default _ _ (by simp; omega), List.length_eq_zero_iff,
        List.filter_eq_nil_iff]
      intro x hx
      obtain ⟨c, hc, rfl⟩ := List.mem_map.1 hx
      have hc := List.mem_filter.1 hc
      have hlt := h.bucketOf_lt hc.1
      have hle : ib ≤ bucketOf c := by simpa using hc.2
      simp only [decide_eq_true_eq]
      omega
  obtain ⟨s, hs, hcells⟩ := foldlM_put_start default hroom
  refine ⟨s, ?_, hcells.trans ?_⟩
  · rw [hzip, foldlM_scatterToken, ← hs, Scatter.start, List.sum_reverse]
  · have hlast : ((above ib).map (inBucket data)).flatten ++ inBucket data ib =
        ((above ib ++ [ib]).map (inBucket data)).flatten := by simp
    rw [hlast, above_concat hib, List.map_map, List.length_reverse, List.length_drop,
      length_countBuckets]
    refine congrArg List.flatten (List.map_congr_left fun t ht => ?_)
    exact filter_targets h (by have := List.mem_range.1 ht; omega)

/-- The bucket sort leaves the first `k` candidates in order. -/
theorem bucketTopK_spec (h : HaveBuckets data) (hpos : 0 < k) (hk : k ≤ data.length) :
    ∃ first, bucketTopK std part data k = some (first ++ data.drop k) ∧ first.length = k ∧
      FirstSorted comp first data := by
  have hlen : (countBuckets (data.map bucketOf)).length = nbuckets := length_countBuckets _
  have htotal : (countBuckets (data.map bucketOf)).sum = data.length := by
    rw [sum_countBuckets, List.length_map]
    intro i hi
    obtain ⟨c, hc, rfl⟩ := List.mem_map.1 hi
    exact h.bucketOf_lt hc
  have hnone : ((countBuckets (data.map bucketOf)).drop nbuckets).sum = 0 := by
    rw [List.drop_of_length_le hlen.le, List.sum_nil]
  obtain ⟨ib, hib, hcut, hhave, hdone⟩ :=
    findCut_spec hlen.ge (hnone.trans_lt hpos) (hk.trans htotal.ge)
  rw [hnone] at hcut
  obtain ⟨s, hs, hcells⟩ := cells_scatter h hib
  have hlens : ((countBuckets (data.map bucketOf)).drop ib).reverse =
      (above ib ++ [ib]).map fun j => (inBucket data j).length := reverse_drop_countBuckets hib
  have hlast : (countBuckets (data.map bucketOf)).getD ib 0 = (inBucket data ib).length := by
    rw [getD_countBuckets _ hib, count_map_bucketOf]
  -- the candidates of the buckets above `ib`
  have hsum : ((countBuckets (data.map bucketOf)).drop (ib + 1)).sum =
      ((above ib).map (inBucket data)).flatten.length := by
    have hsum := congrArg List.sum hlens
    rw [List.sum_reverse, sum_drop (hib.trans_eq hlen.symm), hlast, List.map_append,
      List.sum_append, List.map_singleton, List.sum_singleton] at hsum
    rw [List.length_flatten, List.map_map]
    exact Nat.add_right_cancel hsum
  rw [sum_drop (hib.trans_eq hlen.symm), hlast, hsum] at hhave
  rw [hsum] at hdone
  have hlength (l : List LlamaTokenData) : (std.sort comp l).length = l.length :=
    (std.perm l strictWeak_comp).length_eq
  rcases hsort : sortRanges (std.sort comp) (((above ib).map (inBucket data)).map List.length) 0
      (((above ib).map (inBucket data)).flatten ++ inBucket data ib) with ⟨tmpTokens, ndone⟩
  obtain ⟨rfl, hrange⟩ := sortRanges_last hlength _ _ (part.sort comp
    (k - ((above ib).map (inBucket data)).flatten.length)) hsort
  have hdoneLen : ((above ib).flatMap fun j => std.sort comp (inBucket data j)).length =
      ((above ib).map (inBucket data)).flatten.length := by
    simp [List.length_flatMap, List.length_flatten, Function.comp_def, hlength]
  have hbucket {a b : LlamaTokenData} (ha : a ∈ data) (hb : b ∈ data)
      (hlt : bucketOf b < bucketOf a) : ¬ comp b a := by
    intro hcomp
    have hle : a.logit ≤ b.logit := (of_decide_eq_true hcomp).le
    exact absurd (bucketIdx_mono hle (h.bucketIdx_eq ha) (h.bucketIdx_eq hb)) (Nat.not_le_of_lt hlt)
  have hpartLen := (part.perm (k - ((above ib).map (inBucket data)).flatten.length)
    (inBucket data ib) strictWeak_comp).length_eq
  refine ⟨_, ?_, ?_, firstSorted_buckets std part
    (k - ((above ib).map (inBucket data)).flatten.length) strictWeak_comp hbucket
    (pairwise_above hib) fun c hc => ?_⟩
  · unfold bucketTopK
    have hdrop : ((countBuckets (data.map bucketOf)).drop ib).reverse.dropLast =
        ((above ib).map (inBucket data)).map List.length := by
      rw [hlens, List.map_append, List.map_singleton, List.dropLast_concat, List.map_map]
      rfl
    simp only [h.mapM_eq, Option.bind_eq_bind, Option.bind_some, hcut, hs, hcells, hdrop, hsort,
      hlast, hrange]
    refine congrArg some (congrArg (· ++ data.drop k) ?_)
    rw [List.map_map, ← List.flatMap_def, List.take_append, List.take_of_length_le]
    · rw [← hdoneLen]
      rfl
    · rw [← hdoneLen] at hdone
      exact hdone.le
  · change (((above ib).flatMap fun j => std.sort comp (inBucket data j)) ++
      (part.sort comp _ (inBucket data ib)).take _).length = k
    rw [List.length_append, hdoneLen, List.length_take, hpartLen]
    omega
  · rw [List.mem_append, List.mem_singleton, mem_above (h.bucketOf_lt hc)]
    omega

/-! ## All of top-k -/

/-- Fewer than 129 candidates are kept, or all logits have buckets. -/
def TopKFits (data : List LlamaTokenData) (k : ℤ) : Prop :=
  min k data.length ≤ 128 ∨ HaveBuckets data

theorem keepsTop_of_firstSorted {first : List LlamaTokenData} {sorted : Bool} {n : ℤ}
    (hlen : first.length = (min n data.length).toNat) (h : FirstSorted comp first data) :
    KeepsTop data n (some (first, sorted)) := by
  have hkeys : first.map (·.logit) =
      ((data.map (·.logit)).insertionSort (· ≥ ·)).take first.length :=
    h.map_eq fun a b => decide_eq_true_iff
  obtain ⟨rest, hperm, -⟩ := h.least
  refine ⟨first, rfl, ?_, ?_, fun _ => hlen⟩
  · rw [← hlen, List.take_length, hkeys]
  · rw [← hlen, List.take_length]
    exact (List.sublist_append_left first rest).subperm.trans hperm.subperm

variable {curP : LlamaTokenDataArray} {n : ℤ}

theorem topK_eq_none (h : ¬ TopKFits curP.data n) :
    topK std part { curP with sorted := false } n = none := by
  obtain ⟨hlong, hnone⟩ := not_or.1 h
  have hpos : ¬ n ≤ 0 := by omega
  have hfew : ¬ (min n curP.data.length).toNat ≤ 128 := by omega
  unfold topK bucketTopK
  rw [if_neg hpos]
  simp only [Bool.false_eq_true, ↓reduceIte, hfew, mapM_eq_none_of_not hnone]
  rfl

theorem keepsTop_topK (h : TopKFits curP.data n) :
    KeepsTop curP.data n (topK std part { curP with sorted := false } n) := by
  unfold topK
  by_cases hpos : n ≤ 0
  · rw [if_pos hpos]
    have hzero : (min n (curP.data.length : ℤ)).toNat = 0 := by omega
    refine ⟨curP.data, rfl, ?_, ?_, fun hn => absurd hpos (by omega)⟩
    · rw [hzero]
      rfl
    · rw [hzero]
      exact List.nil_subperm
  · rw [if_neg hpos]
    by_cases hfew : (min n (curP.data.length : ℤ)).toNat ≤ 128
    · simp only [Bool.false_eq_true, ↓reduceIte, hfew]
      refine keepsTop_of_firstSorted ?_ (part.firstSorted _ _ strictWeak_comp)
      rw [List.length_take, (part.perm _ _ strictWeak_comp).length_eq]
      omega
    · have hbuckets := h.resolve_left (by omega)
      obtain ⟨first, hsome, hlen, hfirst⟩ := bucketTopK_spec std part hbuckets
        (k := (min n (curP.data.length : ℤ)).toNat) (by omega) (by omega)
      simp only [Bool.false_eq_true, ↓reduceIte, hfew, hsome, Option.bind_eq_bind,
        Option.bind_some]
      rw [← hlen, List.take_left]
      exact keepsTop_of_firstSorted hlen hfirst

end BucketTopK

/-- Top-k keeps the candidates that come first in order if and only if it keeps fewer than 129 or
all logits have buckets. -/
theorem keepsTop_topK_iff (std : StdSort) (part : StdPartialSort) (curP : LlamaTokenDataArray)
    (k : ℤ) : KeepsTop curP.data k (topK std part { curP with sorted := false } k) ↔
      TopKFits curP.data k := by
  constructor
  · intro h
    by_contra hfits
    rw [topK_eq_none std part hfits] at h
    obtain ⟨r, hr, -⟩ := h
    exact absurd hr nofun
  · exact keepsTop_topK std part

/-- Candidates whose logits have no bucket. -/
def hotCandidates : LlamaTokenDataArray where
  data := (List.range 129).map fun (i : ℕ) => ⟨i, 10 ^ 9, 0⟩
  sorted := false
  size_lt := by simp

theorem not_keepsTop_topK : ¬ ∀ (std : StdSort) (part : StdPartialSort)
    (curP : LlamaTokenDataArray) (k : ℤ),
      KeepsTop curP.data k (topK std part { curP with sorted := false } k) := by
  intro h
  obtain ⟨r, hr, -⟩ := h .insertion StdSort.insertion.whole hotCandidates 129
  have hnot : ¬ TopKFits hotCandidates.data 129 := by
    rintro (hfew | hbuckets)
    · simp [hotCandidates] at hfew
    · have hsome := hbuckets ⟨0, 10 ^ 9, 0⟩ (List.mem_map.2 ⟨0, List.mem_range.2 (by decide), rfl⟩)
      revert hsome
      decide +kernel
  rw [topK_eq_none _ _ hnot] at hr
  exact absurd hr nofun

end LamaServer
