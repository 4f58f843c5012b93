import LamaServer.Augmentation
import LamaServer.Proofs.Store

/-!
# Which documents augment a prompt

Every score is filed under the index of its document, so sorting ranks the documents. But the loop
over the ranking takes all of them or none, and in search order the list is cut to a length that it
may not have, which fills it up with empty documents.
-/

namespace LamaServer

variable {S : Type}

/-- One result for each of `n` tasks, in the order they arrive. -/
structure RerankResults (S : Type) (n : Nat) where
  arrivals : List (Nat × S)
  perm : (arrivals.map Prod.fst).Perm (List.range n)

/-- The score of document `i`. -/
def scoreOf [Zero S] (arrivals : List (Nat × S)) (i : Nat) : S :=
  ((arrivals.find? (·.1 = i)).map Prod.snd).getD 0

/-- The first documents of a ranking by descending score, up to `limit`. -/
def BestRanked [LinearOrder S] (documents : List Bytes) (score : Nat → S) (limit : Nat)
    (out : List Bytes) : Prop :=
  ∃ ranking : List Nat, ranking.Perm (List.range documents.length) ∧
    ranking.Pairwise (fun i j => score j ≤ score i) ∧
    out = (ranking.take limit).map fun i => documents.getD i []

/-- What is put before the question are the best of the documents, as many as asked for. -/
def AugmentsBest [LinearOrder S] [Zero S] (sorter : ScoreSort S) (params : AugmentParams)
    (hasSep : Bool) (documents : List Bytes) (arrivals : List (Nat × S)) : Prop :=
  ∃ out, selectDocuments sorter params hasSep documents (.results arrivals) = .ok out ∧
    out.length = min params.numMaxAugmentations.toNat documents.length ∧ [] ∉ out ∧
    if params.useReranking && hasSep then
      BestRanked documents (scoreOf arrivals) params.numMaxAugmentations.toNat out
    else out = documents.take params.numMaxAugmentations.toNat

/-- The limit does not cut a ranking, and is not past the end of the list that it cuts. -/
def LimitFits (params : AugmentParams) (hasSep : Bool) (nDocuments : Nat) : Prop :=
  if params.useReranking && hasSep then
    params.numMaxAugmentations ≤ 0 ∨ nDocuments ≤ params.numMaxAugmentations
  else if params.numMaxAugmentations < params.numChunksToRetrieve then
    0 ≤ params.numMaxAugmentations ∧ params.numMaxAugmentations ≤ nDocuments
  else nDocuments ≤ params.numMaxAugmentations.toNat

instance (params : AugmentParams) (hasSep : Bool) (n : Nat) :
    Decidable (LimitFits params hasSep n) := by
  unfold LimitFits
  infer_instance

/-! ## The scores -/

/-- A slot holds the last result that is filed in it. -/
theorem getElem?_foldl_set (i : Nat) : ∀ (arrivals : List (Nat × S)) (l : List (Option (Nat × S))),
    (arrivals.foldl (fun results result => results.set result.1 (some result)) l)[i]? =
      l[i]?.map fun old => (arrivals.reverse.find? (·.1 = i)).or old
  | [], l => by simp
  | r :: rs, l => by
    rw [List.foldl_cons, getElem?_foldl_set i rs, List.reverse_cons, List.find?_append,
      List.getElem?_set]
    by_cases hi : r.1 = i
    · subst hi
      rcases hl : l[r.1]? with _ | old
      · have := List.getElem?_eq_none_iff.1 hl
        simp [not_lt.2 this]
      · have := (List.getElem?_eq_some_iff.1 hl).1
        simp [this]
    · simp [hi]

/-- Where every index comes once it does not matter from which end a result is looked for. -/
theorem find?_eq_some_iff_mem : ∀ {arrivals : List (Nat × S)}, (arrivals.map Prod.fst).Nodup →
    ∀ {i : Nat} {r : Nat × S}, arrivals.find? (·.1 = i) = some r ↔ r ∈ arrivals ∧ r.1 = i
  | [], _, i, r => by simp
  | x :: xs, h, i, r => by
    rw [List.map_cons, List.nodup_cons] at h
    rw [List.find?_cons, List.mem_cons]
    by_cases hx : x.1 = i
    · have hnot : r ∈ xs → r.1 ≠ i := fun hr hri =>
        h.1 (List.mem_map.2 ⟨r, hr, hri.trans hx.symm⟩)
      simp only [hx, decide_true, Option.some.injEq]
      constructor
      · rintro rfl
        exact ⟨.inl rfl, hx⟩
      · rintro ⟨rfl | hr, hri⟩
        · rfl
        · exact absurd hri (hnot hr)
    · simp only [hx, decide_false, find?_eq_some_iff_mem h.2]
      constructor
      · exact fun ⟨hr, hri⟩ => ⟨.inr hr, hri⟩
      · rintro ⟨rfl | hr, hri⟩
        · exact absurd hri hx
        · exact ⟨hr, hri⟩

theorem find?_reverse {arrivals : List (Nat × S)} (h : (arrivals.map Prod.fst).Nodup) (i : Nat) :
    arrivals.reverse.find? (·.1 = i) = arrivals.find? (·.1 = i) := by
  have h' : (arrivals.reverse.map Prod.fst).Nodup := by
    rw [List.map_reverse]
    exact List.nodup_reverse.2 h
  refine Option.ext fun r => ?_
  rw [find?_eq_some_iff_mem h, find?_eq_some_iff_mem h', List.mem_reverse]

/-- The results come out in the order of their indices. -/
theorem fileResults_eq {n : Nat} (results : RerankResults S n) :
    fileResults n results.arrivals =
      (List.range n).map fun i => results.arrivals.find? (·.1 = i) := by
  have hnodup : (results.arrivals.map Prod.fst).Nodup := results.perm.nodup_iff.2 List.nodup_range
  refine List.ext_getElem? fun i => ?_
  unfold fileResults
  rw [getElem?_foldl_set, find?_reverse hnodup, List.getElem?_map]
  by_cases hi : i < n
  · simp [hi]
  · simp [hi]

/-- What the handler has done after the results below `k`. -/
theorem getElem?_setScores (ranked : List (RankedDocument S)) (arrivals : List (Nat × S))
    (i : Nat) : ∀ k : Nat,
    (setScores ranked ((List.range k).map fun i => arrivals.find? (·.1 = i)))[i]? =
      ranked[i]?.map fun d => if i < k then
        { d with score := ((arrivals.find? (·.1 = i)).map Prod.snd).getD d.score } else d
  | 0 => by simp [setScores]
  | k + 1 => by
    have ih := getElem?_setScores ranked arrivals i k
    unfold setScores at ih ⊢
    rw [List.range_succ, List.map_append, List.foldl_append, List.map_singleton, List.foldl_cons,
      List.foldl_nil]
    rcases hfind : arrivals.find? (·.1 = k) with _ | ⟨index, score⟩
    · rw [hfind]
      dsimp only
      rw [ih]
      by_cases hi : i = k
      · subst hi
        simp [hfind]
      · simp [show i < k + 1 ↔ i < k by omega]
    · have hindex : index = k := by simpa using List.find?_some hfind
      subst hindex
      rw [hfind]
      dsimp only
      rw [List.getElem?_modify, ih]
      by_cases hi : index = i
      · subst hi
        simp [hfind]
      · simp [hi, show i < index + 1 ↔ i < index by omega]

/-- Every document has its index and its score. -/
theorem setScores_eq [Zero S] (documents : List Bytes) (results : RerankResults S documents.length) :
    setScores (rankDocuments S documents) (fileResults documents.length results.arrivals) =
      documents.mapIdx fun i content => ⟨i, scoreOf results.arrivals i, content⟩ := by
  refine List.ext_getElem? fun i => ?_
  rw [fileResults_eq, getElem?_setScores, rankDocuments, List.getElem?_mapIdx, List.getElem?_mapIdx]
  by_cases hi : i < documents.length
  · simp [hi, scoreOf]
  · simp [hi]

/-! ## The limit -/

/-- The loop takes nothing or everything. -/
theorem collectDocuments_eq (n : Int) (ranked : List (RankedDocument S)) :
    collectDocuments n 0 ranked = if n ≤ 0 then [] else ranked.map RankedDocument.content := by
  induction ranked with
  | nil => simp [collectDocuments]
  | cons d ds ih =>
    rw [collectDocuments, ih]
    by_cases hn : n ≤ 0
    · rw [if_pos hn, if_pos hn]
    · rw [if_neg hn, if_neg hn, if_neg hn, List.map_cons]

variable [LinearOrder S]

/-- A sorted list of the documents is a ranking. -/
theorem bestRanked_sort (sorter : ScoreSort S) (documents : List Bytes) (score : Nat → S)
    {limit : Nat} (hlimit : documents.length ≤ limit) :
    BestRanked documents score limit ((sorter.sort
      (documents.mapIdx fun i content => ⟨i, score i, content⟩)).map RankedDocument.content) := by
  set ranked : List (RankedDocument S) := documents.mapIdx fun i content => ⟨i, score i, content⟩
    with hranked
  have hperm := sorter.perm ranked
  have hmem : ∀ d ∈ sorter.sort ranked, d.score = score d.index ∧
      d.content = documents.getD d.index [] := by
    intro d hd
    obtain ⟨i, hi, rfl⟩ := List.mem_mapIdx.1 (hperm.mem_iff.1 hd)
    simp [hi]
  have hindex : ranked.map RankedDocument.index = List.range documents.length := by
    refine List.ext_getElem? fun i => ?_
    by_cases hi : i < documents.length <;> simp [hranked, hi]
  refine ⟨(sorter.sort ranked).map RankedDocument.index, ?_, ?_, ?_⟩
  · rw [← hindex]
    exact hperm.map _
  · refine List.pairwise_map.2 ((sorter.sorted ranked).imp_of_mem fun ha hb hle => ?_)
    rwa [(hmem _ ha).1, (hmem _ hb).1] at hle
  · rw [List.take_of_length_le, List.map_map]
    · exact List.map_congr_left fun d hd => (hmem d hd).2
    · rw [List.length_map, hperm.length_eq, hranked, List.length_mapIdx]
      exact hlimit

theorem BestRanked.length {documents out : List Bytes} {score : Nat → S} {limit : Nat}
    (h : BestRanked documents score limit out) : out.length = min limit documents.length := by
  obtain ⟨ranking, hperm, -, rfl⟩ := h
  rw [List.length_map, List.length_take, hperm.length_eq, List.length_range]

variable [Zero S]

/-- Cutting a list to a length is taking what is in front, if there is enough. -/
theorem resizeDocuments_eq_ok {documents out : List Bytes} {n : Int} (hempty : [] ∉ out) :
    resizeDocuments documents n = .ok out ↔
      0 ≤ n ∧ n ≤ documents.length ∧ out = documents.take n.toNat := by
  unfold resizeDocuments
  by_cases hn : n < 0
  · simp [hn]
  rw [if_neg hn, Except.ok.injEq]
  by_cases hle : n ≤ documents.length
  · have hzero : n.toNat - documents.length = 0 := by omega
    rw [hzero, List.replicate_zero, List.append_nil, eq_comm]
    exact ⟨fun h => ⟨by omega, hle, h⟩, fun h => h.2.2⟩
  · refine iff_of_false ?_ fun h => hle h.2.1
    rintro rfl
    refine hempty (List.mem_append_right _ (List.mem_replicate.2 ⟨?_, rfl⟩))
    omega

/-- The best documents are selected if and only if the limit fits their number. -/
theorem selectDocuments_best_iff (sorter : ScoreSort S) (params : AugmentParams) (hasSep : Bool)
    (documents : List Bytes) (hempty : [] ∉ documents)
    (results : RerankResults S documents.length) :
    AugmentsBest sorter params hasSep documents results.arrivals ↔
      LimitFits params hasSep documents.length := by
  unfold AugmentsBest LimitFits
  have htake : ∀ k, [] ∉ documents.take k := fun k h => hempty (List.mem_of_mem_take h)
  rcases hrerank : (params.useReranking && hasSep) with _ | _
  · simp only [selectDocuments, hrerank, Bool.not_false, if_true, Bool.false_eq_true, if_false]
    by_cases hcut : params.numMaxAugmentations < params.numChunksToRetrieve
    · rw [if_pos hcut, if_pos hcut]
      constructor
      · rintro ⟨out, hout, -, hne, -⟩
        obtain ⟨h0, hle, -⟩ := (resizeDocuments_eq_ok hne).1 hout
        exact ⟨h0, hle⟩
      · rintro ⟨h0, hle⟩
        refine ⟨_, (resizeDocuments_eq_ok (htake _)).2 ⟨h0, hle, rfl⟩, ?_, htake _, rfl⟩
        rw [List.length_take]
    · rw [if_neg hcut, if_neg hcut]
      constructor
      · rintro ⟨out, hout, hlen, -⟩
        cases hout
        omega
      · intro hle
        exact ⟨documents, rfl, by omega, hempty, (List.take_of_length_le hle).symm⟩
  · simp only [selectDocuments, hrerank, Bool.not_true, Bool.false_eq_true, if_false, if_true]
    by_cases hnil : documents = []
    · subst hnil
      rw [if_pos rfl]
      refine iff_of_true ⟨[], rfl, by simp, by simp, [], by simp⟩ ?_
      simp only [List.length_nil]
      omega
    rw [if_neg hnil, setScores_eq, collectDocuments_eq]
    by_cases hzero : params.numMaxAugmentations ≤ 0
    · rw [if_pos hzero, Int.toNat_of_nonpos hzero]
      obtain ⟨ranking, hperm, hpairwise, -⟩ :=
        bestRanked_sort sorter documents (scoreOf results.arrivals) le_rfl
      exact iff_of_true ⟨[], rfl, by simp, by simp, ranking, hperm, hpairwise, by simp⟩ (.inl hzero)
    rw [if_neg hzero, or_iff_right hzero]
    constructor
    · rintro ⟨out, hout, hlen, -⟩
      cases hout
      rw [List.length_map, (sorter.perm _).length_eq, List.length_mapIdx] at hlen
      omega
    · intro hle
      have hlimit : documents.length ≤ params.numMaxAugmentations.toNat := by omega
      have hbest := bestRanked_sort sorter documents (scoreOf results.arrivals) hlimit
      refine ⟨_, rfl, hbest.length, ?_, hbest⟩
      rintro hmem
      obtain ⟨d, hd, hcontent⟩ := List.mem_map.1 hmem
      obtain ⟨i, hi, rfl⟩ := List.mem_mapIdx.1 ((sorter.perm _).mem_iff.1 hd)
      exact hempty (hcontent ▸ List.getElem_mem hi)

variable {V D : Type}

theorem nil_notMem_recoverDocuments (env : Env V D) (recipientSk : Ecc256PrivateKey)
    (nearestChunks : List (NearestResult V D)) :
    [] ∉ recoverDocuments env recipientSk nearestChunks := by
  simp [recoverDocuments]

/-- The lines of the documents stand in the augmented prompt. -/
theorem contextText_infix {prompt text : Bytes} {documents : List Bytes}
    (h : augmentPrompt prompt documents = .ok text) : contextText documents <:+: text := by
  unfold augmentPrompt at h
  split at h
  · obtain rfl := Except.ok.inj h
    exact (List.prefix_append _ _).isInfix
  · rename_i beginPos _
    dsimp only at h
    split_ifs at h
    obtain rfl := Except.ok.inj h
    exact ⟨(prompt.drop beginPos).take (userDelimiter.length + 1),
      [10] ++ (prompt.drop beginPos).drop (userDelimiter.length + 1),
      by simp only [List.append_assoc]⟩

/-- A sort that keeps the order of equal scores. -/
def stableSort (S : Type) [LinearOrder S] : ScoreSort S where
  sort l := l.mergeSort fun a b => b.score ≤ a.score
  perm l := List.mergeSort_perm l _
  sorted l := by
    refine (List.pairwise_mergeSort ?_ ?_ l).imp fun h => by simpa using h
    · intro a b c hab hbc
      simp only [decide_eq_true_eq] at hab hbc ⊢
      exact hbc.trans hab
    · intro a b
      simpa using le_total b.score a.score

/-- Documents are augmented with the best ones, whatever the rows and the results. -/
def AugmentLaw : Prop :=
  ∀ (params : AugmentParams) (hasSep : Bool) (recipientSk : Ecc256PrivateKey)
    (nearestChunks : List (NearestResult (List Int) Int))
    (results : RerankResults Int (recoverDocuments exampleEnv recipientSk nearestChunks).length),
    AugmentsBest (stableSort Int) params hasSep
      (recoverDocuments exampleEnv recipientSk nearestChunks) results.arrivals

end LamaServer
