import LamaServer.Lib.FirstMax
import LamaServer.Proofs.NgramDraft

/-!
# Which token is drafted

The choice of `try_draft` in unbounded integers, and on which counts no product and no sum overflows
an `int`.
-/

namespace LamaServer

namespace Ngram

/-- The values of `int`. -/
def Fits (n : Int) : Prop := -2 ^ 31 ≤ n ∧ n < 2 ^ 31

theorem checkedInt_eq_some {n m : Int} : checkedInt n = some m ↔ Fits n ∧ m = n := by
  unfold checkedInt
  split_ifs with h
  · rw [Option.some.injEq, eq_comm]
    exact ⟨fun hm => ⟨h, hm⟩, fun hm => hm.2⟩
  · exact ⟨nofun, fun hm => absurd hm.1 h⟩

abbrev TokenCount := Sigma fun _ : Int32 => Int32

/-- A primary count. -/
def count (tokenCount : TokenCount) : Int := tokenCount.2.toInt

/-- 100 times the static count, or 1 for a token without one. -/
def weight (partStatic : CommonNgramCachePart) (tokenCount : TokenCount) : Int :=
  match partStatic.lookup tokenCount.1 with
  | some count => 100 * count.toInt
  | none => 1

/-- What is to be maximised. -/
def score (partStatic : CommonNgramCachePart) (tokenCount : TokenCount) : Int :=
  count tokenCount * weight partStatic tokenCount

def total (counts : List TokenCount) : Int := (counts.map count).sum

/-! ## The choice in unbounded integers -/

/-- What the counts of an n-gram draft. -/
def exactChoice (part partStatic : CommonNgramCachePart) (minSampleSize minPercent : Int) : Int32 :=
  let best := firstMax (score partStatic) part.entries
  if total part.entries < minSampleSize then nullToken
  else if 100 * best.elim 0 count < minPercent * total part.entries then nullToken
  else best.elim nullToken (·.1)

/-- What the first `i` n-grams draft, of which the last one that drafts counts. -/
def exactTryDraft (ncPrimary : CommonNgramCache) (ngramsPrimary : List CommonNgram)
    (partStatic : CommonNgramCachePart) (minSampleSize minPercent : List Int) : ℕ → Int32
  | 0 => nullToken
  | i + 1 =>
    let drafted := ((ngramsPrimary[i]?).bind ncPrimary.lookup).elim nullToken fun part =>
      exactChoice part partStatic (minSampleSize.getD i 0) (minPercent.getD i 0)
    if drafted = nullToken then
      exactTryDraft ncPrimary ngramsPrimary partStatic minSampleSize minPercent i
    else drafted

/-! ## Counts that fit -/

/-- The numbers that the loop over some counts computes. -/
structure LoopFits (partStatic : CommonNgramCachePart) (counts : List TokenCount) : Prop where
  weights : ∀ tokenCount ∈ counts, Fits (weight partStatic tokenCount)
  scores : ∀ tokenCount ∈ counts, Fits (score partStatic tokenCount)
  sums : ∀ n, Fits (total (counts.take n))

/-- The numbers that are computed from the counts of an n-gram. -/
structure PartFits (part partStatic : CommonNgramCachePart) (minSampleSize minPercent : Int) :
    Prop where
  loop : LoopFits partStatic part.entries
  thresholds : minSampleSize ≤ total part.entries →
    Fits (100 * (firstMax (score partStatic) part.entries).elim 0 count) ∧
      Fits (minPercent * total part.entries)

/-- The numbers that are computed until an n-gram drafts. -/
def DraftFits (ncPrimary : CommonNgramCache) (ngramsPrimary : List CommonNgram)
    (partStatic : CommonNgramCachePart) (minSampleSize minPercent : List Int) : ℕ → Prop
  | 0 => True
  | i + 1 =>
    let rest := DraftFits ncPrimary ngramsPrimary partStatic minSampleSize minPercent i
    ((ngramsPrimary[i]?).bind ncPrimary.lookup).elim rest fun part =>
      PartFits part partStatic (minSampleSize.getD i 0) (minPercent.getD i 0) ∧
        (exactChoice part partStatic (minSampleSize.getD i 0) (minPercent.getD i 0) = nullToken →
          rest)

section Loop

variable {partStatic : CommonNgramCachePart} {counts : List TokenCount} {s : PrimaryMax}

/-- The state of the loop in unbounded integers. -/
def exactMax (partStatic : CommonNgramCachePart) (counts : List TokenCount) : PrimaryMax where
  maxCountPrimary := (firstMax (score partStatic) counts).elim 0 count
  maxCountStatic := (firstMax (score partStatic) counts).elim 0 (weight partStatic)
  sumCountPrimary := total counts
  maxToken := (firstMax (score partStatic) counts).elim nullToken (·.1)

theorem total_concat (tokenCount : TokenCount) :
    total (counts ++ [tokenCount]) = total counts + count tokenCount := by
  simp [total]

theorem loopFits_concat {tokenCount : TokenCount} :
    LoopFits partStatic (counts ++ [tokenCount]) ↔ LoopFits partStatic counts ∧
      Fits (weight partStatic tokenCount) ∧ Fits (score partStatic tokenCount) ∧
        Fits (total counts + count tokenCount) := by
  constructor
  · rintro ⟨hweights, hscores, hsums⟩
    refine ⟨⟨fun t ht => hweights t (by simp [ht]), fun t ht => hscores t (by simp [ht]),
      fun n => ?_⟩, hweights _ (by simp), hscores _ (by simp), ?_⟩
    · have h := hsums (min n counts.length)
      rwa [List.take_append_of_le_length (Nat.min_le_right ..), ← List.take_eq_take_min] at h
    · have h := hsums (counts.length + 1)
      rwa [List.take_of_length_le (by simp), total_concat] at h
  · rintro ⟨⟨hweights, hscores, hsums⟩, hweight, hscore, hsum⟩
    refine ⟨fun t ht => ?_, fun t ht => ?_, fun n => ?_⟩
    · rcases List.mem_append.1 ht with ht | ht
      · exact hweights t ht
      · rwa [List.mem_singleton.1 ht]
    · rcases List.mem_append.1 ht with ht | ht
      · exact hscores t ht
      · rwa [List.mem_singleton.1 ht]
    · rcases le_or_gt n counts.length with hn | hn
      · rw [List.take_append_of_le_length hn]
        exact hsums n
      · rwa [List.take_of_length_le (by simp; omega), total_concat]

theorem countStatic_eq_some {tokenCount : TokenCount} {w : Int} :
    countStatic partStatic tokenCount.1 = some w ↔
      Fits (weight partStatic tokenCount) ∧ w = weight partStatic tokenCount := by
  unfold countStatic weight
  rcases partStatic.lookup tokenCount.1 with _ | count
  · simp [Fits, eq_comm]
  · exact checkedInt_eq_some

/-- The product of the two factors of what is kept. -/
theorem fits_maxProduct (h : LoopFits partStatic counts) :
    Fits ((exactMax partStatic counts).maxCountPrimary *
      (exactMax partStatic counts).maxCountStatic) ∧
    (exactMax partStatic counts).maxCountPrimary * (exactMax partStatic counts).maxCountStatic =
      (firstMax (score partStatic) counts).elim 0 (score partStatic) := by
  unfold exactMax
  rcases hmax : firstMax (score partStatic) counts with _ | best
  · simp [Fits]
  · exact ⟨h.scores best (firstMax_eq_some hmax).1, rfl⟩

/-- One round of the loop, from the exact state. -/
theorem next_exactMax {tokenCount : TokenCount} (h : LoopFits partStatic counts) :
    (exactMax partStatic counts).next partStatic tokenCount = some s ↔
      (Fits (weight partStatic tokenCount) ∧ Fits (score partStatic tokenCount) ∧
        Fits (total counts + count tokenCount)) ∧
        s = exactMax partStatic (counts ++ [tokenCount]) := by
  obtain ⟨hproduct, heq⟩ := fits_maxProduct h
  have hstate : (if score partStatic tokenCount >
      (exactMax partStatic counts).maxCountPrimary * (exactMax partStatic counts).maxCountStatic
      then (⟨count tokenCount, weight partStatic tokenCount, total counts + count tokenCount,
        tokenCount.1⟩ : PrimaryMax)
      else { exactMax partStatic counts with
        sumCountPrimary := total counts + count tokenCount }) =
      exactMax partStatic (counts ++ [tokenCount]) := by
    rw [heq, exactMax, exactMax, firstMax_concat, total_concat]
    split_ifs <;> rfl
  rw [← hstate]
  unfold PrimaryMax.next
  simp only [Option.bind_eq_bind, Option.bind_eq_some_iff, countStatic_eq_some, checkedInt_eq_some]
  constructor
  · rintro ⟨w, ⟨hw, rfl⟩, p, ⟨hp, rfl⟩, m, ⟨-, rfl⟩, t, ⟨ht, rfl⟩, hs⟩
    exact ⟨⟨hw, hp, ht⟩, (Option.some.inj hs).symm⟩
  · rintro ⟨⟨hw, hp, ht⟩, rfl⟩
    exact ⟨_, ⟨hw, rfl⟩, _, ⟨hp, rfl⟩, _, ⟨hproduct, rfl⟩, _, ⟨ht, rfl⟩, rfl⟩

theorem foldlM_next_iff : counts.foldlM (PrimaryMax.next partStatic) {} = some s ↔
    LoopFits partStatic counts ∧ s = exactMax partStatic counts := by
  induction counts using List.reverseRecOn generalizing s with
  | nil =>
    have hfits : LoopFits partStatic [] := ⟨nofun, nofun, fun n => by simp [total, Fits]⟩
    simp only [List.foldlM_nil, Option.pure_def, Option.some.injEq, hfits, true_and]
    exact eq_comm
  | append_singleton counts tokenCount ih =>
    rw [List.foldlM_append, loopFits_concat]
    simp only [Option.bind_eq_bind, Option.bind_eq_some_iff, List.foldlM_cons, List.foldlM_nil]
    constructor
    · rintro ⟨s', hs', hnext⟩
      obtain ⟨hfits, rfl⟩ := ih.1 hs'
      obtain ⟨s'', hs'', hlast⟩ := hnext
      obtain ⟨hmore, rfl⟩ := (next_exactMax hfits).1 hs''
      exact ⟨⟨hfits, hmore⟩, (Option.some.inj hlast).symm⟩
    · rintro ⟨⟨hfits, hmore⟩, rfl⟩
      exact ⟨_, ih.2 ⟨hfits, rfl⟩, _, (next_exactMax hfits).2 ⟨hmore, rfl⟩, rfl⟩

end Loop

section Choice

variable {part partStatic : CommonNgramCachePart} {minSampleSize minPercent : Int} {r : Int32}

theorem draftFromPart_iff : draftFromPart part partStatic minSampleSize minPercent = some r ↔
    PartFits part partStatic minSampleSize minPercent ∧
      r = exactChoice part partStatic minSampleSize minPercent := by
  unfold draftFromPart exactChoice
  simp only [Option.bind_eq_bind, Option.bind_eq_some_iff, foldlM_next_iff]
  by_cases hsample : total part.entries < minSampleSize
  · rw [if_pos hsample]
    constructor
    · rintro ⟨s, ⟨hloop, rfl⟩, hr⟩
      rw [exactMax, if_pos hsample] at hr
      exact ⟨⟨hloop, fun h => absurd hsample (by omega)⟩, (Option.some.inj hr).symm⟩
    · rintro ⟨⟨hloop, -⟩, rfl⟩
      exact ⟨_, ⟨hloop, rfl⟩, if_pos hsample⟩
  · rw [if_neg hsample]
    constructor
    · rintro ⟨s, ⟨hloop, rfl⟩, hr⟩
      rw [exactMax, if_neg hsample] at hr
      simp only [Option.bind_eq_some_iff, checkedInt_eq_some] at hr
      obtain ⟨scaled, ⟨hscaled, rfl⟩, bound, ⟨hbound, rfl⟩, hr⟩ := hr
      refine ⟨⟨hloop, fun _ => ⟨hscaled, hbound⟩⟩, ?_⟩
      split_ifs at hr ⊢ <;> exact (Option.some.inj hr).symm
    · rintro ⟨⟨hloop, hthresholds⟩, rfl⟩
      obtain ⟨hscaled, hbound⟩ := hthresholds (by omega)
      refine ⟨_, ⟨hloop, rfl⟩, ?_⟩
      rw [exactMax, if_neg hsample]
      simp only [Option.bind_eq_some_iff, checkedInt_eq_some]
      refine ⟨_, ⟨hscaled, rfl⟩, _, ⟨hbound, rfl⟩, ?_⟩
      split_ifs <;> rfl

variable {ncPrimary : CommonNgramCache} {ngramsPrimary : List CommonNgram}
  {minSampleSizes minPercents : List Int}

theorem tryDraft_iff {i : ℕ} (hi : i ≤ ngramsPrimary.length) (hs : i ≤ minSampleSizes.length)
    (hp : i ≤ minPercents.length) :
    tryDraft ncPrimary ngramsPrimary partStatic minSampleSizes minPercents i = some r ↔
      DraftFits ncPrimary ngramsPrimary partStatic minSampleSizes minPercents i ∧
        r = exactTryDraft ncPrimary ngramsPrimary partStatic minSampleSizes minPercents i := by
  induction i with
  | zero =>
    unfold tryDraft DraftFits exactTryDraft
    rw [true_and, Option.some.injEq, eq_comm]
  | succ i ih =>
    have ih := ih (by omega) (by omega) (by omega)
    have hngram := List.getElem?_eq_getElem (l := ngramsPrimary) (i := i) (by omega)
    have hsample : minSampleSizes[i]? = some (minSampleSizes.getD i 0) := by
      simp [show i < minSampleSizes.length by omega]
    have hpercent : minPercents[i]? = some (minPercents.getD i 0) := by
      simp [show i < minPercents.length by omega]
    unfold tryDraft DraftFits exactTryDraft
    rw [hngram, Option.bind_eq_bind, Option.bind_some, Option.bind_some]
    rcases ncPrimary.lookup ngramsPrimary[i] with _ | part
    · rw [Option.elim_none, Option.elim_none, if_pos rfl]
      exact ih
    · rw [Option.elim_some, Option.elim_some]
      simp only [hsample, hpercent, Option.bind_eq_bind, Option.bind_some, Option.bind_eq_some_iff,
        draftFromPart_iff]
      by_cases hnull : exactChoice part partStatic (minSampleSizes.getD i 0)
          (minPercents.getD i 0) = nullToken
      · rw [if_pos hnull]
        constructor
        · rintro ⟨drafted, ⟨hfits, rfl⟩, hr⟩
          rw [if_pos hnull] at hr
          exact ⟨⟨hfits, fun _ => (ih.1 hr).1⟩, (ih.1 hr).2⟩
        · rintro ⟨⟨hfits, hrest⟩, rfl⟩
          exact ⟨_, ⟨hfits, rfl⟩, (if_pos hnull).trans (ih.2 ⟨hrest hnull, rfl⟩)⟩
      · rw [if_neg hnull]
        constructor
        · rintro ⟨drafted, ⟨hfits, rfl⟩, hr⟩
          rw [if_neg hnull] at hr
          exact ⟨⟨hfits, fun h => absurd h hnull⟩, (Option.some.inj hr).symm⟩
        · rintro ⟨⟨hfits, -⟩, rfl⟩
          exact ⟨_, ⟨hfits, rfl⟩, if_neg hnull⟩

/-- The token is one of the counts of the `i`-th n-gram, with the greatest score, and the sample and
its share in it are large enough. -/
def Maximises (ncPrimary : CommonNgramCache) (ngramsPrimary : List CommonNgram)
    (partStatic : CommonNgramCachePart) (minSampleSizes minPercents : List Int) (i : ℕ)
    (token : Int32) : Prop :=
  ∃ part best, (ngramsPrimary[i]?).bind ncPrimary.lookup = some part ∧ best ∈ part.entries ∧
    best.1 = token ∧ (∀ tokenCount ∈ part.entries,
      score partStatic tokenCount ≤ score partStatic best) ∧
    minSampleSizes.getD i 0 ≤ total part.entries ∧
    minPercents.getD i 0 * total part.entries ≤ 100 * count best

theorem maximises_of_exactTryDraft : ∀ {i : ℕ},
    exactTryDraft ncPrimary ngramsPrimary partStatic minSampleSizes minPercents i ≠ nullToken →
      ∃ j < i, Maximises ncPrimary ngramsPrimary partStatic minSampleSizes minPercents j
        (exactTryDraft ncPrimary ngramsPrimary partStatic minSampleSizes minPercents i)
  | 0, h => absurd rfl h
  | i + 1, h => by
    unfold exactTryDraft at h ⊢
    dsimp only at h ⊢
    split_ifs at h ⊢ with hnull
    · obtain ⟨j, hj, hmax⟩ := maximises_of_exactTryDraft h
      exact ⟨j, by omega, hmax⟩
    · refine ⟨i, by omega, ?_⟩
      rcases hpart : (ngramsPrimary[i]?).bind ncPrimary.lookup with _ | part
      · rw [hpart] at h
        exact absurd rfl h
      · rw [hpart, Option.elim_some] at h
        rw [Option.elim_some]
        unfold exactChoice at h ⊢
        dsimp only at h ⊢
        split_ifs at h ⊢ with hsample hshare
        · exact absurd rfl h
        · exact absurd rfl h
        · rcases hbest : firstMax (score partStatic) part.entries with _ | best
          · rw [hbest] at h
            exact absurd rfl h
          · obtain ⟨hmem, hmax, -⟩ := firstMax_eq_some hbest
            rw [hbest, Option.elim_some] at hshare
            exact ⟨part, best, hpart, hmem, rfl, hmax, by omega, by omega⟩

end Choice

/-! ## The static cache alone -/

/-- The state of the loop over the static counts as one over primary counts without static ones. -/
def StaticMax.primary (s : StaticMax) : PrimaryMax where
  maxCountPrimary := s.maxCountStatic
  maxCountStatic := if s.maxCountStatic = 0 then 0 else 1
  sumCountPrimary := s.sumCountStatic
  maxToken := s.maxToken

theorem next_primary {s : StaticMax} (hpos : 0 ≤ s.maxCountStatic) (hfits : Fits s.maxCountStatic)
    (tokenCount : TokenCount) :
    s.primary.next ∅ tokenCount = (s.next tokenCount).map StaticMax.primary := by
  have hmax : checkedInt (s.maxCountStatic * (if s.maxCountStatic = 0 then 0 else 1)) =
      some s.maxCountStatic := by
    rw [checkedInt_eq_some]
    split_ifs with h
    · simp [h, Fits]
    · rw [Int.mul_one]
      exact ⟨hfits, rfl⟩
  have hweight : countStatic ∅ tokenCount.1 = some 1 := rfl
  have hcount : checkedInt (tokenCount.2.toInt * 1) = some tokenCount.2.toInt := by
    rw [Int.mul_one, checkedInt_eq_some]
    exact ⟨⟨tokenCount.2.le_toInt, tokenCount.2.toInt_lt⟩, rfl⟩
  unfold PrimaryMax.next StaticMax.next
  simp only [hweight, StaticMax.primary, hmax, Option.bind_eq_bind, Option.bind_some, hcount]
  rcases checkedInt (s.sumCountStatic + tokenCount.2.toInt) with _ | sum
  · rfl
  · rw [Option.bind_some, Option.bind_some]
    refine congrArg some ?_
    by_cases h : tokenCount.2.toInt > s.maxCountStatic
    · rw [if_pos h, if_pos h, StaticMax.primary, if_neg (by dsimp only; omega)]
    · rw [if_neg h, if_neg h, StaticMax.primary]

theorem fits_next {s s' : StaticMax} {tokenCount : TokenCount} (hpos : 0 ≤ s.maxCountStatic)
    (hfits : Fits s.maxCountStatic) (h : s.next tokenCount = some s') :
    0 ≤ s'.maxCountStatic ∧ Fits s'.maxCountStatic := by
  unfold StaticMax.next at h
  simp only [Option.bind_eq_bind, Option.bind_eq_some_iff] at h
  obtain ⟨sum, -, h⟩ := h
  obtain rfl := Option.some.inj h
  split_ifs with hgt
  · exact ⟨by dsimp only; omega, tokenCount.2.le_toInt, tokenCount.2.toInt_lt⟩
  · exact ⟨hpos, hfits⟩

theorem foldlM_primary (counts : List TokenCount) {s : StaticMax} (hpos : 0 ≤ s.maxCountStatic)
    (hfits : Fits s.maxCountStatic) : counts.foldlM (PrimaryMax.next ∅) s.primary =
      (counts.foldlM StaticMax.next s).map StaticMax.primary := by
  induction counts generalizing s with
  | nil => rfl
  | cons tokenCount counts ih =>
    rw [List.foldlM_cons, List.foldlM_cons, next_primary hpos hfits]
    rcases h : s.next tokenCount with _ | s'
    · rfl
    · obtain ⟨hpos', hfits'⟩ := fits_next hpos hfits h
      exact ih hpos' hfits'

/-- The static counts draft as primary counts without static ones would. -/
theorem tryDraftStatic_eq (ncStatic : CommonNgramCache) (ngramStatic : CommonNgram) :
    tryDraftStatic ncStatic ngramStatic = (ncStatic.lookup ngramStatic).elim (some nullToken)
      fun part => draftFromPart part ∅ 2 50 := by
  unfold tryDraftStatic draftFromPart
  rcases ncStatic.lookup ngramStatic with _ | part
  · rfl
  · have hfold := foldlM_primary part.entries (s := {}) le_rfl ⟨by decide, by decide⟩
    have hinit : StaticMax.primary {} = {} := rfl
    rw [hinit] at hfold
    rw [Option.elim_some, hfold]
    dsimp only
    rcases part.entries.foldlM StaticMax.next {} with _ | s <;> rfl

/-- What the counts of the n-gram in the static cache draft. -/
def exactTryDraftStatic (ncStatic : CommonNgramCache) (ngramStatic : CommonNgram) : Int32 :=
  (ncStatic.lookup ngramStatic).elim nullToken fun part => exactChoice part ∅ 2 50

/-- The sums of the static counts, and what they are compared by. -/
def StaticFits (ncStatic : CommonNgramCache) (ngramStatic : CommonNgram) : Prop :=
  ∀ part, ncStatic.lookup ngramStatic = some part → PartFits part ∅ 2 50

/-! ## The choice -/

/-- The drafts are those of unbounded integers, where a token has the greatest score, just when
the numbers that are computed fit an `int`. -/
theorem tryDraft_exact_iff {ncPrimary ncStatic : CommonNgramCache}
    {ngramsPrimary : List CommonNgram} {ngramStatic : CommonNgram}
    {partStatic : CommonNgramCachePart} {minSampleSizes minPercents : List Int}
    (hs : ngramsPrimary.length ≤ minSampleSizes.length)
    (hp : ngramsPrimary.length ≤ minPercents.length) :
    (tryDraft ncPrimary ngramsPrimary partStatic minSampleSizes minPercents ngramsPrimary.length =
        some (exactTryDraft ncPrimary ngramsPrimary partStatic minSampleSizes minPercents
          ngramsPrimary.length) ↔
      DraftFits ncPrimary ngramsPrimary partStatic minSampleSizes minPercents
        ngramsPrimary.length) ∧
    (exactTryDraft ncPrimary ngramsPrimary partStatic minSampleSizes minPercents
        ngramsPrimary.length ≠ nullToken →
      ∃ i < ngramsPrimary.length, Maximises ncPrimary ngramsPrimary partStatic minSampleSizes
        minPercents i (exactTryDraft ncPrimary ngramsPrimary partStatic minSampleSizes minPercents
          ngramsPrimary.length)) ∧
    (tryDraftStatic ncStatic ngramStatic = some (exactTryDraftStatic ncStatic ngramStatic) ↔
      StaticFits ncStatic ngramStatic) := by
  refine ⟨?_, maximises_of_exactTryDraft, ?_⟩
  · rw [tryDraft_iff le_rfl hs hp, and_iff_left rfl]
  · rw [tryDraftStatic_eq, exactTryDraftStatic, StaticFits]
    rcases ncStatic.lookup ngramStatic with _ | part
    · simp
    · rw [Option.elim_some, Option.elim_some, draftFromPart_iff, and_iff_left rfl]
      simp

/-- The n-gram of the token 5. -/
def fiveNgram : CommonNgram := .ofInput [5] 1

/-- A static count whose hundredfold overflows. -/
theorem not_tryDraft_exact : ¬ ∀ (ncPrimary : CommonNgramCache) (ngramsPrimary : List CommonNgram)
    (partStatic : CommonNgramCachePart),
    ngramsPrimary.length ≤ llamaNgramMax → tryDraft ncPrimary ngramsPrimary partStatic
      draftMinSampleSizeLax draftMinPercentLax ngramsPrimary.length =
        some (exactTryDraft ncPrimary ngramsPrimary partStatic draftMinSampleSizeLax
          draftMinPercentLax ngramsPrimary.length) := by
  intro h
  have hdraft := h (AList.singleton fiveNgram (AList.singleton 7 2)) [fiveNgram]
    (AList.singleton 7 21474837) (by decide)
  have hnone : tryDraft (AList.singleton fiveNgram (AList.singleton 7 2)) [fiveNgram]
      (AList.singleton 7 21474837) draftMinSampleSizeLax draftMinPercentLax
        [fiveNgram].length = none := by
    decide
  rw [hnone] at hdraft
  exact Option.some_ne_none _ hdraft.symm

theorem tryDraft_exact_iff_five :
    [fiveNgram].length ≤ draftMinSampleSizeLax.length ∧
      [fiveNgram].length ≤ draftMinPercentLax.length ∧
      (tryDraft ∅ [fiveNgram] ∅ draftMinSampleSizeLax draftMinPercentLax [fiveNgram].length =
        some (exactTryDraft ∅ [fiveNgram] ∅ draftMinSampleSizeLax draftMinPercentLax
          [fiveNgram].length) ↔
        DraftFits ∅ [fiveNgram] ∅ draftMinSampleSizeLax draftMinPercentLax
          [fiveNgram].length) := by
  have hs : [fiveNgram].length ≤ draftMinSampleSizeLax.length := by decide
  have hp : [fiveNgram].length ≤ draftMinPercentLax.length := by decide
  have h := @tryDraft_exact_iff ∅ ∅ [fiveNgram] fiveNgram ∅ draftMinSampleSizeLax
    draftMinPercentLax hs hp
  exact ⟨hs, hp, h.1⟩

end Ngram

end LamaServer
