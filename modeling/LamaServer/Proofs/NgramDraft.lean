import LamaServer.NgramCache

/-!
# The n-grams of a draft

Which indices are read for an n-gram. The start of an n-gram is computed from the sizes of the input
and of the draft in `int` and `size_t`, and is right as long as the n-gram is no longer than the
input and the sizes fit an `int`.
-/

namespace LamaServer

namespace Ngram

variable {inp draft : List Int32} {nDraft : Int} {ngramMin ngramMax ngramSize : ℕ} {nc : Caches}
  {first : Int32}

/-! ## Machine integers -/

theorem checkedInt_eq {n : Int} (h : -2 ^ 31 ≤ n) (h' : n < 2 ^ 31) : checkedInt n = some n :=
  if_pos ⟨h, h'⟩

theorem toInt_eq {n : Int} (h : -2 ^ 31 ≤ n) (h' : n < 2 ^ 31) : toInt n = n := by
  unfold toInt
  exact Int.bmod_eq_of_le (by omega) (by omega)

theorem toSizeT_eq {n : ℕ} (h : n < 2 ^ 64) : toSizeT n = n := by
  unfold toSizeT
  omega

/-! ## Reading an n-gram -/

/-- The input, and the tokens that were drafted. -/
def soFar (inp draft : List Int32) : List Int32 := inp ++ draft.tail

/-- The n-gram of so many tokens is read from the indices of the last tokens, which are all in the
input or in the draft. -/
structure ReadsLast (inp draft : List Int32) (ngramSize : ℕ) : Prop where
  indices : ngramIndices (toInt inp.length) draft.length ngramSize =
    some (List.range' ((soFar inp draft).length - ngramSize) ngramSize)
  inside : ∀ i ∈ List.range' ((soFar inp draft).length - ngramSize) ngramSize,
    i < inp.length ∨ toSizeT (1 + i - inp.length) < draft.length
  ngram : readNgram inp draft ngramSize =
    some (.ofInput ((soFar inp draft).drop ((soFar inp draft).length - ngramSize)) ngramSize)

theorem length_soFar (inp : List Int32) (h : draft ≠ []) :
    (soFar inp draft).length + 1 = inp.length + draft.length := by
  have := List.length_pos_of_ne_nil h
  simp only [soFar, List.length_append, List.length_tail]
  omega

theorem getToken_eq {i : ℕ} (hi : i < 2 ^ 63) : getToken inp draft i = (soFar inp draft)[i]? := by
  unfold getToken soFar
  split_ifs with h
  · rw [List.getElem?_append_left h]
  · rw [List.getElem?_append_right (by omega), List.getElem?_tail,
      show (1 + i - inp.length : Int) = (i - inp.length + 1 : ℕ) by omega, toSizeT_eq (by omega)]

theorem mapM_getElem? {α : Type*} {f : ℕ → Option α} {l : List α} : ∀ {n i : ℕ},
    i + n = l.length → (∀ j < l.length, f j = l[j]?) →
      (List.range' i n).mapM f = some (l.drop i)
  | 0, i, hn, _ => by
    rw [List.drop_eq_nil_of_le (by omega)]
    rfl
  | n + 1, i, hn, hf => by
    have hi : i < l.length := by omega
    rw [List.range'_succ, List.mapM_cons, hf i hi, mapM_getElem? (by omega) hf,
      List.getElem?_eq_getElem hi, List.drop_eq_getElem_cons hi]
    rfl

/-- The start of an n-gram that is in the tokens so far, whose number fits an `int`. -/
theorem ngramIndices_eq {n : ℕ} (hd : draft ≠ []) (hinp : inp.length < 2 ^ 31)
    (hlen : (soFar inp draft).length < 2 ^ 31) (hle : n ≤ (soFar inp draft).length) :
    ngramIndices (toInt inp.length) draft.length n =
      some (List.range' ((soFar inp draft).length - n) n) := by
  have hsum := length_soFar inp hd
  have hstart : (inp.length - n + draft.length - 1 : Int) =
      ((soFar inp draft).length - n : ℕ) := by omega
  have hsize : toInt inp.length = inp.length := toInt_eq (by omega) (by omega)
  unfold ngramIndices
  rw [hsize, hstart, toSizeT_eq (by omega), toInt_eq (by omega) (by omega)]
  dsimp only
  rw [checkedInt_eq (by omega) (by omega)]
  refine congrArg some (List.ext_getElem (by simp) fun j hj hj' => ?_)
  rw [List.length_range'] at hj'
  rw [List.getElem_map, List.getElem_range, List.getElem_range', Nat.one_mul, ← Nat.cast_add,
    toSizeT_eq (by omega)]

theorem readsLast {n : ℕ} (hd : draft ≠ []) (hinp : inp.length < 2 ^ 31)
    (hlen : (soFar inp draft).length < 2 ^ 31) (hle : n ≤ (soFar inp draft).length) :
    ReadsLast inp draft n := by
  have hsum := length_soFar inp hd
  have hindices := ngramIndices_eq hd hinp hlen hle
  refine ⟨hindices, fun i hi => ?_, ?_⟩
  · rw [List.mem_range'_1] at hi
    by_cases h : i < inp.length
    · exact .inl h
    · rw [show (1 + i - inp.length : Int) = (1 + i - inp.length : ℕ) by omega,
        toSizeT_eq (by omega)]
      exact .inr (by omega)
  · have htokens := mapM_getElem? (f := getToken inp draft) (l := soFar inp draft)
      (Nat.sub_add_cancel hle) fun j hj => getToken_eq (by omega)
    unfold readNgram
    rw [hindices, Option.bind_eq_bind, Option.bind_some, htokens]
    rfl

/-! ## Drafts that are reached -/

/-- The drafts that the loop comes to, with any first token. -/
inductive Reaches (nc : Caches) (inp : List Int32) (nDraft : Int) (ngramMin ngramMax : ℕ)
    (first : Int32) : List Int32 → Prop
  | start : llamaNgramStatic ≤ toInt inp.length →
    Reaches nc inp nDraft ngramMin ngramMax first [first]
  | next {draft : List Int32} {drafted : Int32} :
    Reaches nc inp nDraft ngramMin ngramMax first draft → drafting nDraft draft = some true →
    draftToken nc inp ngramMin ngramMax draft = some drafted → drafted ≠ nullToken →
    Reaches nc inp nDraft ngramMin ngramMax first (draft ++ [drafted])

theorem reaches_of_draftLoop {n : ℕ} {d : List Int32}
    (hr : Reaches nc inp nDraft ngramMin ngramMax first draft)
    (h : draftLoop nc inp nDraft ngramMin ngramMax n draft = some d) :
    Reaches nc inp nDraft ngramMin ngramMax first d := by
  induction n generalizing draft with
  | zero => cases h
  | succ n ih =>
    unfold draftLoop at h
    rcases hd : drafting nDraft draft with _ | _ | _
    · simp [hd] at h
    · simp only [hd, Option.bind_eq_bind, Option.bind_some, Bool.false_eq_true, if_false,
        Option.pure_def, Option.some.injEq] at h
      exact h ▸ hr
    · rcases ht : draftToken nc inp ngramMin ngramMax draft with _ | drafted
      · simp [hd, ht] at h
      · simp only [hd, ht, Option.bind_eq_bind, Option.bind_some, if_true] at h
        split_ifs at h with hnull
        · cases h
          exact hr
        · exact ih (hr.next hd ht hnull) h

/-- What `common_ngram_cache_draft` leaves is reached, unless the input is too short to draft. -/
theorem reaches_of_draft {d : List Int32} (hinp : llamaNgramStatic ≤ toInt inp.length)
    (h : Ngram.draft nc inp [first] nDraft ngramMin ngramMax = some d) :
    Reaches nc inp nDraft ngramMin ngramMax first d := by
  unfold Ngram.draft at h
  rw [if_neg (by simp), if_neg (by omega)] at h
  exact reaches_of_draftLoop (.start hinp) h

/-- In any draft that is continued, from any caches, the n-grams that are looked up are those of the
last tokens. -/
def DraftsInRange (inp : List Int32) (nDraft : Int) (ngramMin ngramMax : ℕ) : Prop :=
  ∀ nc first draft, Reaches nc inp nDraft ngramMin ngramMax first draft →
    drafting nDraft draft = some true → ∀ n, n = llamaNgramStatic ∨ ngramMin ≤ n ∧ n ≤ ngramMax →
      ReadsLast inp draft n

theorem drafting_eq (h : draft ≠ []) (hlen : draft.length < 2 ^ 31) :
    drafting nDraft draft = some (decide ((draft.length : Int) - 1 < nDraft)) := by
  have := List.length_pos_of_ne_nil h
  unfold drafting
  rw [toInt_eq (by omega) (by omega), checkedInt_eq (by omega) (by omega)]
  rfl

/-- A draft has its first token, and at most as many as asked for behind it. -/
theorem Reaches.length_le (h : Reaches nc inp nDraft ngramMin ngramMax first draft)
    (hn : nDraft < 2 ^ 31 - 1) : draft ≠ [] ∧ (draft.length : Int) ≤ max nDraft 0 + 1 := by
  induction h with
  | start => simp
  | @next draft drafted _ hd _ _ ih =>
    obtain ⟨hne, hle⟩ := ih
    rw [drafting_eq hne (by omega)] at hd
    have hlt : (draft.length : Int) - 1 < nDraft := by simpa using hd
    refine ⟨by simp, ?_⟩
    rw [List.length_append, List.length_singleton]
    omega

theorem Reaches.le_toInt (h : Reaches nc inp nDraft ngramMin ngramMax first draft) :
    llamaNgramStatic ≤ toInt inp.length := by
  induction h with
  | start h => exact h
  | next _ _ _ _ ih => exact ih

theorem toInt_le (n : ℕ) : toInt n ≤ n := by
  unfold toInt Int.bmod
  dsimp only
  split_ifs <;> omega

theorem draftsInRange_of_fits (hmax : ngramMax ≤ inp.length)
    (hfits : inp.length + nDraft ≤ 2 ^ 31) : DraftsInRange inp nDraft ngramMin ngramMax := by
  intro nc first draft hr hd n hn
  have hinp : (2 : Int) ≤ inp.length := hr.le_toInt.trans (toInt_le _)
  obtain ⟨hne, hle⟩ := hr.length_le (by omega)
  rw [drafting_eq hne (by omega)] at hd
  have hlt : (draft.length : Int) - 1 < nDraft := by simpa using hd
  have hsum := length_soFar inp hne
  have hpos := List.length_pos_of_ne_nil hne
  have hn' : n ≤ inp.length := by
    rcases hn with rfl | hn
    · exact_mod_cast hinp
    · omega
  exact readsLast hne (by omega) (by omega) (by omega)

/-! ## Caches that always draft -/

/-- A cache with one part for some n-grams. -/
def cacheOf (part : CommonNgramCachePart) (ngrams : List CommonNgram) : CommonNgramCache :=
  ngrams.foldr (fun ngram cache => cache.insert ngram part) ∅

theorem lookup_cacheOf (part : CommonNgramCachePart) (ngrams : List CommonNgram)
    (ngram : CommonNgram) :
    (cacheOf part ngrams).lookup ngram = if ngram ∈ ngrams then some part else none := by
  induction ngrams with
  | nil => rfl
  | cons k ngrams ih =>
    unfold cacheOf at ih ⊢
    rw [List.foldr_cons]
    by_cases h : ngram = k
    · rw [h, AList.lookup_insert, if_pos List.mem_cons_self]
    · rw [AList.lookup_insert_ne h, ih]
      simp [h]

/-- The token 0, seen twice. -/
def zeroPart : CommonNgramCachePart := AList.singleton 0 2

theorem draftFromPart_zeroPart : ∀ i < 4, ∃ minSampleSize minPercent,
    draftMinSampleSizeLax[i]? = some minSampleSize ∧ draftMinPercentLax[i]? = some minPercent ∧
      draftFromPart zeroPart ∅ minSampleSize minPercent = some 0
  | 0, _ => ⟨2, 66, rfl, rfl, by decide⟩
  | 1, _ => ⟨2, 50, rfl, rfl, by decide⟩
  | 2, _ => ⟨1, 50, rfl, rfl, by decide⟩
  | 3, _ => ⟨1, 50, rfl, rfl, by decide⟩

/-- Where the first n-gram is in the cache, one of them drafts the token. -/
theorem tryDraft_zeroPart {ngrams keys : List CommonNgram} (hlen : ngrams.length ≤ 4)
    (hfirst : ∀ ngram, ngrams[0]? = some ngram → ngram ∈ keys) {i : ℕ} (hpos : 0 < i)
    (hi : i ≤ ngrams.length) : tryDraft (cacheOf zeroPart keys) ngrams ∅ draftMinSampleSizeLax
      draftMinPercentLax i = some 0 := by
  induction i with
  | zero => omega
  | succ i ih =>
    obtain ⟨minSampleSize, minPercent, hs, hp, hzero⟩ := draftFromPart_zeroPart i (by omega)
    have hget := List.getElem?_eq_getElem (l := ngrams) (i := i) (by omega)
    unfold tryDraft
    rw [hget, Option.bind_eq_bind, Option.bind_some, lookup_cacheOf]
    by_cases hmem : ngrams[i] ∈ keys
    · simp only [if_pos hmem, hs, hp, Option.bind_eq_bind, Option.bind_some, hzero]
      rw [if_neg (by decide)]
      rfl
    · rcases i with _ | i
      · exact absurd (hfirst _ hget) hmem
      · rw [if_neg hmem]
        exact ih (by omega) (by omega)

theorem mapM_eq_map {α β : Type*} {f : α → Option β} {g : α → β} {l : List α}
    (h : ∀ a ∈ l, f a = some (g a)) : l.mapM f = some (l.map g) := by
  induction l with
  | nil => rfl
  | cons a l ih =>
    rw [List.mapM_cons, h a List.mem_cons_self, ih fun b hb => h b (List.mem_cons_of_mem a hb)]
    rfl

/-- The last tokens so far as an n-gram. -/
def lastNgram (inp draft : List Int32) (n : ℕ) : CommonNgram :=
  .ofInput ((soFar inp draft).drop ((soFar inp draft).length - n)) n

theorem draftToken_zeroPart {keys : List CommonNgram} (hle : ngramMin ≤ ngramMax)
    (hpos : 1 ≤ ngramMin) (hfour : ngramMax ≤ 4)
    (hread : ∀ n, n = llamaNgramStatic ∨ ngramMin ≤ n ∧ n ≤ ngramMax → ReadsLast inp draft n)
    (hkey : lastNgram inp draft ngramMin ∈ keys) :
    draftToken ⟨cacheOf zeroPart keys, ∅, ∅⟩ inp ngramMin ngramMax draft = some 0 := by
  have hngrams : (List.range' ngramMin (ngramMax + 1 - ngramMin)).mapM (readNgram inp draft) =
      some ((List.range' ngramMin (ngramMax + 1 - ngramMin)).map (lastNgram inp draft)) :=
    mapM_eq_map fun n hn => (hread n (.inr (by rw [List.mem_range'_1] at hn; omega))).ngram
  let ngrams := (List.range' ngramMin (ngramMax + 1 - ngramMin)).map (lastNgram inp draft)
  have hdraft : tryDraft (cacheOf zeroPart keys) ngrams ∅ draftMinSampleSizeLax
      draftMinPercentLax ngrams.length = some 0 :=
    tryDraft_zeroPart (by simp [ngrams]; omega) (fun ngram h => by
      rw [List.getElem?_map, List.getElem?_range' (by omega)] at h
      simpa [← Option.some.inj h] using hkey) (by simp [ngrams]; omega) le_rfl
  unfold draftToken
  rw [(hread _ (.inl rfl)).ngram, Option.bind_eq_bind, Option.bind_some]
  dsimp only
  rw [AList.lookup_empty, Option.getD_none, hngrams, Option.bind_eq_bind, Option.bind_some, hdraft]
  rfl

/-- The draft of so many tokens 0. -/
def zeros (n : ℕ) : List Int32 := List.replicate (n + 1) 0

/-- A cache with which so many tokens 0 are drafted, as long as the sizes fit. -/
def zeroCaches (inp : List Int32) (ngramMin k : ℕ) : Caches where
  ncContext := cacheOf zeroPart ((List.range k).map fun n => lastNgram inp (zeros n) ngramMin)
  ncDynamic := ∅
  ncStatic := ∅

theorem reaches_zeros (nDraft : Int) (hle : ngramMin ≤ ngramMax) (hpos : 1 ≤ ngramMin) (hfour : ngramMax ≤ 4)
    (hmax : ngramMax ≤ inp.length) (hinp : llamaNgramStatic ≤ toInt inp.length) {k : ℕ}
    (hlt : inp.length < 2 ^ 31) (hfits : inp.length + k ≤ 2 ^ 31) (hk : k ≤ nDraft) {n : ℕ}
    (hn : n ≤ k) :
    Reaches (zeroCaches inp ngramMin k) inp nDraft ngramMin ngramMax 0 (zeros n) := by
  have htwo : (2 : Int) ≤ inp.length := hinp.trans (toInt_le _)
  induction n with
  | zero => exact .start hinp
  | succ n ih =>
    have hlen : (zeros n).length = n + 1 := List.length_replicate
    have hne : zeros n ≠ [] := List.cons_ne_nil _ _
    have hsum := length_soFar inp hne
    have hdrafting : drafting nDraft (zeros n) = some true := by
      rw [drafting_eq hne (by omega), hlen]
      simp
      omega
    have htoken : draftToken (zeroCaches inp ngramMin k) inp ngramMin ngramMax (zeros n) = some 0 :=
      draftToken_zeroPart hle hpos hfour (fun m hm => readsLast hne (by omega) (by omega) (by
        rcases hm with rfl | hm
        · have : llamaNgramStatic = 2 := rfl
          omega
        · omega))
      (List.mem_map_of_mem (List.mem_range.2 (by omega)))
    have hnext := (ih (by omega)).next hdrafting htoken (by decide)
    rwa [zeros, ← List.replicate_succ'] at hnext

theorem toInt_toSizeT {n : Int} (h : -2 ^ 31 ≤ n) (h' : n < 2 ^ 31) : toInt (toSizeT n) = n := by
  unfold toInt toSizeT Int.bmod
  dsimp only
  split_ifs <;> omega

/-- Where an n-gram starts and ends if its indices are in a row. -/
theorem of_ngramIndices (start : Int) {inpSize : Int} {draftSize n i : ℕ} (hn : 0 < n)
    (hstart : inpSize - n + draftSize - 1 = start) (hge : -2 ^ 31 ≤ start) (hlt : start < 2 ^ 31)
    (h : ngramIndices inpSize draftSize n = some (List.range' i n)) :
    toSizeT start = i ∧ start + n < 2 ^ 31 := by
  unfold ngramIndices at h
  rw [hstart, toInt_toSizeT hge hlt] at h
  dsimp only at h
  unfold checkedInt at h
  split_ifs at h with hfits
  · have hindices := congrArg (·[0]?) (Option.some.inj h)
    simp only [List.getElem?_map, List.getElem?_range hn, List.getElem?_range' hn] at hindices
    simp at hindices
    exact ⟨hindices, hfits.2⟩
  · cases h

/-- The first n-grams start at the right index only if the input is not too short or too long. -/
theorem le_length_of_draftsInRange (h : DraftsInRange inp nDraft ngramMin ngramMax)
    (hle : ngramMin ≤ ngramMax) (hpos : 1 ≤ ngramMin) (hfour : ngramMax ≤ 4) (hdraft : 0 < nDraft)
    (hinp : llamaNgramStatic ≤ toInt inp.length) :
    inp.length < 2 ^ 31 ∧ ngramMax ≤ inp.length := by
  have htwo : (2 : Int) ≤ toInt inp.length := hinp
  have hsize := toInt_le inp.length
  have hlt : toInt inp.length < 2 ^ 31 := by
    unfold toInt Int.bmod
    dsimp only
    split_ifs <;> omega
  have hdrafting : drafting nDraft [0] = some true := by
    rw [drafting_eq (by simp) (by simp)]
    simpa using hdraft
  have hread := h ⟨∅, ∅, ∅⟩ 0 [0] (.start hinp) hdrafting
  have hlen : (soFar inp [0]).length = inp.length := by simp [soFar]
  have hstatic := (of_ngramIndices (toInt inp.length - 2) (by decide)
    (by simp [llamaNgramStatic]) (by omega) (by omega) (hread _ (.inl rfl)).indices).1
  have heq : toInt inp.length = inp.length := by
    rw [hlen, show llamaNgramStatic = 2 from rfl] at hstatic
    unfold toSizeT at hstatic
    omega
  refine ⟨by omega, ?_⟩
  have hlongest := (of_ngramIndices (inp.length - ngramMax) (by omega)
    (by simp [heq]) (by omega) (by omega) (hread _ (.inr ⟨hle, le_rfl⟩)).indices).1
  rw [hlen] at hlongest
  unfold toSizeT at hlongest
  omega

/-- The n-grams of a draft are in range, and the last ones, just when nothing is drafted or the
input has as many tokens as the longest n-gram and its size, with that of the draft, fits an
`int`. -/
theorem draftsInRange_iff (hpos : 1 ≤ ngramMin) (hle : ngramMin ≤ ngramMax)
    (hfour : ngramMax ≤ llamaNgramMax) : DraftsInRange inp nDraft ngramMin ngramMax ↔
      nDraft ≤ 0 ∨ toInt inp.length < llamaNgramStatic ∨
        ngramMax ≤ inp.length ∧ inp.length + nDraft ≤ 2 ^ 31 := by
  constructor
  · intro h
    by_contra hnot
    simp only [not_or, not_and, not_le, not_lt] at hnot
    obtain ⟨hdraft, hinp, hlong⟩ := hnot
    have htwo : (2 : Int) ≤ inp.length := hinp.trans (toInt_le _)
    obtain ⟨hlt, hmax⟩ := le_length_of_draftsInRange h hle hpos hfour hdraft hinp
    have hlong := hlong hmax
    -- the draft at which the end of an n-gram no longer fits
    obtain ⟨k, hk⟩ : ∃ k, inp.length + k = 2 ^ 31 := ⟨2 ^ 31 - inp.length, by omega⟩
    have hreach := reaches_zeros nDraft hle hpos hfour hmax hinp hlt hk.le (by omega)
      le_rfl
    have hlen : (zeros k).length = k + 1 := List.length_replicate
    have hne : zeros k ≠ [] := List.cons_ne_nil _ _
    have hdrafting : drafting nDraft (zeros k) = some true := by
      rw [drafting_eq hne (by omega), hlen]
      simp
      omega
    have hread := (h _ _ _ hreach hdrafting _ (.inl rfl)).indices
    have hend := (of_ngramIndices (2 ^ 31 - 2) (by decide) (by
      rw [toInt_eq (by omega) (by omega), hlen, show llamaNgramStatic = 2 from rfl]
      push_cast
      omega) (by omega) (by omega) hread).2
    rw [show llamaNgramStatic = 2 from rfl] at hend
    omega
  · rintro (hdraft | hinp | ⟨hmax, hfits⟩)
    · intro nc first draft hr hd
      obtain ⟨hne, hlen⟩ := hr.length_le (by omega)
      have hpos := List.length_pos_of_ne_nil hne
      rw [drafting_eq hne (by omega)] at hd
      have hlt : (draft.length : Int) - 1 < nDraft := by simpa using hd
      omega
    · intro nc first draft hr
      have := hr.le_toInt
      omega
    · exact draftsInRange_of_fits hmax hfits

/-- An input of two tokens, and n-grams of up to four. -/
theorem not_draftsInRange : ¬ ∀ (inp : List Int32) (nDraft : Int) (ngramMin ngramMax : ℕ),
    llamaNgramStatic ≤ inp.length → 1 ≤ ngramMin → ngramMin ≤ ngramMax →
      ngramMax ≤ llamaNgramMax → DraftsInRange inp nDraft ngramMin ngramMax := by
  intro h
  have hread := h [5, 6] 1 1 4 (by decide) (by decide) (by decide) (by decide) ⟨∅, ∅, ∅⟩ 6 [6]
    (.start (by decide)) (by decide) 4 (.inr (by decide))
  have hindices := hread.indices
  revert hindices
  decide

theorem draftsInRange_four : (1 ≤ 1 ∧ 1 ≤ 4 ∧ 4 ≤ llamaNgramMax) ∧
    (DraftsInRange [5, 6, 7, 8] 16 1 4 ↔
      (16 : Int) ≤ 0 ∨ toInt ([5, 6, 7, 8] : List Int32).length < llamaNgramStatic ∨
        4 ≤ ([5, 6, 7, 8] : List Int32).length ∧
          ([5, 6, 7, 8] : List Int32).length + (16 : Int) ≤ 2 ^ 31) :=
  ⟨by decide, draftsInRange_iff (by decide) (by decide) (by decide)⟩

end Ngram

end LamaServer
