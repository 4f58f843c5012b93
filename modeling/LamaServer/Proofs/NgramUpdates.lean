import Mathlib.Data.Finmap
import Mathlib.Data.List.GetD
import LamaServer.Proofs.NgramCounts

/-!
# The counts of an updated cache

Each update counts the tokens that are new, once for each size of n-gram, so that a sequence that
comes in chunks is counted like one that comes whole.
-/

namespace LamaServer

namespace Ngram

/-! ## Counting tokens -/

/-- A cache with one count. -/
def oneCount (ngram : CommonNgram) (token : Int32) : CommonNgramCache :=
  AList.singleton ngram (AList.singleton token 1)

theorem countInPart_eq (part : CommonNgramCachePart) (token : Int32) :
    countInPart part token = mergePart part (AList.singleton token 1) := by
  unfold countInPart mergePart
  simp only [AList.singleton_entries, List.foldlM_cons, List.foldlM_nil, Option.bind_eq_bind]
  rw [if_neg (by decide)]
  rcases part.lookup token with _ | count
  · rfl
  · exact (Option.bind_fun_some _).symm

theorem countToken_eq (cache : CommonNgramCache) (ngram : CommonNgram) (token : Int32) :
    countToken cache ngram token = merge cache (oneCount ngram token) := by
  unfold countToken merge oneCount
  simp only [AList.singleton_entries, List.foldlM_cons, List.foldlM_nil, Option.bind_eq_bind,
    countInPart_eq]
  rcases cache.lookup ngram with _ | part
  · rfl
  · exact (Option.bind_fun_some _).symm

/-- A token behind an n-gram. -/
abbrev Event := CommonNgram × Int32

theorem seen_oneCount (event : Event) (ngram : CommonNgram) (token : Int32) :
    seen (oneCount event.1 event.2) ngram token = ([event].count (ngram, token) : ℕ) := by
  obtain ⟨ngram', token'⟩ := event
  unfold seen seenInPart oneCount AList.lookup
  rw [List.count_singleton]
  by_cases hngram : ngram = ngram'
  · subst hngram
    by_cases htoken : token = token'
    · subst htoken
      simp [AList.singleton, List.dlookup_cons_eq]
    · simp [AList.singleton, List.dlookup_cons_eq, List.dlookup_cons_ne _ ⟨token', 1⟩ htoken,
        Ne.symm htoken]
  · simp [AList.singleton, List.dlookup_cons_ne _ ⟨ngram', _⟩ hngram, Ne.symm hngram]

theorem counted_singleton {ngram : CommonNgram} {token count : Int32} (h : 0 < count.toInt) :
    Counted (AList.singleton ngram (AList.singleton token count)) := by
  intro ngram' part hpart
  have hmem := AList.mem_lookup_iff.1 hpart
  simp only [AList.singleton_entries, List.mem_singleton, Sigma.mk.injEq] at hmem
  obtain rfl := eq_of_heq hmem.2
  refine ⟨⟨token, AList.mem_keys.2 (by simp)⟩, fun {token' count'} hcount => ?_⟩
  have hmem := AList.mem_lookup_iff.1 hcount
  simp only [AList.singleton_entries, List.mem_singleton, Sigma.mk.injEq] at hmem
  exact eq_of_heq hmem.2 ▸ h

theorem counted_oneCount (ngram : CommonNgram) (token : Int32) :
    Counted (oneCount ngram token) := counted_singleton (by decide)

theorem counted_empty : Counted ∅ := nofun

def countTokens (cache : CommonNgramCache) (events : List Event) : Option CommonNgramCache :=
  events.foldlM (fun cache event => countToken cache event.1 event.2) cache

section Count

variable {cache result : CommonNgramCache} {events : List Event}

theorem count_cons (event : Event) (events : List Event) (ngram : CommonNgram) (token : Int32) :
    (event :: events).count (ngram, token) =
    [event].count (ngram, token) + events.count (ngram, token) := by
  rw [← List.count_append, List.singleton_append]

theorem seen_countTokens (hc : Counted cache) (h : countTokens cache events = some result) :
    Counted result ∧ ∀ ngram token,
      seen result ngram token = seen cache ngram token + events.count (ngram, token) := by
  induction events generalizing cache with
  | nil =>
    obtain rfl := Option.some.inj h
    exact ⟨hc, fun ngram token => by simp⟩
  | cons event events ih =>
    unfold countTokens at h
    rw [List.foldlM_cons] at h
    obtain ⟨next, hnext, h⟩ := Option.bind_eq_some_iff.1 h
    rw [countToken_eq] at hnext
    have hone := counted_oneCount event.1 event.2
    obtain ⟨hresult, hseen⟩ := ih (hc.merge hone hnext) h
    refine ⟨hresult, fun ngram token => ?_⟩
    rw [hseen, seen_merge hone hnext, seen_oneCount, count_cons _ events]
    omega

theorem isSome_countTokens (hc : Counted cache) : (countTokens cache events).isSome ↔
    ∀ ngram token, seen cache ngram token + events.count (ngram, token) < 2 ^ 31 := by
  induction events generalizing cache with
  | nil => simpa [countTokens] using fun _ _ => seen_lt
  | cons event events ih =>
    have hone := counted_oneCount event.1 event.2
    have hsome := isSome_merge hc hone
    simp only [seen_oneCount] at hsome
    unfold countTokens
    rw [List.foldlM_cons, countToken_eq]
    rcases hnext : merge cache (oneCount event.1 event.2) with _ | next
    · rw [hnext] at hsome
      refine ⟨nofun, fun h => absurd (hsome.2 fun ngram token => ?_) nofun⟩
      have hlt := h ngram token
      rw [count_cons _ events] at hlt
      omega
    · refine (ih (hc.merge hone hnext)).trans (forall₂_congr fun ngram token => ?_)
      rw [seen_merge hone hnext, seen_oneCount, count_cons _ events]
      omega

end Count

/-! ## The tokens that an update counts -/

section Events

variable {ngramSize ngramMin ngramMax i n : ℕ} {inp chunk : List Int32} {cache : CommonNgramCache}

/-- The tokens from position `i` on, behind the n-grams of a size. -/
def eventsFrom (inp : List Int32) (ngramSize i n : ℕ) : List Event :=
  (List.range' i n).map fun i =>
    (.ofInput (inp.drop (i - ngramSize)) ngramSize, inp.getD i nullToken)

/-- The tokens that `common_ngram_cache_update` counts. -/
def events (ngramMin ngramMax : ℕ) (inp : List Int32) (nnew : Int) : List Event :=
  (List.range' ngramMin (ngramMax + 1 - ngramMin)).flatMap fun (ngramSize : ℕ) =>
    let iStart := (max (inp.length - nnew) ngramSize).toNat
    eventsFrom inp ngramSize iStart (inp.length - iStart)

theorem updateFrom_eq : updateFrom inp ngramSize cache i (inp.length - i) =
    countTokens cache (eventsFrom inp ngramSize i (inp.length - i)) := by
  unfold updateFrom countTokens eventsFrom
  rw [List.foldlM_map]
  have hlt (j : ℕ) (hj : j ∈ List.range' i (inp.length - i)) : j < inp.length := by
    have := List.mem_range'_1.1 hj
    omega
  generalize List.range' i (inp.length - i) = js at hlt
  induction js generalizing cache with
  | nil => rfl
  | cons j js ih =>
    have hj : j < inp.length := hlt j List.mem_cons_self
    rw [List.foldlM_cons, List.foldlM_cons, List.getElem?_eq_getElem hj, List.getD_eq_getElem _ _ hj]
    refine bind_congr fun next => ih fun j hj => hlt j (List.mem_cons_of_mem _ hj)

theorem update_eq (cache : CommonNgramCache) (ngramMin ngramMax : ℕ) (inp : List Int32)
    (nnew : Int) :
    update cache ngramMin ngramMax inp nnew =
      countTokens cache (events ngramMin ngramMax inp nnew) := by
  unfold update events
  rw [funext₂ fun _ _ => updateFrom_eq]
  induction List.range' ngramMin (ngramMax + 1 - ngramMin) generalizing cache with
  | nil => rfl
  | cons ngramSize sizes ih =>
    unfold countTokens
    rw [List.foldlM_cons, List.flatMap_cons, List.foldlM_append]
    exact bind_congr ih

theorem ofInput_congr {a b : List Int32} (h : ∀ k < ngramSize, a[k]? = b[k]?) :
    CommonNgram.ofInput a ngramSize = .ofInput b ngramSize := by
  unfold CommonNgram.ofInput
  congr 1
  funext k
  split_ifs with hk
  · rw [List.getD_eq_getElem?_getD, List.getD_eq_getElem?_getD, h k hk]
  · rfl

/-- What is behind the n-grams of a longer sequence: first what was there before it grew. -/
theorem eventsFrom_append : eventsFrom (inp ++ chunk) ngramSize ngramSize
    ((inp ++ chunk).length - ngramSize) =
      eventsFrom inp ngramSize ngramSize (inp.length - ngramSize) ++
        eventsFrom (inp ++ chunk) ngramSize (max inp.length ngramSize)
          ((inp ++ chunk).length - max inp.length ngramSize) := by
  have hlen : (inp ++ chunk).length = inp.length + chunk.length := List.length_append
  have hrange : List.range' ngramSize ((inp ++ chunk).length - ngramSize) =
      List.range' ngramSize (inp.length - ngramSize) ++ List.range' (max inp.length ngramSize)
        ((inp ++ chunk).length - max inp.length ngramSize) := by
    rcases le_total inp.length ngramSize with hle | hle
    · rw [max_eq_right hle, Nat.sub_eq_zero_of_le hle]
      rfl
    · rw [max_eq_left hle]
      nth_rewrite 2 [show inp.length = ngramSize + (inp.length - ngramSize) by omega]
      rw [List.range'_append_1]
      congr 1
      omega
  unfold eventsFrom
  rw [hrange, List.map_append]
  congr 1
  refine List.map_congr_left fun j hj => ?_
  have hj := List.mem_range'_1.1 hj
  refine Prod.ext (ofInput_congr fun k hk => ?_) ?_
  · rw [List.getElem?_drop, List.getElem?_drop, List.getElem?_append_left (by omega)]
  · rw [List.getD_append _ _ _ _ (by omega)]

/-- The tokens of a whole sequence. -/
abbrev allEvents (ngramMin ngramMax : ℕ) (inp : List Int32) : List Event :=
  events ngramMin ngramMax inp inp.length

theorem allEvents_eq : allEvents ngramMin ngramMax inp =
    (List.range' ngramMin (ngramMax + 1 - ngramMin)).flatMap fun ngramSize =>
      eventsFrom inp ngramSize ngramSize (inp.length - ngramSize) := by
  simp [events]

/-- No position is skipped, and none is counted twice. -/
theorem count_allEvents_append (event : Event) :
    (allEvents ngramMin ngramMax (inp ++ chunk)).count event =
      (allEvents ngramMin ngramMax inp).count event +
        (events ngramMin ngramMax (inp ++ chunk) chunk.length).count event := by
  have hstart (ngramSize : ℕ) : (max (((inp ++ chunk).length : Int) - chunk.length)
      ngramSize).toNat = max inp.length ngramSize := by
    rw [List.length_append]
    omega
  rw [allEvents_eq, allEvents_eq]
  unfold events
  simp only [hstart, List.count_flatMap, Function.comp_def, eventsFrom_append, List.count_append,
    List.sum_map_add]

end Events

/-! ## Sequences that come in chunks -/

/-- An update after each chunk that is appended to a sequence. -/
def updateChunks (ngramMin ngramMax : ℕ) : List (List Int32) → List Int32 → CommonNgramCache →
    Option CommonNgramCache
  | [], _, cache => some cache
  | chunk :: chunks, inp, cache => do
    let cache ← update cache ngramMin ngramMax (inp ++ chunk) chunk.length
    updateChunks ngramMin ngramMax chunks (inp ++ chunk) cache

/-- The cache has counted a sequence. -/
structure HasCounted (ngramMin ngramMax : ℕ) (inp : List Int32) (cache : CommonNgramCache) :
    Prop where
  counted : Counted cache
  seen_eq : ∀ ngram token,
    seen cache ngram token = (allEvents ngramMin ngramMax inp).count (ngram, token)

section Chunks

variable {ngramMin ngramMax : ℕ} {inp chunk : List Int32} {chunks : List (List Int32)}
  {cache result : CommonNgramCache}

theorem hasCounted_nil : HasCounted ngramMin ngramMax [] ∅ where
  counted := counted_empty
  seen_eq ngram token := by
    have hempty : allEvents ngramMin ngramMax [] = [] := by
      simp [allEvents_eq, eventsFrom]
    rw [hempty]
    rfl

theorem HasCounted.update (h : HasCounted ngramMin ngramMax inp cache)
    (hr : update cache ngramMin ngramMax (inp ++ chunk) chunk.length = some result) :
    HasCounted ngramMin ngramMax (inp ++ chunk) result := by
  rw [update_eq] at hr
  obtain ⟨hcounted, hseen⟩ := seen_countTokens h.counted hr
  refine ⟨hcounted, fun ngram token => ?_⟩
  rw [hseen, h.seen_eq, count_allEvents_append, Nat.cast_add]

theorem HasCounted.isSome_update (h : HasCounted ngramMin ngramMax inp cache) :
    (Ngram.update cache ngramMin ngramMax (inp ++ chunk) chunk.length).isSome ↔
      ∀ event, (allEvents ngramMin ngramMax (inp ++ chunk)).count event < 2 ^ 31 := by
  rw [update_eq, isSome_countTokens h.counted, Prod.forall]
  refine forall₂_congr fun ngram token => ?_
  rw [h.seen_eq, count_allEvents_append]
  omega

theorem HasCounted.updateChunks (h : HasCounted ngramMin ngramMax inp cache)
    (hr : Ngram.updateChunks ngramMin ngramMax chunks inp cache = some result) :
    HasCounted ngramMin ngramMax (inp ++ chunks.flatten) result := by
  induction chunks generalizing inp cache with
  | nil =>
    obtain rfl := Option.some.inj hr
    simpa using h
  | cons chunk chunks ih =>
    obtain ⟨next, hnext, hr⟩ := Option.bind_eq_some_iff.1 hr
    rw [List.flatten_cons, ← List.append_assoc]
    exact ih (h.update hnext) hr

theorem HasCounted.isSome_updateChunks (h : HasCounted ngramMin ngramMax inp cache)
    (hlt : ∀ event, (allEvents ngramMin ngramMax (inp ++ chunks.flatten)).count event < 2 ^ 31) :
    (Ngram.updateChunks ngramMin ngramMax chunks inp cache).isSome := by
  induction chunks generalizing inp cache with
  | nil => rfl
  | cons chunk chunks ih =>
    rw [List.flatten_cons, ← List.append_assoc] at hlt
    have hfirst (event : Event) :
        (allEvents ngramMin ngramMax (inp ++ chunk)).count event < 2 ^ 31 := by
      have hlt := hlt event
      rw [count_allEvents_append] at hlt
      omega
    obtain ⟨next, hnext⟩ := Option.isSome_iff_exists.1 (h.isSome_update.2 hfirst)
    unfold Ngram.updateChunks
    rw [hnext, Option.bind_eq_bind, Option.bind_some]
    exact ih (h.update hnext) hlt

end Chunks

/-! ## Occurrences -/

/-- At how many positions of a sequence a word begins. -/
def occurrences (word inp : List Int32) : ℕ :=
  (List.range inp.length).countP fun j => word.isPrefixOf (inp.drop j)

section Occurrences

variable {ngramMin ngramMax ngramSize : ℕ} {g l inp : List Int32} {token : Int32}

theorem concat_prefix_iff : g ++ [token] <+: l ↔ g <+: l ∧ l[g.length]? = some token := by
  constructor
  · rintro ⟨rest, rfl⟩
    exact ⟨⟨[token] ++ rest, by simp⟩, by simp⟩
  · rintro ⟨⟨rest, rfl⟩, h⟩
    rw [List.getElem?_append_right le_rfl, Nat.sub_self] at h
    rcases rest with _ | ⟨x, rest⟩
    · simp at h
    · obtain rfl : x = token := by simpa using h
      exact ⟨rest, by simp⟩

theorem ofInput_eq_iff (hg : g.length ≤ llamaNgramMax) (hl : g.length ≤ l.length) :
    CommonNgram.ofInput l g.length = .ofInput g g.length ↔ g <+: l := by
  constructor
  · intro h
    rw [List.prefix_iff_getElem]
    refine ⟨hl, fun k hk => ?_⟩
    have heq := congrFun (congrArg CommonNgram.tokens h) ⟨k, by omega⟩
    simpa [CommonNgram.ofInput, hk, show k < l.length by omega] using heq.symm
  · rintro ⟨rest, rfl⟩
    exact ofInput_congr fun k hk => List.getElem?_append_left hk

/-- The n-grams of the size of a word are counted where the word begins. -/
theorem count_eventsFrom (hg : g.length ≤ llamaNgramMax) :
    (eventsFrom inp g.length g.length (inp.length - g.length)).count
      (.ofInput g g.length, token) = occurrences (g ++ [token]) inp := by
  unfold eventsFrom occurrences
  rw [List.count, List.countP_map, List.range'_eq_map_range, List.countP_map]
  have hlast : inp.length = (inp.length - g.length) + min g.length inp.length := by omega
  nth_rewrite 2 [hlast]
  rw [List.range_add, List.countP_append]
  have hzero : ((List.range (min g.length inp.length)).map (inp.length - g.length + ·)).countP
      (fun j => (g ++ [token]).isPrefixOf (inp.drop j)) = 0 := by
    rw [List.countP_eq_zero]
    intro j hj hprefix
    obtain ⟨k, hk, rfl⟩ := List.mem_map.1 hj
    have hle := (List.isPrefixOf_iff_prefix.1 hprefix).length_le
    have hk := List.mem_range.1 hk
    simp only [List.length_append, List.length_drop, List.length_singleton] at hle
    omega
  rw [hzero, add_zero]
  refine List.countP_congr fun j hj => ?_
  have hj : j + g.length < inp.length := by
    have := List.mem_range.1 hj
    omega
  have hlen : g.length ≤ (inp.drop j).length := by
    rw [List.length_drop]
    omega
  rw [Function.comp_apply, Function.comp_apply, Nat.add_sub_cancel_left, beq_iff_eq, Prod.mk.injEq,
    ofInput_eq_iff hg hlen, List.isPrefixOf_iff_prefix, concat_prefix_iff, List.getElem?_drop,
    List.getD_eq_getElem _ _ (by omega), List.getElem?_eq_getElem (by omega), Option.some.injEq]
  simp only [add_comm]

theorem mem_eventsFrom {event : Event} : event ∈ eventsFrom inp ngramSize ngramSize
    (inp.length - ngramSize) ↔ ∃ j, j + ngramSize < inp.length ∧
      (CommonNgram.ofInput (inp.drop j) ngramSize, inp.getD (j + ngramSize) nullToken) = event := by
  unfold eventsFrom
  simp only [List.mem_map, List.mem_range'_1]
  constructor
  · rintro ⟨i, hi, rfl⟩
    exact ⟨i - ngramSize, by omega, by rw [Nat.sub_add_cancel hi.1]⟩
  · rintro ⟨j, hj, rfl⟩
    exact ⟨j + ngramSize, by omega, by rw [Nat.add_sub_cancel]⟩

/-- A shorter n-gram has `LLAMA_TOKEN_NULL` where `g` has a token. -/
theorem ofInput_ne_of_lt (hg : g.length ≤ llamaNgramMax) (hnull : nullToken ∉ g)
    (hlt : ngramSize < g.length) : CommonNgram.ofInput l ngramSize ≠ .ofInput g g.length := by
  intro h
  have heq := congrFun (congrArg CommonNgram.tokens h) ⟨ngramSize, by omega⟩
  simp only [CommonNgram.ofInput, lt_irrefl, ↓reduceIte, hlt, List.getD_eq_getElem _ _ hlt] at heq
  exact hnull (heq ▸ List.getElem_mem hlt)

theorem ofInput_append_null :
    CommonNgram.ofInput (g ++ nullToken :: l) (g.length + 1) = .ofInput g g.length := by
  unfold CommonNgram.ofInput
  congr 1
  funext k
  rcases lt_trichotomy k.val g.length with hk | hk | hk
  · rw [if_pos (by omega), if_pos hk, List.getD_append _ _ _ _ hk]
  · simp [hk]
  · rw [if_neg (by omega), if_neg (by omega)]

/-- A longer n-gram that is taken for `g` goes on with `LLAMA_TOKEN_NULL`. -/
theorem prefix_of_ofInput_eq (hmax : ngramSize ≤ llamaNgramMax) (hlt : g.length < ngramSize)
    (hl : ngramSize ≤ l.length) (h : CommonNgram.ofInput l ngramSize = .ofInput g g.length) :
    g ++ [nullToken] <+: l := by
  have heq (k : ℕ) (hk : k < ngramSize) : l[k]? = some (if k < g.length then g.getD k nullToken
      else nullToken) := by
    have hkeys := congrFun (congrArg CommonNgram.tokens h) ⟨k, by omega⟩
    simp only [CommonNgram.ofInput, hk, ↓reduceIte] at hkeys
    rw [List.getElem?_eq_getElem (by omega), ← hkeys, List.getD_eq_getElem]
  rw [concat_prefix_iff, heq _ hlt, if_neg (lt_irrefl _), and_iff_left rfl,
    List.prefix_iff_getElem]
  refine ⟨by omega, fun k hk => ?_⟩
  have hkeys := heq k (by omega)
  rw [if_pos hk, List.getD_eq_getElem _ _ hk, List.getElem?_eq_getElem (by omega)] at hkeys
  exact (Option.some.inj hkeys).symm

end Occurrences

/-! ## What updating is to do -/

/-- A sequence is counted alike in all chunks, and the counts are those of the words in it. -/
def UpdatesExact (ngramMin ngramMax : ℕ) (inp : List Int32) : Prop :=
  ∀ chunks : List (List Int32), chunks.flatten = inp →
    ∃ cache whole, updateChunks ngramMin ngramMax chunks [] ∅ = some cache ∧
      update ∅ ngramMin ngramMax inp inp.length = some whole ∧ SameCache cache whole ∧
        ∀ g token, nullToken ∉ g → ngramMin ≤ g.length → g.length ≤ ngramMax →
          seen whole (.ofInput g g.length) token = occurrences (g ++ [token]) inp

/-- A longer n-gram of the sequence ends in `LLAMA_TOKEN_NULL`, so that it is taken for a
shorter one. -/
def Padded (ngramMin ngramMax : ℕ) (inp : List Int32) : Prop :=
  ngramMin < ngramMax ∧ ∃ g token, g.length = ngramMin ∧ nullToken ∉ g ∧
    g ++ [nullToken, token] <:+: inp

section Updates

variable {ngramMin ngramMax : ℕ} {g inp : List Int32} {token : Int32}

/-- The counts of an n-gram are those of the word and of the longer n-grams taken for it. -/
theorem count_allEvents (hmax : ngramMax ≤ llamaNgramMax) (hnull : nullToken ∉ g)
    (hmin : ngramMin ≤ g.length) (hg : g.length ≤ ngramMax) :
    (allEvents ngramMin ngramMax inp).count (.ofInput g g.length, token) =
      occurrences (g ++ [token]) inp +
        ((List.range' (g.length + 1) (ngramMax - g.length)).flatMap fun ngramSize =>
          eventsFrom inp ngramSize ngramSize (inp.length - ngramSize)).count
            (.ofInput g g.length, token) := by
  have hrange : List.range' ngramMin (ngramMax + 1 - ngramMin) =
      List.range' ngramMin (g.length - ngramMin) ++
        (g.length :: List.range' (g.length + 1) (ngramMax - g.length)) := by
    have happend := @List.range'_append_1 ngramMin (g.length - ngramMin) (ngramMax - g.length + 1)
    rw [Nat.add_sub_cancel' hmin, show g.length - ngramMin + (ngramMax - g.length + 1) =
      ngramMax + 1 - ngramMin by omega] at happend
    rw [← happend, List.range'_succ]
  have hshort : ((List.range' ngramMin (g.length - ngramMin)).flatMap fun ngramSize =>
      eventsFrom inp ngramSize ngramSize (inp.length - ngramSize)).count
        (.ofInput g g.length, token) = 0 := by
    rw [List.count_eq_zero, List.mem_flatMap]
    rintro ⟨ngramSize, hsize, hmem⟩
    obtain ⟨j, -, heq⟩ := mem_eventsFrom.1 hmem
    have hsize := List.mem_range'_1.1 hsize
    exact ofInput_ne_of_lt (hg.trans hmax) hnull (by omega) (Prod.ext_iff.1 heq).1
  rw [allEvents_eq, hrange, List.flatMap_append, List.flatMap_cons, List.count_append,
    List.count_append, hshort, zero_add, count_eventsFrom (hg.trans hmax)]

theorem seen_eq_occurrences (hmax : ngramMax ≤ llamaNgramMax)
    (hpadded : ¬ Padded ngramMin ngramMax inp) (hnull : nullToken ∉ g)
    (hmin : ngramMin ≤ g.length) (hg : g.length ≤ ngramMax) :
    (allEvents ngramMin ngramMax inp).count (.ofInput g g.length, token) =
      occurrences (g ++ [token]) inp := by
  rw [count_allEvents hmax hnull hmin hg, Nat.add_eq_left, List.count_eq_zero, List.mem_flatMap]
  rintro ⟨ngramSize, hsize, hmem⟩
  have hsize := List.mem_range'_1.1 hsize
  obtain ⟨j, hj, heq⟩ := mem_eventsFrom.1 hmem
  have hlen : (inp.drop j).length = inp.length - j := List.length_drop
  obtain ⟨rest, hrest⟩ := prefix_of_ofInput_eq (by omega) (by omega) (by omega)
    (Prod.ext_iff.1 heq).1
  rcases rest with _ | ⟨next, rest⟩
  · have := congrArg List.length hrest
    simp only [List.length_append, List.length_singleton, List.length_nil] at this
    omega
  refine hpadded ⟨by omega, g.drop (g.length - ngramMin), next, by rw [List.length_drop]; omega,
    fun h => hnull (List.mem_of_mem_drop h),
    inp.take j ++ g.take (g.length - ngramMin), rest, ?_⟩
  calc inp.take j ++ g.take (g.length - ngramMin) ++
        (g.drop (g.length - ngramMin) ++ [nullToken, next]) ++ rest
      = inp.take j ++ ((g.take (g.length - ngramMin) ++ g.drop (g.length - ngramMin)) ++
          [nullToken] ++ next :: rest) := by
        simp only [List.append_assoc, List.cons_append, List.nil_append]
    _ = inp := by rw [List.take_append_drop, hrest, List.take_append_drop]

theorem seen_ne_occurrences (hmax : ngramMax ≤ llamaNgramMax) (hlt : ngramMin < ngramMax)
    (hg : g.length = ngramMin) (hnull : nullToken ∉ g) (h : g ++ [nullToken, token] <:+: inp) :
    (allEvents ngramMin ngramMax inp).count (.ofInput g g.length, token) ≠
      occurrences (g ++ [token]) inp := by
  obtain ⟨front, rest, rfl⟩ := h
  rw [count_allEvents hmax hnull hg.ge (hg ▸ hlt.le), Ne, Nat.add_eq_left, List.count_eq_zero,
    not_not, List.mem_flatMap]
  refine ⟨g.length + 1, List.mem_range'_1.2 ⟨le_rfl, by omega⟩,
    mem_eventsFrom.2 ⟨front.length, ?_, Prod.ext ?_ ?_⟩⟩
  · simp only [List.length_append, List.length_cons, List.length_nil]
    omega
  · rw [List.append_assoc, List.drop_left, List.append_assoc]
    exact ofInput_append_null
  · simp [List.getD_eq_getElem?_getD]

/-- Updating counts exactly if and only if no count leaves `int` and no n-gram ends in
`LLAMA_TOKEN_NULL`. -/
theorem updatesExact_iff (hmax : ngramMax ≤ llamaNgramMax) : UpdatesExact ngramMin ngramMax inp ↔
    (∀ event, (allEvents ngramMin ngramMax inp).count event < 2 ^ 31) ∧
      ¬ Padded ngramMin ngramMax inp := by
  constructor
  · intro h
    obtain ⟨-, whole, -, hwhole, -, hseen⟩ := h [inp] (by simp)
    have hsome : (update ∅ ngramMin ngramMax ([] ++ inp) inp.length).isSome :=
      Option.isSome_of_eq_some hwhole
    refine ⟨hasCounted_nil.isSome_update.1 hsome, ?_⟩
    rintro ⟨hlt, g, token, hg, hnull, hinfix⟩
    have hcounted : HasCounted ngramMin ngramMax inp whole := hasCounted_nil.update hwhole
    have heq := hseen g token hnull hg.ge (by omega)
    rw [hcounted.seen_eq, Nat.cast_inj] at heq
    exact seen_ne_occurrences hmax hlt hg hnull hinfix heq
  · rintro ⟨hlt, hpadded⟩ chunks rfl
    have hchunks : (updateChunks ngramMin ngramMax chunks [] ∅).isSome :=
      hasCounted_nil.isSome_updateChunks hlt
    have hone : (update ∅ ngramMin ngramMax ([] ++ chunks.flatten) chunks.flatten.length).isSome :=
      hasCounted_nil.isSome_update.2 hlt
    obtain ⟨cache, hcache⟩ := Option.isSome_iff_exists.1 hchunks
    obtain ⟨whole, hwhole⟩ := Option.isSome_iff_exists.1 hone
    have hc : HasCounted ngramMin ngramMax chunks.flatten cache :=
      hasCounted_nil.updateChunks hcache
    have hw : HasCounted ngramMin ngramMax chunks.flatten whole := hasCounted_nil.update hwhole
    refine ⟨cache, whole, hcache, hwhole, hc.counted.sameCache hw.counted fun ngram token => ?_,
      fun g token hnull hmin hg => ?_⟩
    · rw [hc.seen_eq, hw.seen_eq]
    · rw [hw.seen_eq, seen_eq_occurrences hmax hpadded hnull hmin hg]

end Updates

end Ngram

end LamaServer
