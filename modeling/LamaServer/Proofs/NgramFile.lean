import Mathlib.Data.Int.Interval
import LamaServer.Proofs.NgramUpdates

/-!
# Files of n-gram caches

A cache that is loaded has the counts of the one that was saved. The numbers of tokens are written
as `int32_t`.
-/

namespace LamaServer

namespace Ngram

/-! ## What is written -/

def countBytes (tokenCount : TokenCount) : List UInt8 :=
  Format.int32.write tokenCount.1 ++ Format.int32.write tokenCount.2

abbrev Item := Sigma fun _ : CommonNgram => CommonNgramCachePart

def itemBytes (item : Item) : List UInt8 :=
  (Format.int32.vec llamaNgramMax).write item.1.tokens ++
    (Format.int32.write (Int32.ofNat item.2.entries.length) ++
      (item.2.entries.map countBytes).flatten)

theorem le_zero_iff {n : Int32} : n ≤ 0 ↔ n.toInt ≤ 0 := Int32.le_iff_toInt_le

/-- No more tokens than there are values of `int32_t`. -/
theorem length_entries_le (part : CommonNgramCachePart) : part.entries.length ≤ 2 ^ 32 := by
  have hnodup : (part.keys.map Int32.toInt).Nodup :=
    part.keys_nodup.map fun a b h => Int32.toInt_inj.1 h
  have hsub : (part.keys.map Int32.toInt).toFinset ⊆ Finset.Ico (-2 ^ 31) (2 ^ 31) := by
    intro n hn
    obtain ⟨token, -, rfl⟩ := List.mem_map.1 (List.mem_toFinset.1 hn)
    exact Finset.mem_Ico.2 ⟨Int32.le_toInt token, toInt_lt token⟩
  have hcard := Finset.card_le_card hsub
  rw [List.toFinset_card_of_nodup hnodup, List.length_map, Int.card_Ico, AList.keys, List.keys,
    List.length_map] at hcard
  exact hcard

theorem ofNat_pos_iff {n : ℕ} (h0 : 0 < n) (hn : n ≤ 2 ^ 32) :
    ¬ Int32.ofNat n ≤ 0 ↔ n < 2 ^ 31 := by
  rw [le_zero_iff, Int32.toInt_ofNat', Int.bmod_def]
  unfold Int32.size
  split_ifs <;> omega

section Save

variable {item : Item} {cache : CommonNgramCache}

theorem saveItem_eq (h : CountedPart item.2) : saveItem item =
    if item.2.entries.length < 2 ^ 31 then some (itemBytes item) else none := by
  have hne : item.2.entries ≠ [] := by
    obtain ⟨token, htoken⟩ := h.nonempty
    intro hnil
    rw [AList.mem_keys, AList.keys, hnil] at htoken
    exact absurd htoken List.not_mem_nil
  have hcounts : (item.2.entries.mapM fun tokenCount => if tokenCount.2 ≤ (0 : Int32) then none
      else some (Format.int32.write tokenCount.1 ++ Format.int32.write tokenCount.2)) =
        some (item.2.entries.map countBytes) := by
    refine mapM_eq_map fun tokenCount htc => if_neg ?_
    have hpos := h.positive (AList.mem_lookup_iff.2 htc)
    rw [le_zero_iff]
    omega
  have hpos := ofNat_pos_iff (List.length_pos_of_ne_nil hne) (length_entries_le item.2)
  unfold saveItem
  rw [hcounts]
  split_ifs with hlt
  · rw [if_neg (not_or.2 ⟨hne, hpos.2 hlt⟩)]
    rfl
  · rw [if_pos (.inr (not_not.1 fun hle => hlt (hpos.1 hle)))]
    rfl

theorem mapM_eq_none {α β : Type*} {f : α → Option β} {a : α} {l : List α} (ha : a ∈ l)
    (h : f a = none) : l.mapM f = none := by
  induction l with
  | nil => exact absurd ha List.not_mem_nil
  | cons b l ih =>
    rw [List.mapM_cons]
    rcases List.mem_cons.1 ha with rfl | ha
    · rw [h]
      rfl
    · rw [ih ha]
      rcases f b <;> rfl

theorem save_eq (h : Counted cache) : save cache =
    if ∀ item ∈ cache.entries, item.2.entries.length < 2 ^ 31 then
      some (cache.entries.map itemBytes).flatten else none := by
  unfold save
  split_ifs with hlt
  · rw [mapM_eq_map fun item hitem =>
      (saveItem_eq (h (AList.mem_lookup_iff.2 hitem))).trans (if_pos (hlt item hitem))]
    rfl
  · simp only [not_forall] at hlt
    obtain ⟨item, hitem, hlong⟩ := hlt
    rw [mapM_eq_none hitem ((saveItem_eq (h (AList.mem_lookup_iff.2 hitem))).trans (if_neg hlong))]
    rfl

end Save

/-! ## What is read back -/

section Load

variable {part : CommonNgramCachePart} {cache : CommonNgramCache} {rest : List UInt8}

theorem read_int32 (n : Int32) (rest : List UInt8) :
    Format.int32.read (Format.int32.write n ++ rest) = some (n, rest) :=
  Format.int32.read_write (Format.int32_valid n) rest

theorem loadCounts_cons {tokenCount : TokenCount} {n : ℕ} (hpos : 0 < tokenCount.2.toInt) :
    loadCounts (n + 1) part (countBytes tokenCount ++ rest) =
      loadCounts n (if tokenCount.1 ∈ part then part else part.insert tokenCount.1 tokenCount.2)
        rest := by
  have hle : ¬ tokenCount.2 ≤ 0 := by
    rw [le_zero_iff]
    omega
  unfold countBytes
  rw [loadCounts]
  simp only [List.append_assoc, read_int32, Option.bind_eq_bind, Option.bind_some, hle, ↓reduceIte]

theorem loadCounts_append {counts : List TokenCount} (hnodup : counts.NodupKeys)
    (hpos : ∀ tokenCount ∈ counts, 0 < tokenCount.2.toInt)
    (hpart : ∀ tokenCount ∈ counts, tokenCount.1 ∉ part) :
    loadCounts counts.length part ((counts.map countBytes).flatten ++ rest) =
      some (part.insertAll counts, rest) := by
  induction counts generalizing part with
  | nil => rfl
  | cons tokenCount counts ih =>
    obtain ⟨hkey, hnodup⟩ := List.nodupKeys_cons.1 hnodup
    rw [List.map_cons, List.flatten_cons, List.append_assoc, List.length_cons,
      loadCounts_cons (hpos tokenCount List.mem_cons_self),
      if_neg (hpart tokenCount List.mem_cons_self)]
    refine ih hnodup (fun t ht => hpos t (List.mem_cons_of_mem _ ht)) fun t ht hmem => ?_
    rcases (AList.mem_insert _).1 hmem with heq | hmem
    · exact hkey (heq ▸ List.mem_keys_of_mem ht)
    · exact hpart t (List.mem_cons_of_mem _ ht) hmem

/-- A part as it is read back. -/
def rereadPart (part : CommonNgramCachePart) : CommonNgramCachePart :=
  AList.insertAll ∅ part.entries

theorem lookup_rereadPart (part : CommonNgramCachePart) (token : Int32) :
    (rereadPart part).lookup token = part.lookup token := by
  unfold rereadPart
  rw [AList.lookup_insertAll part.nodupKeys]
  change (part.lookup token).elim _ _ = _
  rcases part.lookup token with _ | count <;> rfl

def reread : Item → Item := Sigma.map id fun _ => rereadPart

theorem read_tokens (ngram : CommonNgram) (rest : List UInt8) :
    (Format.int32.vec llamaNgramMax).read
      ((Format.int32.vec llamaNgramMax).write ngram.tokens ++ rest) = some (ngram.tokens, rest) :=
  Format.read_write _ (by simp) rest

theorem read_nil : (Format.int32.vec llamaNgramMax).read [] = none := rfl

theorem loadFrom_cons {item : Item} {n : ℕ} (hitem : CountedPart item.2)
    (hlt : item.2.entries.length < 2 ^ 31) (hcache : item.1 ∉ cache) :
    loadFrom (n + 1) cache (itemBytes item ++ rest) =
      loadFrom n (cache.insert item.1 (rereadPart item.2)) rest := by
  have hlen : (Int32.ofNat item.2.entries.length).toInt = item.2.entries.length :=
    Int32.toInt_ofNat_of_lt hlt
  have hne : 0 < item.2.entries.length := by
    obtain ⟨token, htoken⟩ := hitem.nonempty
    rw [AList.mem_keys, AList.keys, List.keys] at htoken
    exact List.length_pos_of_ne_nil fun hnil => by simp [hnil] at htoken
  have hle : ¬ Int32.ofNat item.2.entries.length ≤ 0 := by
    rw [le_zero_iff, hlen]
    omega
  have hcounts : loadCounts item.2.entries.length ∅
      ((item.2.entries.map countBytes).flatten ++ rest) = some (rereadPart item.2, rest) :=
    loadCounts_append item.2.nodupKeys
      (fun tokenCount htc => hitem.positive (AList.mem_lookup_iff.2 htc))
      fun tokenCount _ => AList.notMem_empty tokenCount.1
  unfold itemBytes
  rw [loadFrom, List.append_assoc, read_tokens]
  simp only [List.append_assoc, read_int32, Option.bind_eq_bind, Option.bind_some, hle, ↓reduceIte,
    hlen, Int.toNat_natCast, hcounts]
  rw [if_neg hcache]

theorem loadFrom_flatten {items : List Item} {n : ℕ} (hn : items.length < n)
    (hnodup : items.NodupKeys)
    (hitems : ∀ item ∈ items, CountedPart item.2 ∧ item.2.entries.length < 2 ^ 31)
    (hcache : ∀ item ∈ items, item.1 ∉ cache) :
    loadFrom n cache (items.map itemBytes).flatten =
      some (cache.insertAll (items.map reread)) := by
  obtain ⟨n, rfl⟩ := Nat.exists_eq_add_one_of_ne_zero (Nat.ne_of_gt (Nat.zero_lt_of_lt hn))
  induction items generalizing n cache with
  | nil =>
    rw [loadFrom, List.map_nil, List.flatten_nil, read_nil]
    rfl
  | cons item items ih =>
    obtain ⟨hkey, hnodup⟩ := List.nodupKeys_cons.1 hnodup
    obtain ⟨hitem, hlt⟩ := hitems item List.mem_cons_self
    rw [List.length_cons] at hn
    obtain ⟨n, rfl⟩ := Nat.exists_eq_add_one_of_ne_zero (show n ≠ 0 by omega)
    rw [List.map_cons, List.flatten_cons, loadFrom_cons hitem hlt (hcache item List.mem_cons_self)]
    refine ih hnodup (fun i hi => hitems i (List.mem_cons_of_mem _ hi)) (fun i hi hmem => ?_) n
      (by omega)
    rcases (AList.mem_insert _).1 hmem with heq | hmem
    · exact hkey (heq ▸ List.mem_keys_of_mem hi)
    · exact hcache i (List.mem_cons_of_mem _ hi) hmem

/-- What is read is positive, and there is a token if there was one or one was read. -/
theorem loadCounts_counted {n : ℕ} {file : List UInt8} {result : CommonNgramCachePart}
    (h : loadCounts n part file = some (result, rest))
    (hpos : ∀ {token count}, part.lookup token = some count → 0 < count.toInt)
    (hne : 0 < n ∨ ∃ token, token ∈ part) : CountedPart result := by
  induction n generalizing part file with
  | zero =>
    obtain ⟨rfl, -⟩ := Prod.ext_iff.1 (Option.some.inj h)
    exact ⟨hne.resolve_left (lt_irrefl 0), hpos⟩
  | succ n ih =>
    rw [loadCounts] at h
    obtain ⟨⟨token, file⟩, -, h⟩ := Option.bind_eq_some_iff.1 h
    obtain ⟨⟨count, file⟩, -, h⟩ := Option.bind_eq_some_iff.1 h
    dsimp only at h
    by_cases hle : count ≤ 0
    · rw [if_pos hle] at h
      exact absurd h nofun
    rw [if_neg hle] at h
    split_ifs at h with hmem
    · exact ih h hpos (.inr ⟨token, hmem⟩)
    · refine ih h (fun {token' count'} hlookup => ?_) (.inr ⟨token, (AList.mem_insert _).2 (.inl rfl)⟩)
      by_cases heq : token' = token
      · subst heq
        rw [AList.lookup_insert, Option.some.injEq] at hlookup
        rwa [le_zero_iff, not_le, hlookup] at hle
      · rw [AList.lookup_insert_ne heq] at hlookup
        exact hpos hlookup

theorem counted_loadFrom {n : ℕ} {file : List UInt8} {result : CommonNgramCache}
    (h : loadFrom n cache file = some result) (hcache : Counted cache) : Counted result := by
  induction n generalizing cache file with
  | zero => exact absurd h nofun
  | succ n ih =>
    rw [loadFrom] at h
    split at h
    · exact Option.some.inj h ▸ hcache
    · next tokens file _ =>
      obtain ⟨⟨ntokens, file⟩, -, h⟩ := Option.bind_eq_some_iff.1 h
      dsimp only at h
      by_cases hle : ntokens ≤ 0
      · rw [if_pos hle] at h
        exact absurd h nofun
      rw [if_neg hle] at h
      obtain ⟨⟨counts, file⟩, hcounts, h⟩ := Option.bind_eq_some_iff.1 h
      rw [le_zero_iff] at hle
      have hcounted : CountedPart counts := loadCounts_counted hcounts nofun (.inl (by omega))
      dsimp only at h
      split_ifs at h with hmem
      · exact ih h hcache
      · refine ih h fun ngram part hpart => ?_
        by_cases heq : ngram = ⟨tokens⟩
        · subst heq
          rw [AList.lookup_insert, Option.some.injEq] at hpart
          exact hpart ▸ hcounted
        · rw [AList.lookup_insert_ne heq] at hpart
          exact hcache hpart

/-- Whatever is in the file. -/
theorem counted_load {file : List UInt8} (h : load file = some cache) : Counted cache :=
  counted_loadFrom h counted_empty

/-- Each n-gram has a byte, so that there are rounds enough for all. -/
theorem length_le_flatten (items : List Item) :
    items.length ≤ (items.map itemBytes).flatten.length := by
  have hpos (item : Item) : 0 < (itemBytes item).length := by
    have hread := read_tokens item.1 []
    unfold itemBytes
    rcases hwrite : (Format.int32.vec llamaNgramMax).write item.1.tokens with _ | ⟨byte, bytes⟩
    · rw [List.append_nil, hwrite, read_nil] at hread
      exact absurd hread nofun
    · simp
  induction items with
  | nil => simp
  | cons item items ih =>
    have := hpos item
    rw [List.map_cons, List.flatten_cons, List.length_append, List.length_cons]
    omega

theorem load_save (h : Counted cache)
    (hlt : ∀ item ∈ cache.entries, item.2.entries.length < 2 ^ 31) :
    load (cache.entries.map itemBytes).flatten =
      some (AList.insertAll ∅ (cache.entries.map reread)) :=
  loadFrom_flatten (Nat.lt_succ_of_le (length_le_flatten _)) cache.nodupKeys
    (fun item hitem => ⟨h (AList.mem_lookup_iff.2 hitem), hlt item hitem⟩)
    fun item _ => AList.notMem_empty item.1

theorem lookup_loaded (cache : CommonNgramCache) (ngram : CommonNgram) :
    (AList.insertAll ∅ (cache.entries.map reread)).lookup ngram =
      (cache.lookup ngram).map rereadPart := by
  have hkeys : (cache.entries.map reread).NodupKeys := by
    rw [List.NodupKeys, List.keys, List.map_map]
    exact cache.nodupKeys
  rw [AList.lookup_insertAll hkeys]
  have hmap : (cache.entries.map reread).dlookup ngram =
      (cache.entries.dlookup ngram).map rereadPart :=
    List.dlookup_map₂ ngram
  rw [hmap]
  change ((cache.lookup ngram).map _).elim _ _ = _
  rcases cache.lookup ngram with _ | part <;> rfl

theorem sameCache_loaded (cache : CommonNgramCache) :
    SameCache (AList.insertAll ∅ (cache.entries.map reread)) cache := by
  intro ngram
  rw [← AList.lookup_isSome, ← AList.lookup_isSome, lookup_loaded]
  refine ⟨by rw [Option.isSome_map], fun token => ?_⟩
  rcases cache.lookup ngram with _ | part
  · rfl
  · exact lookup_rereadPart part token

end Load

/-! ## What caches are to do -/

/-- The file of a cache loads as the same cache. -/
def LoadUndoesSave (cache : CommonNgramCache) : Prop :=
  ∃ file loaded, save cache = some file ∧ load file = some loaded ∧ SameCache loaded cache

theorem loadUndoesSave_iff (cache : CountedCache) : LoadUndoesSave cache.cache ↔
    ∀ item ∈ cache.cache.entries, item.2.entries.length < 2 ^ 31 := by
  obtain ⟨cache, hcache⟩ := cache
  have hsave := save_eq hcache
  constructor
  · rintro ⟨file, -, hfile, -⟩
    by_contra hlt
    rw [if_neg hlt, hfile] at hsave
    exact absurd hsave nofun
  · intro hlt
    rw [if_pos hlt] at hsave
    exact ⟨_, _, hsave, load_save hcache hlt, sameCache_loaded cache⟩

/-- Sequences are counted exactly in all chunks, merging adds counts, and files load as what was
saved. -/
structure CacheExact (ngramMin ngramMax : ℕ) (inp : List Int32) (a b c : CountedCache) : Prop where
  updates : UpdatesExact ngramMin ngramMax inp
  merges : MergeExact a.cache b.cache c.cache
  loads : LoadUndoesSave a.cache

/-- No count and no number of tokens leaves `int32_t`, and no n-gram ends in `LLAMA_TOKEN_NULL`. -/
structure CountsFit (ngramMin ngramMax : ℕ) (inp : List Int32) (a b c : CountedCache) : Prop where
  events : ∀ event, (allEvents ngramMin ngramMax inp).count event < 2 ^ 31
  unpadded : ¬ Padded ngramMin ngramMax inp
  sums : ∀ ngram token,
    seen a.cache ngram token + seen b.cache ngram token + seen c.cache ngram token < 2 ^ 31
  lengths : ∀ item ∈ a.cache.entries, item.2.entries.length < 2 ^ 31

theorem cacheExact_iff {ngramMin ngramMax : ℕ} {inp : List Int32} {a b c : CountedCache}
    (hmax : ngramMax ≤ llamaNgramMax) :
    CacheExact ngramMin ngramMax inp a b c ↔ CountsFit ngramMin ngramMax inp a b c := by
  constructor
  · rintro ⟨hupdates, hmerges, hloads⟩
    obtain ⟨hevents, hunpadded⟩ := (updatesExact_iff hmax).1 hupdates
    exact ⟨hevents, hunpadded, (mergeExact_iff a b c).1 hmerges, (loadUndoesSave_iff a).1 hloads⟩
  · rintro ⟨hevents, hunpadded, hsums, hlengths⟩
    exact ⟨(updatesExact_iff hmax).2 ⟨hevents, hunpadded⟩, (mergeExact_iff a b c).2 hsums,
      (loadUndoesSave_iff a).2 hlengths⟩

/-- A cache in which one count is the last value of `int32_t`. -/
def fullCache : CountedCache where
  cache := AList.singleton (.ofInput [5] 1) (AList.singleton 7 2147483647)
  counted := counted_singleton (by decide)

theorem cacheExact_iff_four : CacheExact 1 4 [3, 5, 3, 5] fullCache ⟨∅, counted_empty⟩
      ⟨∅, counted_empty⟩ ↔
    CountsFit 1 4 [3, 5, 3, 5] fullCache ⟨∅, counted_empty⟩ ⟨∅, counted_empty⟩ :=
  cacheExact_iff (by decide)

theorem not_cacheExact : ¬ CacheExact 1 4 [3, 5, 3, 5] fullCache fullCache fullCache := by
  intro h
  obtain ⟨ab, hab, -⟩ := h.merges.adds
  have hnone : merge fullCache.cache fullCache.cache = none := by decide
  exact absurd (hnone.symm.trans hab) nofun

end Ngram

end LamaServer
