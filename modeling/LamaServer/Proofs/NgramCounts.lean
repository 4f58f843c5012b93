import LamaServer.Lib.Combine
import LamaServer.Proofs.NgramChoice

/-!
# The counts of a merged cache

Merging adds the counts of two caches, as long as the sums are values of `int`.
-/

namespace LamaServer

namespace Ngram

/-! ## Counts -/

/-- How often the part has seen a token. -/
def seenInPart (part : CommonNgramCachePart) (token : Int32) : Int :=
  (part.lookup token).elim 0 Int32.toInt

/-- How often the cache has seen a token behind an n-gram. -/
def seen (cache : CommonNgramCache) (ngram : CommonNgram) (token : Int32) : Int :=
  (cache.lookup ngram).elim 0 (seenInPart · token)

/-- No part of a cache is empty, and what it lists was seen. -/
structure CountedPart (part : CommonNgramCachePart) : Prop where
  nonempty : ∃ token, token ∈ part
  positive : ∀ {token count}, part.lookup token = some count → 0 < count.toInt

def Counted (cache : CommonNgramCache) : Prop :=
  ∀ ⦃ngram part⦄, cache.lookup ngram = some part → CountedPart part

/-- A cache with its invariant. -/
structure CountedCache where
  cache : CommonNgramCache
  counted : Counted cache

/-- The same n-grams, each with the same counts. -/
def SameCache (a b : CommonNgramCache) : Prop :=
  ∀ ngram, (ngram ∈ a ↔ ngram ∈ b) ∧
    ∀ token, (a.lookup ngram).bind (·.lookup token) = (b.lookup ngram).bind (·.lookup token)

theorem toInt_lt (n : Int32) : n.toInt < 2 ^ 31 := Int32.toInt_lt n

section Part

variable {part merged : CommonNgramCachePart} {token : Int32}

theorem seenInPart_lt : seenInPart part token < 2 ^ 31 := by
  unfold seenInPart
  rcases part.lookup token with _ | count
  · simp
  · exact toInt_lt count

theorem CountedPart.seenInPart_nonneg (h : CountedPart part) (token : Int32) :
    0 ≤ seenInPart part token := by
  unfold seenInPart
  rcases hcount : part.lookup token with _ | count
  · simp
  · exact (h.positive hcount).le

theorem CountedPart.seenInPart_pos (h : CountedPart part) :
    0 < seenInPart part token ↔ token ∈ part := by
  rw [← AList.lookup_isSome]
  unfold seenInPart
  rcases hcount : part.lookup token with _ | count
  · simp
  · simpa using h.positive hcount

theorem mem_of_seenInPart_pos (h : 0 < seenInPart part token) : token ∈ part := by
  rw [← AList.lookup_isSome]
  unfold seenInPart at h
  rcases hcount : part.lookup token with _ | count
  · simp [hcount] at h
  · rfl

/-- The counts of a part are read off how often it has seen each token. -/
theorem CountedPart.lookup_eq (h : CountedPart part) :
    part.lookup token =
      if 0 < seenInPart part token then some (Int32.ofInt (seenInPart part token)) else none := by
  unfold seenInPart
  rcases hcount : part.lookup token with _ | count
  · simp
  · simpa using h.positive hcount

end Part

section Cache

variable {cache a b : CommonNgramCache} {ngram : CommonNgram} {token : Int32}

theorem seen_lt : seen cache ngram token < 2 ^ 31 := by
  unfold seen
  rcases cache.lookup ngram with _ | part
  · simp
  · exact seenInPart_lt

theorem Counted.seen_nonneg (h : Counted cache) (ngram : CommonNgram) (token : Int32) :
    0 ≤ seen cache ngram token := by
  unfold seen
  rcases hpart : cache.lookup ngram with _ | part
  · simp
  · exact (h hpart).seenInPart_nonneg token

theorem Counted.mem_iff (h : Counted cache) :
    ngram ∈ cache ↔ ∃ token, 0 < seen cache ngram token := by
  rw [← AList.lookup_isSome]
  unfold seen
  rcases hpart : cache.lookup ngram with _ | part
  · simp
  · simpa [(h hpart).seenInPart_pos] using (h hpart).nonempty

theorem Counted.lookup_eq (h : Counted cache) : (cache.lookup ngram).bind (·.lookup token) =
    if 0 < seen cache ngram token then some (Int32.ofInt (seen cache ngram token)) else none := by
  unfold seen
  rcases hpart : cache.lookup ngram with _ | part
  · simp
  · exact (h hpart).lookup_eq

theorem Counted.sameCache (ha : Counted a) (hb : Counted b)
    (h : ∀ ngram token, seen a ngram token = seen b ngram token) : SameCache a b := by
  intro ngram
  refine ⟨?_, fun token => ?_⟩
  · rw [ha.mem_iff, hb.mem_iff]
    simp only [h]
  · rw [ha.lookup_eq, hb.lookup_eq, h]

theorem SameCache.seen_eq (h : SameCache a b) : seen a ngram token = seen b ngram token := by
  have hbind (cache : CommonNgramCache) : seen cache ngram token =
      ((cache.lookup ngram).bind (·.lookup token)).elim 0 Int32.toInt := by
    unfold seen seenInPart
    rcases cache.lookup ngram with _ | part <;> rfl
  rw [hbind, hbind, (h ngram).2]

end Cache

/-! ## Merging -/

theorem addCount_eq_some {count n sum : Int32} :
    addCount count n = some sum ↔ sum.toInt = count.toInt + n.toInt := by
  unfold addCount
  rw [Option.map_eq_some_iff]
  constructor
  · rintro ⟨m, hm, rfl⟩
    obtain ⟨hfits, rfl⟩ := checkedInt_eq_some.1 hm
    exact Int32.toInt_ofInt_of_le hfits.1 (by simpa using hfits.2)
  · intro h
    refine ⟨sum.toInt, checkedInt_eq_some.2 ⟨?_, h⟩, Int32.ofInt_toInt sum⟩
    exact h ▸ ⟨Int32.le_toInt sum, toInt_lt sum⟩

/-- One round of the loop of `mergePart`. -/
def mergeCount (_ : Int32) (old : Option Int32) (count : Int32) : Option Int32 :=
  if count ≤ 0 then none else old.elim (some count) (addCount · count)

theorem mergePart_eq (merged part : CommonNgramCachePart) :
    mergePart merged part = part.entries.foldlM (AList.combine mergeCount) merged := by
  unfold mergePart
  congr 1
  funext merged tokenCount
  unfold AList.combine mergeCount
  split_ifs
  · rfl
  · rcases merged.lookup tokenCount.1 with _ | count <;> rfl

section Part

variable {part merged result : CommonNgramCachePart}

theorem mergeCount_eq_some {token count sum : Int32} {old : Option Int32} (h : 0 < count.toInt) :
    mergeCount token old count = some sum ↔ sum.toInt = old.elim 0 Int32.toInt + count.toInt := by
  have hpos : ¬ count ≤ 0 := by
    rw [Int32.le_iff_toInt_le]
    simpa using h
  unfold mergeCount
  rw [if_neg hpos]
  rcases old with _ | old
  · rw [Option.elim_none, Option.elim_none, Option.some.injEq, zero_add, Int32.toInt_inj, eq_comm]
  · exact addCount_eq_some

theorem isSome_mergeCount {token count : Int32} {old : Option Int32} (h : 0 < count.toInt)
    (hold : 0 ≤ old.elim 0 Int32.toInt) : (mergeCount token old count).isSome ↔
      old.elim 0 Int32.toInt + count.toInt < 2 ^ 31 := by
  rw [Option.isSome_iff_exists]
  simp only [mergeCount_eq_some h]
  constructor
  · rintro ⟨sum, hsum⟩
    exact hsum ▸ toInt_lt sum
  · intro hlt
    exact ⟨_, Int32.toInt_ofInt_of_le (by omega) (by simpa using hlt)⟩

theorem isSome_mergePart (hm : CountedPart merged) (hp : CountedPart part) :
    (mergePart merged part).isSome ↔
      ∀ token, seenInPart merged token + seenInPart part token < 2 ^ 31 := by
  have hlookup {token count} : part.lookup token = some count ↔ ⟨token, count⟩ ∈ part.entries :=
    AList.mem_lookup_iff
  rw [mergePart_eq, AList.isSome_foldlM_combine part.nodupKeys]
  constructor
  · intro h token
    rcases hcount : part.lookup token with _ | count
    · have hlt : seenInPart merged token < 2 ^ 31 := seenInPart_lt
      simpa [seenInPart, hcount] using hlt
    · have hsome : (mergeCount token (merged.lookup token) count).isSome :=
        h ⟨token, count⟩ (hlookup.1 hcount)
      rw [isSome_mergeCount (hp.positive hcount) (hm.seenInPart_nonneg token)] at hsome
      unfold seenInPart
      rwa [hcount]
  · rintro h ⟨token, count⟩ hmem
    have hcount := hlookup.2 hmem
    change (mergeCount token (merged.lookup token) count).isSome
    rw [isSome_mergeCount (hp.positive hcount) (hm.seenInPart_nonneg token)]
    have hlt := h token
    unfold seenInPart at hlt
    rwa [hcount] at hlt

theorem seenInPart_mergePart (hp : CountedPart part) (h : mergePart merged part = some result)
    (token : Int32) : seenInPart result token = seenInPart merged token + seenInPart part token := by
  rw [mergePart_eq] at h
  have hlookup := AList.lookup_of_foldlM_combine part.nodupKeys h token
  have hsome := (AList.isSome_foldlM_combine part.nodupKeys).1 (Option.isSome_iff_exists.2 ⟨_, h⟩)
  change _ = (part.lookup token).elim _ _ at hlookup
  unfold seenInPart
  rw [hlookup]
  rcases hcount : part.lookup token with _ | count
  · simp
  · obtain ⟨sum, hsum⟩ := Option.isSome_iff_exists.1 (hsome _ (AList.mem_lookup_iff.1 hcount))
    rw [Option.elim_some, hsum]
    exact (mergeCount_eq_some (hp.positive hcount)).1 hsum

theorem CountedPart.mergePart (hm : CountedPart merged) (hp : CountedPart part)
    (h : mergePart merged part = some result) : CountedPart result where
  nonempty := by
    obtain ⟨token, htoken⟩ := hm.nonempty
    refine ⟨token, mem_of_seenInPart_pos ?_⟩
    have hpos := hm.seenInPart_pos.2 htoken
    have hnonneg := hp.seenInPart_nonneg token
    rw [seenInPart_mergePart hp h]
    omega
  positive {token sum} hsum := by
    rw [mergePart_eq] at h
    have hlookup := AList.lookup_of_foldlM_combine part.nodupKeys h token
    change _ = (part.lookup token).elim _ _ at hlookup
    rw [hsum] at hlookup
    rcases hcount : part.lookup token with _ | count
    · rw [hcount, Option.elim_none] at hlookup
      exact hm.positive hlookup.symm
    · rw [hcount, Option.elim_some] at hlookup
      have hpos := hp.positive hcount
      have hnonneg := hm.seenInPart_nonneg token
      unfold seenInPart at hnonneg
      have heq := (mergeCount_eq_some hpos).1 hlookup.symm
      omega

end Part

/-- One round of the loop of `common_ngram_cache_merge`. -/
def mergeParts (_ : CommonNgram) (old : Option CommonNgramCachePart) (part : CommonNgramCachePart) :
    Option CommonNgramCachePart :=
  old.elim (some part) (mergePart · part)

theorem merge_eq (target add : CommonNgramCache) :
    merge target add = add.entries.foldlM (AList.combine mergeParts) target := by
  unfold merge
  congr 1
  funext target ngramPart
  unfold AList.combine mergeParts
  rcases target.lookup ngramPart.1 with _ | merged <;> rfl

section Cache

variable {a b c : CommonNgramCache} {ngram : CommonNgram} {token : Int32}

theorem isSome_mergeParts {old : Option CommonNgramCachePart} {part : CommonNgramCachePart}
    (hold : ∀ merged ∈ old, CountedPart merged) (hp : CountedPart part) :
    (mergeParts ngram old part).isSome ↔
      ∀ token, old.elim 0 (seenInPart · token) + seenInPart part token < 2 ^ 31 := by
  unfold mergeParts
  rcases old with _ | merged
  · simpa using fun _ => seenInPart_lt
  · exact isSome_mergePart (hold merged rfl) hp

theorem seen_mergeParts {old : Option CommonNgramCachePart} {part result : CommonNgramCachePart}
    (hp : CountedPart part) (h : mergeParts ngram old part = some result) :
    seenInPart result token = old.elim 0 (seenInPart · token) + seenInPart part token := by
  unfold mergeParts at h
  rcases old with _ | merged
  · obtain rfl := Option.some.inj h
    exact (zero_add _).symm
  · exact seenInPart_mergePart hp h token

theorem isSome_merge (ha : Counted a) (hb : Counted b) :
    (merge a b).isSome ↔ ∀ ngram token, seen a ngram token + seen b ngram token < 2 ^ 31 := by
  rw [merge_eq, AList.isSome_foldlM_combine b.nodupKeys]
  constructor
  · intro h ngram token
    rcases hpart : b.lookup ngram with _ | part
    · have hlt : seen a ngram token < 2 ^ 31 := seen_lt
      simpa [seen, hpart] using hlt
    · have hsome := (isSome_mergeParts (fun _ hm => ha hm) (hb hpart)).1
        (h _ (AList.mem_lookup_iff.1 hpart)) token
      unfold seen
      rwa [hpart]
  · rintro h ⟨ngram, part⟩ hmem
    have hpart := AList.mem_lookup_iff.2 hmem
    refine (isSome_mergeParts (fun _ hm => ha hm) (hb hpart)).2 fun token => ?_
    have hlt := h ngram token
    unfold seen at hlt
    rwa [hpart] at hlt

theorem seen_merge (hb : Counted b) (h : merge a b = some c) (ngram : CommonNgram)
    (token : Int32) : seen c ngram token = seen a ngram token + seen b ngram token := by
  rw [merge_eq] at h
  have hlookup := AList.lookup_of_foldlM_combine b.nodupKeys h ngram
  have hsome := (AList.isSome_foldlM_combine b.nodupKeys).1 (Option.isSome_iff_exists.2 ⟨_, h⟩)
  change _ = (b.lookup ngram).elim _ _ at hlookup
  unfold seen
  rw [hlookup]
  rcases hpart : b.lookup ngram with _ | part
  · simp
  · obtain ⟨result, hresult⟩ :=
      Option.isSome_iff_exists.1 (hsome _ (AList.mem_lookup_iff.1 hpart))
    rw [Option.elim_some, hresult]
    exact seen_mergeParts (hb hpart) hresult

theorem Counted.merge (ha : Counted a) (hb : Counted b) (h : merge a b = some c) : Counted c := by
  intro ngram result hresult
  rw [merge_eq] at h
  have hlookup := AList.lookup_of_foldlM_combine b.nodupKeys h ngram
  change _ = (b.lookup ngram).elim _ _ at hlookup
  rw [hresult] at hlookup
  rcases hpart : b.lookup ngram with _ | part
  · rw [hpart, Option.elim_none] at hlookup
    exact ha hlookup.symm
  · rw [hpart, Option.elim_some] at hlookup
    unfold mergeParts at hlookup
    rcases hmerged : a.lookup ngram with _ | merged
    · rw [hmerged, Option.elim_none, Option.some.injEq] at hlookup
      exact hlookup ▸ hb hpart
    · rw [hmerged, Option.elim_some] at hlookup
      exact (ha hmerged).mergePart (hb hpart) hlookup.symm

end Cache

/-! ## What merging is to do -/

/-- Merging adds the counts, in either order and either grouping. -/
structure MergeExact (a b c : CommonNgramCache) : Prop where
  adds : ∃ ab, merge a b = some ab ∧
    ∀ ngram token, seen ab ngram token = seen a ngram token + seen b ngram token
  comm : ∃ ab ba, merge a b = some ab ∧ merge b a = some ba ∧ SameCache ab ba
  assoc : ∃ ab bc ab_c a_bc, merge a b = some ab ∧ merge b c = some bc ∧
    merge ab c = some ab_c ∧ merge a bc = some a_bc ∧ SameCache ab_c a_bc

theorem mergeExact_iff (a b c : CountedCache) : MergeExact a.cache b.cache c.cache ↔
    ∀ ngram token, seen a.cache ngram token + seen b.cache ngram token + seen c.cache ngram token <
      2 ^ 31 := by
  obtain ⟨a, ha⟩ := a
  obtain ⟨b, hb⟩ := b
  obtain ⟨c, hc⟩ := c
  constructor
  · rintro ⟨-, -, ab, bc, ab_c, a_bc, hab, -, hab_c, -⟩ ngram token
    have hsum := (isSome_merge (ha.merge hb hab) hc).1 (Option.isSome_of_eq_some hab_c) ngram token
    rwa [seen_merge hb hab] at hsum
  · intro h
    have hsum (ngram : CommonNgram) (token : Int32) := And.intro (h ngram token)
      (And.intro (ha.seen_nonneg ngram token)
        (And.intro (hb.seen_nonneg ngram token) (hc.seen_nonneg ngram token)))
    dsimp only at hsum
    obtain ⟨hsab, hsba, hsbc⟩ : (∀ ngram token, seen a ngram token + seen b ngram token < 2 ^ 31) ∧
        (∀ ngram token, seen b ngram token + seen a ngram token < 2 ^ 31) ∧
        ∀ ngram token, seen b ngram token + seen c ngram token < 2 ^ 31 := by
      refine ⟨?_, ?_, ?_⟩ <;> intro ngram token <;> have := hsum ngram token <;> omega
    obtain ⟨ab, hab⟩ := Option.isSome_iff_exists.1 ((isSome_merge ha hb).2 hsab)
    obtain ⟨ba, hba⟩ := Option.isSome_iff_exists.1 ((isSome_merge hb ha).2 hsba)
    obtain ⟨bc, hbc⟩ := Option.isSome_iff_exists.1 ((isSome_merge hb hc).2 hsbc)
    have hab' := ha.merge hb hab
    have hbc' := hb.merge hc hbc
    obtain ⟨ab_c, hab_c⟩ := Option.isSome_iff_exists.1 ((isSome_merge hab' hc).2
      fun ngram token => by rw [seen_merge hb hab]; exact h ngram token)
    obtain ⟨a_bc, ha_bc⟩ := Option.isSome_iff_exists.1 ((isSome_merge ha hbc').2
      fun ngram token => by rw [seen_merge hc hbc, ← add_assoc]; exact h ngram token)
    refine ⟨⟨ab, hab, seen_merge hb hab⟩, ⟨ab, ba, hab, hba, ?_⟩,
      ⟨ab, bc, ab_c, a_bc, hab, hbc, hab_c, ha_bc, ?_⟩⟩
    · refine (ha.merge hb hab).sameCache (hb.merge ha hba) fun ngram token => ?_
      rw [seen_merge hb hab, seen_merge ha hba, add_comm]
    · refine (hab'.merge hc hab_c).sameCache (ha.merge hbc' ha_bc) fun ngram token => ?_
      rw [seen_merge hc hab_c, seen_merge hb hab, seen_merge hbc' ha_bc, seen_merge hc hbc,
        add_assoc]

end Ngram

end LamaServer
