import Mathlib.Data.List.AList
import LamaServer.Lib.Format

/-!
# N-gram caches

How often a token came behind an n-gram, and the drafting of tokens from such counts. An unordered
map is a list of entries in the order in which it is iterated. There is no result where an `int`
overflows, an index is out of range or an assertion fails.
-/

namespace LamaServer

namespace Ngram

/-! ## Machine integers -/

/-- A result of `int` arithmetic. -/
def checkedInt (n : Int) : Option Int := if -2 ^ 31 ≤ n ∧ n < 2 ^ 31 then some n else none

/-- The conversion to `int`. -/
def toInt (n : Int) : Int := n.bmod (2 ^ 32)

/-- The conversion to `size_t`. -/
def toSizeT (n : Int) : ℕ := (n % 2 ^ 64).toNat

/-! ## Caches -/

/-- `LLAMA_TOKEN_NULL`. -/
def nullToken : Int32 := -1

/-- `LLAMA_NGRAM_MAX`. -/
def llamaNgramMax : ℕ := 4

/-- `LLAMA_NGRAM_STATIC`. -/
def llamaNgramStatic : ℕ := 2

/-- `common_ngram`. -/
structure CommonNgram where
  tokens : Fin llamaNgramMax → Int32
  deriving DecidableEq

/-- The constructor from the first `ngramSize` tokens. -/
def CommonNgram.ofInput (input : List Int32) (ngramSize : ℕ) : CommonNgram where
  tokens i := if i < ngramSize then input.getD i nullToken else nullToken

/-- How often each token was seen. -/
abbrev CommonNgramCachePart := AList fun _ : Int32 => Int32

abbrev CommonNgramCache := AList fun _ : CommonNgram => CommonNgramCachePart

/-- `count + n`. -/
def addCount (count n : Int32) : Option Int32 :=
  (checkedInt (count.toInt + n.toInt)).map Int32.ofInt

/-! ## Updates -/

/-- The token is counted in the part of an n-gram. -/
def countInPart (part : CommonNgramCachePart) (token : Int32) : Option CommonNgramCachePart :=
  match part.lookup token with
  | none => some (part.insert token 1)
  | some count => (addCount count 1).map (part.insert token ·)

/-- The body of the loops of `common_ngram_cache_update`. -/
def countToken (cache : CommonNgramCache) (ngram : CommonNgram) (token : Int32) :
    Option CommonNgramCache :=
  match cache.lookup ngram with
  | none => some (cache.insert ngram (AList.singleton token 1))
  | some part => (countInPart part token).map (cache.insert ngram ·)

/-- The inner loop, from `i` on for `n` positions. -/
def updateFrom (inp : List Int32) (ngramSize : ℕ) (cache : CommonNgramCache) (i n : ℕ) :
    Option CommonNgramCache :=
  (List.range' i n).foldlM (fun cache i => do
    let token ← inp[i]?
    countToken cache (.ofInput (inp.drop (i - ngramSize)) ngramSize) token) cache

/-- `common_ngram_cache_update`, without the report of its progress. -/
def update (cache : CommonNgramCache) (ngramMin ngramMax : ℕ) (inp : List Int32) (nnew : Int) :
    Option CommonNgramCache :=
  (List.range' ngramMin (ngramMax + 1 - ngramMin)).foldlM (fun cache (ngramSize : ℕ) =>
    let iStart := (max (inp.length - nnew) ngramSize).toNat
    updateFrom inp ngramSize cache iStart (inp.length - iStart)) cache

/-! ## Drafts -/

/-- `get_token`. -/
def getToken (inp draft : List Int32) (i : ℕ) : Option Int32 :=
  if i < inp.length then inp[i]? else draft[toSizeT (1 + i - inp.length)]?

/-- The indices of the tokens of an n-gram, of type `size_t`. -/
def ngramIndices (inpSize : Int) (draftSize ngramSize : ℕ) : Option (List ℕ) := do
  let ngramStart := toInt (toSizeT (inpSize - ngramSize + draftSize - 1))
  let _ ← checkedInt (ngramStart + ngramSize)
  return (List.range ngramSize).map fun (j : ℕ) => toSizeT (ngramStart + j)

/-- The loops of `common_ngram_cache_draft` that read an n-gram. -/
def readNgram (inp draft : List Int32) (ngramSize : ℕ) : Option CommonNgram := do
  let indices ← ngramIndices (toInt inp.length) draft.length ngramSize
  let tokens ← indices.mapM (getToken inp draft)
  return .ofInput tokens ngramSize

def draftMinSampleSizeLax : List Int := [2, 2, 1, 1]
def draftMinPercentLax : List Int := [66, 50, 50, 50]
def draftMinSampleSizeStrict : List Int := [4, 3, 2, 2]
def draftMinPercentStrict : List Int := [75, 66, 66, 66]

/-- What the loop of `try_draft` over the static cache keeps. -/
structure StaticMax where
  maxCountStatic : Int := 0
  sumCountStatic : Int := 0
  maxToken : Int32 := nullToken

def StaticMax.next (s : StaticMax) (tokenCount : Sigma fun _ : Int32 => Int32) :
    Option StaticMax := do
  let countStatic := tokenCount.2.toInt
  let sumCountStatic ← checkedInt (s.sumCountStatic + countStatic)
  return if countStatic > s.maxCountStatic then ⟨countStatic, sumCountStatic, tokenCount.1⟩
    else { s with sumCountStatic := sumCountStatic }

/-- `try_draft` from the static cache. -/
def tryDraftStatic (ncStatic : CommonNgramCache) (ngramStatic : CommonNgram) : Option Int32 :=
  match ncStatic.lookup ngramStatic with
  | none => some nullToken
  | some partStatic => do
    let s ← partStatic.entries.foldlM StaticMax.next {}
    let minSampleSize ← draftMinSampleSizeLax[llamaNgramStatic - 1]?
    if s.sumCountStatic < minSampleSize then return nullToken
    let minPercent ← draftMinPercentLax[llamaNgramStatic - 1]?
    let scaled ← checkedInt (100 * s.maxCountStatic)
    let bound ← checkedInt (minPercent * s.sumCountStatic)
    if scaled < bound then return nullToken
    return s.maxToken

/-- What the loop of `try_draft` over a part of the primary cache keeps. -/
structure PrimaryMax where
  maxCountPrimary : Int := 0
  maxCountStatic : Int := 0
  sumCountPrimary : Int := 0
  maxToken : Int32 := nullToken

/-- `count_static`. -/
def countStatic (partStatic : CommonNgramCachePart) (token : Int32) : Option Int :=
  match partStatic.lookup token with
  | some count => checkedInt (100 * count.toInt)
  | none => some 1

def PrimaryMax.next (partStatic : CommonNgramCachePart) (s : PrimaryMax)
    (tokenCount : Sigma fun _ : Int32 => Int32) : Option PrimaryMax := do
  let token := tokenCount.1
  let countPrimary := tokenCount.2.toInt
  let countStatic ← countStatic partStatic token
  let product ← checkedInt (countPrimary * countStatic)
  let maxProduct ← checkedInt (s.maxCountPrimary * s.maxCountStatic)
  let sumCountPrimary ← checkedInt (s.sumCountPrimary + countPrimary)
  return if product > maxProduct then ⟨countPrimary, countStatic, sumCountPrimary, token⟩
    else { s with sumCountPrimary := sumCountPrimary }

/-- The body of the loop of `try_draft` over the n-grams, from one that is in the primary cache. -/
def draftFromPart (part partStatic : CommonNgramCachePart) (minSampleSize minPercent : Int) :
    Option Int32 := do
  let s ← part.entries.foldlM (PrimaryMax.next partStatic) {}
  if s.sumCountPrimary < minSampleSize then return nullToken
  let scaled ← checkedInt (100 * s.maxCountPrimary)
  let bound ← checkedInt (minPercent * s.sumCountPrimary)
  if scaled < bound then return nullToken
  return s.maxToken

/-- `try_draft` from the primary cache; the last n-grams come first. -/
def tryDraft (ncPrimary : CommonNgramCache) (ngramsPrimary : List CommonNgram)
    (partStatic : CommonNgramCachePart) (minSampleSize minPercent : List Int) : ℕ → Option Int32
  | 0 => some nullToken
  | i + 1 => do
    let ngram ← ngramsPrimary[i]?
    match ncPrimary.lookup ngram with
    | none => tryDraft ncPrimary ngramsPrimary partStatic minSampleSize minPercent i
    | some part => do
      let drafted ← draftFromPart part partStatic (← minSampleSize[i]?) (← minPercent[i]?)
      if drafted = nullToken then
        tryDraft ncPrimary ngramsPrimary partStatic minSampleSize minPercent i
      else return drafted

/-- The caches that `common_ngram_cache_draft` reads. -/
structure Caches where
  ncContext : CommonNgramCache
  ncDynamic : CommonNgramCache
  ncStatic : CommonNgramCache

/-- The body of the loop of `common_ngram_cache_draft`: the drafted token. -/
def draftToken (nc : Caches) (inp : List Int32) (ngramMin ngramMax : ℕ) (draft : List Int32) :
    Option Int32 := do
  let ngramStatic ← readNgram inp draft llamaNgramStatic
  let partStatic := (nc.ncStatic.lookup ngramStatic).getD ∅
  let ngramsCd ← (List.range' ngramMin (ngramMax + 1 - ngramMin)).mapM (readNgram inp draft)
  let drafted ← tryDraft nc.ncContext ngramsCd partStatic draftMinSampleSizeLax draftMinPercentLax
    ngramsCd.length
  let drafted ← if drafted = nullToken then
      tryDraft nc.ncDynamic ngramsCd partStatic draftMinSampleSizeStrict draftMinPercentStrict
        ngramsCd.length
    else some drafted
  if drafted = nullToken then tryDraftStatic nc.ncStatic ngramStatic else return drafted

/-- The condition of the loop of `common_ngram_cache_draft`. -/
def drafting (nDraft : Int) (draft : List Int32) : Option Bool :=
  (checkedInt (toInt draft.length - 1)).map (· < nDraft)

/-- The loop of `common_ngram_cache_draft`, at most so many times. -/
def draftLoop (nc : Caches) (inp : List Int32) (nDraft : Int) (ngramMin ngramMax : ℕ) :
    ℕ → List Int32 → Option (List Int32)
  | 0, _ => none
  | n + 1, draft => do
    if ← drafting nDraft draft then
      let drafted ← draftToken nc inp ngramMin ngramMax draft
      if drafted = nullToken then return draft
      else draftLoop nc inp nDraft ngramMin ngramMax n (draft ++ [drafted])
    else return draft

/-- `common_ngram_cache_draft`: the draft that it leaves. -/
def draft (nc : Caches) (inp draft : List Int32) (nDraft : Int) (ngramMin ngramMax : ℕ) :
    Option (List Int32) :=
  if draft.length ≠ 1 then none
  else if toInt inp.length < llamaNgramStatic then some draft
  else draftLoop nc inp nDraft ngramMin ngramMax (nDraft.toNat + 1) draft

/-! ## Files -/

/-- What `common_ngram_cache_save` writes for an n-gram. -/
def saveItem (item : Sigma fun _ : CommonNgram => CommonNgramCachePart) : Option (List UInt8) := do
  let ntokens := Int32.ofNat item.2.entries.length
  if item.2.entries = [] ∨ ntokens ≤ 0 then none
  let counts ← item.2.entries.mapM fun tokenCount =>
    if tokenCount.2 ≤ (0 : Int32) then none
    else some (Format.int32.write tokenCount.1 ++ Format.int32.write tokenCount.2)
  return (Format.int32.vec llamaNgramMax).write item.1.tokens ++
    (Format.int32.write ntokens ++ counts.flatten)

/-- `common_ngram_cache_save`: the bytes of the file. -/
def save (cache : CommonNgramCache) : Option (List UInt8) :=
  (cache.entries.mapM saveItem).map List.flatten

/-- The loop that reads the counts of an n-gram. -/
def loadCounts : ℕ → CommonNgramCachePart → List UInt8 → Option (CommonNgramCachePart × List UInt8)
  | 0, tokenCounts, file => some (tokenCounts, file)
  | n + 1, tokenCounts, file => do
    let (token, file) ← Format.int32.read file
    let (count, file) ← Format.int32.read file
    if count ≤ 0 then none
    loadCounts n (if token ∈ tokenCounts then tokenCounts else tokenCounts.insert token count) file

/-- The loop of `common_ngram_cache_load`, at most so many times: where no whole n-gram is left, it
has come to the end of the file. -/
def loadFrom : ℕ → CommonNgramCache → List UInt8 → Option CommonNgramCache
  | 0, _, _ => none
  | n + 1, cache, file =>
    match (Format.int32.vec llamaNgramMax).read file with
    | none => some cache
    | some (tokens, file) => do
      let (ntokens, file) ← Format.int32.read file
      if ntokens ≤ 0 then none
      let (tokenCounts, file) ← loadCounts ntokens.toInt.toNat ∅ file
      loadFrom n (if ⟨tokens⟩ ∈ cache then cache else cache.insert ⟨tokens⟩ tokenCounts) file

/-- `common_ngram_cache_load`. -/
def load (file : List UInt8) : Option CommonNgramCache := loadFrom (file.length + 1) ∅ file

/-! ## Merging -/

/-- The counts of an n-gram that is in both caches. -/
def mergePart (merged part : CommonNgramCachePart) : Option CommonNgramCachePart :=
  part.entries.foldlM (fun (merged : CommonNgramCachePart) tokenCount =>
    if tokenCount.2 ≤ (0 : Int32) then none
    else match merged.lookup tokenCount.1 with
      | none => some (merged.insert tokenCount.1 tokenCount.2)
      | some count => (addCount count tokenCount.2).map (merged.insert tokenCount.1 ·)) merged

/-- `common_ngram_cache_merge`. -/
def merge (target add : CommonNgramCache) : Option CommonNgramCache :=
  add.entries.foldlM (fun (target : CommonNgramCache) ngramPart =>
    match target.lookup ngramPart.1 with
    | none => some (target.insert ngramPart.1 ngramPart.2)
    | some merged => (mergePart merged ngramPart.2).map (target.insert ngramPart.1 ·)) target

end Ngram

end LamaServer
