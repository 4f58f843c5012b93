import Mathlib.Algebra.Order.Ring.Rat
import LamaServer.Lib.BucketSort
import LamaServer.Slot

/-!
# Samplers

The samplers `logit-bias` and `top-k`, over candidates whose logits are exact.
-/

namespace LamaServer

/-- `llama_token_data`. -/
structure LlamaTokenData where
  id : Token
  logit : ℚ
  p : ℚ
  deriving DecidableEq, Repr

/-- `llama_logit_bias`. -/
structure LlamaLogitBias where
  token : Token
  bias : ℚ
  deriving DecidableEq, Repr

/-! ## Logit biases -/

def LlamaTokenData.addBias (c : LlamaTokenData) (lb : LlamaLogitBias) : LlamaTokenData :=
  { c with logit := c.logit + lb.bias }

/-- The token stands at its own index. -/
def NotShuffled (curP : List LlamaTokenData) (token : Token) : Prop :=
  0 ≤ token ∧ (curP[token.toNat]?).any (·.id = token)

instance (curP : List LlamaTokenData) (token : Token) : Decidable (NotShuffled curP token) :=
  inferInstanceAs (Decidable (_ ∧ _))

/-- The first loop: the candidates, and `to_search`. -/
def updateNotShuffled (curP : List LlamaTokenData) :
    List LlamaLogitBias → List LlamaTokenData × List LlamaLogitBias
  | [] => (curP, [])
  | lb :: logitBias =>
    if NotShuffled curP lb.token then
      updateNotShuffled (curP.modify lb.token.toNat (·.addBias lb)) logitBias
    else
      let r := updateNotShuffled curP logitBias
      (r.1, lb :: r.2)

/-- One round of the second loop: the search stops at the first bias. -/
def searchBias (toSearch : List LlamaLogitBias) (c : LlamaTokenData) : LlamaTokenData :=
  match toSearch.find? fun lb => c.id = lb.token with
  | some lb => c.addBias lb
  | none => c

/-- `llama_sampler_logit_bias_apply`. -/
def logitBiasApply (logitBias : List LlamaLogitBias) (curP : List LlamaTokenData) :
    List LlamaTokenData :=
  if logitBias = [] then curP
  else
    let (curP, toSearch) := updateNotShuffled curP logitBias
    if toSearch = [] then curP else curP.map (searchBias toSearch)

/-! ## Top-k -/

open BucketSort

/-- `llama_token_data_array`, of the tokens of a vocabulary, whose number is an `int32_t`. -/
structure LlamaTokenDataArray where
  data : List LlamaTokenData
  sorted : Bool
  size_lt : data.length < 2 ^ 31

/-- What an element of a new vector is. -/
instance instInhabitedTokenData : Inhabited LlamaTokenData := ⟨⟨0, 0, 0⟩⟩

/-- `comp`. -/
def comp (a b : LlamaTokenData) : Bool := a.logit > b.logit

def nbuckets : ℕ := 128
def bucketLow : ℚ := -10
def bucketHigh : ℚ := 10
def bucketScale : ℚ := nbuckets / (bucketHigh - bucketLow)
def bucketInter : ℚ := -bucketLow * bucketScale

/-- The conversion to `int` drops the fraction, and is undefined where the rest is not an `int`. -/
def truncToInt (q : ℚ) : Option ℤ :=
  let n := if 0 ≤ q then q.floor else q.ceil
  if -2 ^ 31 ≤ n ∧ n < 2 ^ 31 then some n else none

/-- An element of `bucket_idx`. -/
def bucketIdx (val : ℚ) : Option ℕ :=
  (truncToInt (bucketScale * val + bucketInter)).map fun ib =>
    (max 0 (min ((nbuckets : ℤ) - 1) ib)).toNat

/-- `histo`. -/
def countBuckets (idx : List ℕ) : List ℕ :=
  idx.foldl (fun histo ib => histo.modify ib (· + 1)) (List.replicate nbuckets 0)

/-- The loop that goes down to the bucket `ib` of the last candidate to keep, with `nhave`. -/
def findCut (histo : List ℕ) (k : ℕ) : ℕ → ℕ → Option (ℕ × ℕ)
  | 0, _ => none
  | ib + 1, nhave =>
    let nhave := nhave + histo.getD ib 0
    if k ≤ nhave then some (ib, nhave) else findCut histo k ib nhave

/-- A candidate is written through the pointer of its bucket. -/
def scatterToken (ib : ℕ) (s : Scatter LlamaTokenData) (c : LlamaTokenData × ℕ) :
    Option (Scatter LlamaTokenData) :=
  if ib ≤ c.2 then s.put (nbuckets - 1 - c.2) c.1 else some s

/-- The bucket sort: the candidates are copied back from `tmp_tokens`. -/
def bucketTopK (std : StdSort) (part : StdPartialSort) (data : List LlamaTokenData) (k : ℕ) :
    Option (List LlamaTokenData) := do
  let idx ← data.mapM fun c => bucketIdx c.logit
  let histo := countBuckets idx
  let (ib, nhave) ← findCut histo k nbuckets 0
  let lens := (histo.drop ib).reverse
  let s ← (data.zip idx).foldlM (scatterToken ib) ⟨List.replicate nhave default, startPtrs 0 lens⟩
  let (tmpTokens, ndone) := sortRanges (std.sort comp) lens.dropLast 0 s.cells
  let tmpTokens := sortRange (part.sort comp (k - ndone)) ndone (ndone + histo.getD ib 0) tmpTokens
  return tmpTokens.take k ++ data.drop k

/-- `llama_sampler_top_k_impl`: the candidates, and whether they are sorted. -/
def topK (std : StdSort) (part : StdPartialSort) (curP : LlamaTokenDataArray) (k : ℤ) :
    Option (List LlamaTokenData × Bool) :=
  if k ≤ 0 then some (curP.data, curP.sorted)
  else do
    let k := (min k curP.data.length).toNat
    if curP.sorted then return (curP.data.take k, true)
    let data ← if k ≤ 128 then some (part.sort comp k curP.data)
      else bucketTopK std part curP.data k
    return (data.take k, true)

end LamaServer
