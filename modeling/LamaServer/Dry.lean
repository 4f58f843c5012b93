import LamaServer.Lib.SlidingWindow
import LamaServer.Samplers

/-!
# The DRY sampler

`llama_sampler_dry`: which tokens would continue a repetition, and of what length. There is no
result where the ring or a vector throws. The penalties that are then taken off the logits, which are powers of
floats, are left out.
-/

namespace LamaServer

/-- `llama_sampler_dry`. -/
structure LlamaSamplerDry where
  totalContextSize : Int
  dryMultiplier : ℚ
  dryBase : ℚ
  dryAllowedLength : Int
  dryPenaltyLastN : Int
  dryProcessedBreakers : List (Token × List Token)
  dryRepeatCount : List ℕ
  /-- what `find` finds in the map -/
  dryMaxTokenRepeat : Token → Option ℕ
  lastTokens : SizedRing Token

namespace LlamaSamplerDry

variable (rat : ℕ → Option Token)

/-! ## Step 1 -/

/-- Whether the tail of a restart sequence stands behind its head, which is `i` tokens from the
end. -/
def tailMatches (i : ℕ) : ℕ → List Token → Option Bool
  | _, [] => some true
  | offset, t :: tail => do
    let token ← rat (i - offset - 1)
    if t ≠ token then return false
    tailMatches i (offset + 1) tail

/-- The length of the longest restart sequence that starts here, without its head; or -1. -/
def longestMatch (i : ℕ) (tails : List (List Token)) : Option Int :=
  tails.foldlM (fun longest tail =>
    if (tail.length : Int) > longest ∧ tail.length ≤ i then do
      let isMatch ← tailMatches rat i 0 tail
      return if isMatch then tail.length else longest
    else return longest) (-1)

/-- The loop of step 1 from `i` on, with the number of tokens that are left. -/
def repLimit (breakers : List (Token × List Token)) (lastNRepeat : ℕ) : ℕ → ℕ → Option ℕ
  | 0, _ => some lastNRepeat
  | n + 1, i => do
    let token ← rat i
    let longest ← longestMatch rat i ((breakers.filter (·.1 = token)).map (·.2))
    if longest ≥ 0 then return i - longest.toNat
    repLimit breakers lastNRepeat n (i + 1)

/-! ## Step 2 -/

/-- The `while` loops of step 2 by the length `n` of the match at `k`, of which the second one has
the index `n + k`; with the number of tokens that are left. -/
def extendMatch (k : ℕ) : ℕ → ℕ → Option ℕ
  | 0, n => some n
  | left + 1, n => do
    let a ← rat n
    let b ← rat (n + k)
    if a = b then extendMatch k left (n + 1) else return n

/-- What step 2 changes. -/
structure ZState where
  dryRepeatCount : List ℕ
  lt : ℕ
  rt : ℕ
  deriving DecidableEq, Repr

/-- The body of the loop of step 2. -/
def zStep (lastNRepeat repLimit : ℕ) (s : ZState) (k : ℕ) : Option ZState :=
  let last := lastNRepeat - 1
  if k > s.rt then do
    let n ← extendMatch rat k (lastNRepeat - k) 0
    let count := s.dryRepeatCount.set (last - k) (min n repLimit)
    return if n > 0 then ⟨count, k, k + n - 1⟩ else { s with dryRepeatCount := count }
  else do
    let p := k - s.lt
    let rightPartLen := s.rt - k + 1
    let paired ← s.dryRepeatCount[last - p]?
    if paired < rightPartLen then
      return { s with dryRepeatCount := s.dryRepeatCount.set (last - k) (min paired repLimit) }
    else do
      let n ← extendMatch rat k (lastNRepeat - (s.rt + 1)) (s.rt + 1 - k)
      return ⟨s.dryRepeatCount.set (last - k) (min n repLimit), k, n + k - 1⟩

def zLoop (lastNRepeat repLimit : ℕ) : Option ZState :=
  (List.range' 1 (lastNRepeat - 1)).foldlM (zStep rat lastNRepeat repLimit)
    ⟨List.replicate lastNRepeat 0, 0, 0⟩

/-! ## Step 3 -/

/-- The body of the loop of step 3. -/
def recordRepeat (lastNRepeat : ℕ) (dryAllowedLength : Int) (dryRepeatCount : List ℕ)
    (m : Token → Option ℕ) (i : ℕ) : Option (Token → Option ℕ) := do
  let repeatLen ← dryRepeatCount[i]?
  if (repeatLen : Int) ≥ dryAllowedLength then do
    let token ← rat (lastNRepeat - 2 - i)
    return if (m token).all (· < repeatLen) then Function.update m token (some repeatLen) else m
  else return m

def maxTokenRepeat (lastNRepeat : ℕ) (dryAllowedLength : Int) (dryRepeatCount : List ℕ) :
    Option (Token → Option ℕ) :=
  (List.range (lastNRepeat - 1)).foldlM
    (recordRepeat rat lastNRepeat dryAllowedLength dryRepeatCount) fun _ => none

/-- `llama_sampler_dry_apply` up to its step 4. -/
def apply (s : LlamaSamplerDry) : Option LlamaSamplerDry :=
  if s.dryMultiplier = 0 ∨ s.dryBase < 1 ∨ s.dryPenaltyLastN = 0 then some s
  else
    let effectiveLastN :=
      if s.dryPenaltyLastN = -1 then s.totalContextSize else max s.dryPenaltyLastN 0
    let lastNRepeat := min (min (s.lastTokens.sz : Int) effectiveLastN) s.totalContextSize
    if lastNRepeat ≤ s.dryAllowedLength then some s
    else if lastNRepeat < 0 then none
    else
      let n := lastNRepeat.toNat
      let s := { s with
        dryRepeatCount := List.replicate n 0
        dryMaxTokenRepeat := fun _ => none }
      do
        let limit ← repLimit s.lastTokens.rat s.dryProcessedBreakers n n 0
        if (limit : Int) < s.dryAllowedLength then return s
        let z ← zLoop s.lastTokens.rat n limit
        let m ← maxTokenRepeat s.lastTokens.rat n s.dryAllowedLength z.dryRepeatCount
        return { s with dryRepeatCount := z.dryRepeatCount, dryMaxTokenRepeat := m }

end LlamaSamplerDry

end LamaServer
