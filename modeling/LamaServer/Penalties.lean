import LamaServer.Lib.SlidingWindow
import LamaServer.Lib.Transition
import LamaServer.Slot

/-!
# The penalties sampler

`llama_sampler_penalties`: how often each of the last tokens occurred is counted in a map, beside a
ring of these tokens. Logits are of any type that has the operations of `float`.
-/

namespace LamaServer

/-- `llama_sampler_penalties`. -/
structure LlamaSamplerPenalties (F : Type) where
  penaltyLastN : Nat
  penaltyRepeat : F
  penaltyFreq : F
  penaltyPresent : F
  prev : SizedRing Token
  /-- what `find` finds in the map -/
  tokenCount : Token → Option Int

/-- A sampler with, as a ghost, the tokens that it or what it was cloned from has accepted since the
last reset. -/
structure PenaltyInstance (F : Type) where
  sampler : LlamaSamplerPenalties F
  accepted : List Token

/-- What is done with the samplers that there are, which are numbered as they come. -/
inductive PenaltyOp (F : Type) where
  | init (penaltyLastN : Int) (penaltyRepeat penaltyFreq penaltyPresent : F)
  | accept (i : Nat) (token : Token)
  | reset (i : Nat)
  | clone (i : Nat)

variable {F : Type}

namespace LlamaSamplerPenalties

/-- `llama_sampler_init_penalties`. -/
def init (penaltyLastN : Int) (penaltyRepeat penaltyFreq penaltyPresent : F) :
    LlamaSamplerPenalties F where
  penaltyLastN := penaltyLastN.toNat
  penaltyRepeat := penaltyRepeat
  penaltyFreq := penaltyFreq
  penaltyPresent := penaltyPresent
  prev := .new penaltyLastN.toNat 0
  tokenCount := fun _ => none

/-- `llama_sampler_penalties_accept`; the ring throws where it has no front or no capacity. -/
def accept (s : LlamaSamplerPenalties F) (token : Token) : Option (LlamaSamplerPenalties F) :=
  if s.penaltyLastN = 0 then some s
  else do
    let tokenCount := countUp s.tokenCount token
    let tokenCount ←
      if s.prev.sz ≥ s.penaltyLastN then s.prev.front.map (countDown tokenCount)
      else some tokenCount
    if h : 0 < s.prev.capacity then
      some { s with prev := s.prev.pushBack h token, tokenCount := tokenCount }
    else none

section Apply

variable [Add F] [Sub F] [Mul F] [Div F] [IntCast F] [LE F] [DecidableLE F] [DecidableEq F]

/-- `llama_sampler_penalties_apply`. -/
def apply (s : LlamaSamplerPenalties F) (curP : List (Token × F)) : List (Token × F) :=
  if s.penaltyLastN = 0 ∨ s.penaltyRepeat = ((1 : Int) : F) ∧ s.penaltyFreq = ((0 : Int) : F) ∧
      s.penaltyPresent = ((0 : Int) : F) then curP
  else curP.map fun (id, logit) =>
    match s.tokenCount id with
    | none => (id, logit)
    | some count =>
      let logit :=
        if logit ≤ ((0 : Int) : F) then logit * s.penaltyRepeat else logit / s.penaltyRepeat
      let present : Int := if count > 0 then 1 else 0
      (id, logit - ((count : F) * s.penaltyFreq + (present : F) * s.penaltyPresent))

end Apply

/-- `llama_sampler_penalties_reset`. -/
def reset (s : LlamaSamplerPenalties F) : LlamaSamplerPenalties F :=
  { s with prev := s.prev.clear, tokenCount := fun _ => none }

/-- `llama_sampler_penalties_clone`. -/
def clone (s : LlamaSamplerPenalties F) : LlamaSamplerPenalties F :=
  { init s.penaltyLastN s.penaltyRepeat s.penaltyFreq s.penaltyPresent with prev := s.prev }

end LlamaSamplerPenalties

open LlamaSamplerPenalties

/-- One operation; there is none on a sampler that there is not, or that throws. -/
def penaltyStep (s : List (PenaltyInstance F)) : PenaltyOp F → Option (List (PenaltyInstance F))
  | .init penaltyLastN penaltyRepeat penaltyFreq penaltyPresent =>
    some (s ++ [⟨init penaltyLastN penaltyRepeat penaltyFreq penaltyPresent, []⟩])
  | .accept i token => do
    let x ← s[i]?
    let sampler ← x.sampler.accept token
    some (s.set i ⟨sampler, x.accepted ++ [token]⟩)
  | .reset i => s[i]?.map fun x => s.set i ⟨x.sampler.reset, []⟩
  | .clone i => s[i]?.map fun x => s ++ [⟨x.sampler.clone, x.accepted⟩]

end LamaServer
