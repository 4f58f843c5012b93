import LamaServer.Penalties

/-!
# What a penalties sampler counts

The map has the tokens of the ring, and the ring the last ones that were accepted. A clone has the
ring of its source and an empty map, and counts from there.
-/

namespace LamaServer

open Transition

variable {F : Type}

/-- The tokens that count. -/
def PenaltyInstance.window (x : PenaltyInstance F) : List Token :=
  x.accepted.rtake x.sampler.penaltyLastN

/-- The ring has the window, and the map how often each token occurs in it. -/
structure PenaltyInstance.Exact (x : PenaltyInstance F) : Prop where
  capacity : x.sampler.prev.capacity = x.sampler.penaltyLastN
  ring : x.sampler.prev.toList = x.window
  counts : Counts x.sampler.tokenCount x.window

namespace LlamaSamplerPenalties

variable {s s' : LlamaSamplerPenalties F} {accepted : List Token} {token : Token}

theorem init_exact (penaltyLastN : Int) (penaltyRepeat penaltyFreq penaltyPresent : F) :
    PenaltyInstance.Exact ⟨init penaltyLastN penaltyRepeat penaltyFreq penaltyPresent, []⟩ where
  capacity := rfl
  ring := by
    rw [PenaltyInstance.window, List.rtake_nil]
    rfl
  counts := by
    rw [PenaltyInstance.window, List.rtake_nil]
    exact Counts.nil

theorem reset_exact (h : PenaltyInstance.Exact ⟨s, accepted⟩) :
    PenaltyInstance.Exact ⟨s.reset, []⟩ where
  capacity := h.capacity
  ring := by
    rw [PenaltyInstance.window, List.rtake_nil]
    rfl
  counts := by
    rw [PenaltyInstance.window, List.rtake_nil]
    exact Counts.nil

/-- A clone is exact if there is nothing to count. -/
theorem clone_exact (h : PenaltyInstance.Exact ⟨s, accepted⟩) (hempty : s.prev.sz = 0) :
    PenaltyInstance.Exact ⟨s.clone, accepted⟩ where
  capacity := h.capacity
  ring := h.ring
  counts := by
    have hnil : PenaltyInstance.window ⟨s.clone, accepted⟩ = [] :=
      h.ring.symm.trans (s.prev.toList_eq_nil.2 hempty)
    rw [hnil]
    exact Counts.nil

theorem accept_exact (h : PenaltyInstance.Exact ⟨s, accepted⟩)
    (haccept : s.accept token = some s') :
    PenaltyInstance.Exact ⟨s', accepted ++ [token]⟩ := by
  obtain ⟨hcapacity, hring, hcounts⟩ := h
  dsimp only at hcapacity hring hcounts
  rw [accept] at haccept
  by_cases hzero : s.penaltyLastN = 0
  · rw [if_pos hzero] at haccept
    cases haccept
    have hnil : ∀ l, PenaltyInstance.window ⟨s, l⟩ = [] := fun l => by
      rw [PenaltyInstance.window, hzero, List.rtake_zero]
    rw [hnil] at hring hcounts
    exact ⟨hcapacity, hring.trans (hnil _).symm, (hnil _).symm ▸ hcounts⟩
  rw [if_neg hzero] at haccept
  have hpos : 0 < s.prev.capacity := by omega
  have hlen : (PenaltyInstance.window ⟨s, accepted⟩).length = s.prev.sz := by
    rw [← hring, SizedRing.length_toList]
  have hslide : (accepted ++ [token]).rtake s.penaltyLastN =
      (if s.prev.sz = s.penaltyLastN then (PenaltyInstance.window ⟨s, accepted⟩).tail
        else PenaltyInstance.window ⟨s, accepted⟩) ++ [token] := by
    rw [rtake_concat (Nat.pos_of_ne_zero hzero), ← hlen]
    rfl
  have hle := s.prev.sz_le
  have hup := hcounts.up token
  by_cases hfull : s.prev.sz = s.penaltyLastN
  · -- the oldest token leaves the window
    obtain ⟨old, rest, hold⟩ : ∃ old rest, PenaltyInstance.window ⟨s, accepted⟩ = old :: rest :=
      List.exists_cons_of_length_pos (by omega)
    have hfront : s.prev.front = some old := by
      rw [s.prev.front_eq_head? hpos, hring, hold]
      rfl
    rw [if_pos hfull.ge, hfront] at haccept
    simp only [Option.map_some, Option.bind_eq_bind, Option.bind_some, dif_pos hpos] at haccept
    cases haccept
    rw [if_pos hfull, hold, List.tail_cons] at hslide
    rw [hold] at hup hring
    refine ⟨hcapacity, ?_, ?_⟩
    · rw [SizedRing.toList_pushBack, if_pos (hfull.trans hcapacity.symm), hring]
      exact hslide.symm
    · rw [PenaltyInstance.window, hslide]
      exact hup.down
  · rw [if_neg (by omega)] at haccept
    simp only [Option.bind_eq_bind, Option.bind_some, dif_pos hpos] at haccept
    cases haccept
    rw [if_neg hfull] at hslide
    refine ⟨hcapacity, ?_, ?_⟩
    · rw [SizedRing.toList_pushBack, if_neg (by omega), hring]
      exact hslide.symm
    · rw [PenaltyInstance.window, hslide]
      exact hup

/-- What the parameters of a sampler are. -/
def params (s : LlamaSamplerPenalties F) : Nat × F × F × F :=
  (s.penaltyLastN, s.penaltyRepeat, s.penaltyFreq, s.penaltyPresent)

section Apply

variable [Add F] [Sub F] [Mul F] [Div F] [IntCast F] [LE F] [DecidableLE F] [DecidableEq F]

/-- Samplers with the same parameters and the same map penalize alike. -/
theorem apply_congr (hparams : s.params = s'.params) (hcount : s.tokenCount = s'.tokenCount)
    (curP : List (Token × F)) : s.apply curP = s'.apply curP := by
  obtain ⟨hlastN, hrepeat, hfreq, hpresent⟩ : s.penaltyLastN = s'.penaltyLastN ∧
      s.penaltyRepeat = s'.penaltyRepeat ∧ s.penaltyFreq = s'.penaltyFreq ∧
      s.penaltyPresent = s'.penaltyPresent := by
    simpa only [params, Prod.mk.injEq] using hparams
  rw [apply, apply, hlastN, hrepeat, hfreq, hpresent, hcount]

end Apply

end LlamaSamplerPenalties

open LlamaSamplerPenalties

/-! ## Runs -/

section Runs

variable {s s' : List (PenaltyInstance F)} {op : PenaltyOp F}

/-- What is cloned has an empty ring. -/
def PenaltyOp.Fresh (s : List (PenaltyInstance F)) : PenaltyOp F → Prop
  | .clone i => (s[i]?).all fun x => x.sampler.prev.sz = 0
  | _ => True

instance (s : List (PenaltyInstance F)) : ∀ op : PenaltyOp F, Decidable (op.Fresh s)
  | .clone _ => inferInstanceAs (Decidable (_ = true))
  | .init .. | .accept .. | .reset _ => inferInstanceAs (Decidable True)

theorem penaltyStep_exact (h : ∀ x ∈ s, x.Exact) (hfresh : op.Fresh s)
    (hs : penaltyStep s op = some s') : ∀ x ∈ s', x.Exact := by
  have hset : ∀ {i : Nat} {y : PenaltyInstance F}, y.Exact → ∀ x ∈ s.set i y, x.Exact :=
    fun hy x hx => (List.mem_or_eq_of_mem_set hx).elim (h x) fun heq => heq ▸ hy
  have happend : ∀ {y : PenaltyInstance F}, y.Exact → ∀ x ∈ s ++ [y], x.Exact := fun hy x hx =>
    (List.mem_append.1 hx).elim (h x) fun hx => List.mem_singleton.1 hx ▸ hy
  cases op with
  | init penaltyLastN penaltyRepeat penaltyFreq penaltyPresent =>
    cases hs
    exact happend (init_exact _ _ _ _)
  | accept i token =>
    simp only [penaltyStep, Option.bind_eq_bind, Option.bind_eq_some_iff] at hs
    obtain ⟨x, hx, sampler, hsampler, hs⟩ := hs
    cases hs
    exact hset (accept_exact (h x (List.mem_of_getElem? hx)) hsampler)
  | reset i =>
    obtain ⟨x, hx, rfl⟩ := Option.map_eq_some_iff.1 hs
    exact hset (reset_exact (h x (List.mem_of_getElem? hx)))
  | clone i =>
    obtain ⟨x, hx, rfl⟩ := Option.map_eq_some_iff.1 hs
    have hempty : x.sampler.prev.sz = 0 := by simpa [PenaltyOp.Fresh, hx] using hfresh
    exact happend (clone_exact (h x (List.mem_of_getElem? hx)) hempty)

end Runs

section Law

variable [Add F] [Sub F] [Mul F] [Div F] [IntCast F] [LE F] [DecidableLE F] [DecidableEq F]

/-- Each sampler counts the last tokens of its history, and those with the same parameters and
history penalize alike. -/
structure CountsExactly (s : List (PenaltyInstance F)) : Prop where
  counts : ∀ x ∈ s, Counts x.sampler.tokenCount
    (x.accepted.rtake (min x.sampler.penaltyLastN x.accepted.length))
  alike : ∀ x ∈ s, ∀ y ∈ s, x.sampler.params = y.sampler.params → x.accepted = y.accepted →
    ∀ curP, x.sampler.apply curP = y.sampler.apply curP

theorem countsExactly_of_exact {s : List (PenaltyInstance F)} (h : ∀ x ∈ s, x.Exact) :
    CountsExactly s := by
  have hcounts : ∀ x ∈ s, Counts x.sampler.tokenCount x.window := fun x hx => (h x hx).counts
  refine ⟨fun x hx => ?_, fun x hx y hy hparams haccepted => apply_congr hparams ?_⟩
  · have hwindow : x.accepted.rtake (min x.sampler.penaltyLastN x.accepted.length) = x.window := by
      rw [PenaltyInstance.window, List.rtake, List.rtake]
      congr 1
      omega
    rw [hwindow]
    exact hcounts x hx
  · have hlastN := congrArg Prod.fst hparams
    have hwindow : x.window = y.window := by
      rw [PenaltyInstance.window, PenaltyInstance.window, haccepted]
      exact congrArg _ hlastN
    funext token
    rw [hcounts x hx token, hcounts y hy token, hwindow]

/-- The samplers count exactly in every run. -/
def PenaltyLaw (F : Type) [Add F] [Sub F] [Mul F] [Div F] [IntCast F] [LE F] [DecidableLE F]
    [DecidableEq F] : Prop :=
  ∀ s : List (PenaltyInstance F),
    Reachable (· = []) (fun s op s' => penaltyStep s op = some s') s → CountsExactly s

/-- The law holds in the runs in which nothing is cloned that has tokens to count. -/
theorem penalties_countExactly {s : List (PenaltyInstance F)}
    (h : Reachable (· = []) (Guarded (fun s op => op.Fresh s)
      fun s op s' => penaltyStep s op = some s') s) : CountsExactly s := by
  refine countsExactly_of_exact (h.invariant (I := fun s => ∀ x ∈ s, x.Exact) ?_ ?_)
  · rintro _ rfl
    exact List.forall_mem_nil _
  · exact fun s op s' hexact hs => penaltyStep_exact hexact hs.1 hs.2

end Law

/-- A window of two tokens slides in a clone and in its source. -/
def slidingOps : List (PenaltyOp Int) :=
  [.init 2 2 1 0, .clone 0, .accept 0 5, .accept 0 5, .accept 0 7, .accept 1 9]

theorem penalties_countExactly_sliding : ∃ s : List (PenaltyInstance Int),
    s.map (fun x => x.sampler.tokenCount 5) = [some 1, none] ∧ CountsExactly s := by
  have hrun : ((exec (fun s op => if op.Fresh s then penaltyStep s op else none) []
      slidingOps).map fun s => s.map fun x => x.sampler.tokenCount 5) =
        some [some 1, none] := by
    decide
  obtain ⟨s, hs, hcount⟩ := Option.map_eq_some_iff.1 hrun
  exact ⟨s, hcount, penalties_countExactly ⟨[], slidingOps, rfl, guarded_run_of_exec hs⟩⟩

/-- A clone does not count the token that its source has accepted. -/
theorem not_penaltyLaw : ¬ PenaltyLaw Int := by
  intro h
  have hrun : ((exec penaltyStep [] [.init 2 (2 : Int) 1 0, .accept 0 5, .clone 0]).bind
      (·[1]?)).map (fun x => (x.sampler.tokenCount 5, x.accepted, x.sampler.penaltyLastN)) =
        some (none, [5], 2) := by
    decide
  obtain ⟨x, hx, hcount⟩ := Option.map_eq_some_iff.1 hrun
  obtain ⟨s, hs, hx⟩ := Option.bind_eq_some_iff.1 hx
  simp only [Prod.mk.injEq] at hcount
  have hexact := (h s ⟨[], _, rfl, run_of_exec hs⟩).counts x (List.mem_of_getElem? hx) 5
  rw [hcount.1, hcount.2.1, hcount.2.2] at hexact
  cases hexact

end LamaServer
