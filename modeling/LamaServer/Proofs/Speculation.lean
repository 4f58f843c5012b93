import Mathlib.Data.List.Basic
import Mathlib.Logic.Function.Iterate
import LamaServer.Speculation
import LamaServer.Proofs.Generation

/-!
# A draft changes what is generated only through the counters

The text, the stop strings and EOS do not depend on the counters, and the counters only on whether
they are below their limits. So the tokens accepted in a speculative step, processed with the
counters already at the end of the run, are processed as one by one, as long as the limits are not
reached; and a token that ends generation inside the run leaves the counters too far.
-/

namespace LamaServer

namespace GenSlot

variable {cfg : GenConfig} {slot s s' : GenSlot} {p d r : Int}

/-- The slot with other counters. -/
def setCounters (slot : GenSlot) (p d r : Int) : GenSlot :=
  { slot with nPast := p, nDecoded := d, nRemaining := r }

/-! ## The text does not depend on the counters -/

theorem findStoppingStrings_setCounters (text : Text) (n : Nat) (full : Bool) :
    (slot.setCounters p d r).findStoppingStrings text n full =
      ((slot.findStoppingStrings text n full).1.setCounters p d r,
        (slot.findStoppingStrings text n full).2) := by
  have hstep : ∀ (acc : GenSlot × Option Nat) (word : Text),
      stoppingStringStep text n full (acc.1.setCounters p d r, acc.2) word =
        ((stoppingStringStep text n full acc word).1.setCounters p d r,
          (stoppingStringStep text n full acc word).2) := by
    intro acc word
    simp only [stoppingStringStep]
    split
    · split_ifs <;> rfl
    · rfl
  have hfold : ∀ (words : List Text) (acc : GenSlot × Option Nat),
      words.foldl (stoppingStringStep text n full) (acc.1.setCounters p d r, acc.2) =
        ((words.foldl (stoppingStringStep text n full) acc).1.setCounters p d r,
          (words.foldl (stoppingStringStep text n full) acc).2) := by
    intro words
    induction words with
    | nil => exact fun _ => rfl
    | cons word words ih =>
      intro acc
      rw [List.foldl_cons, List.foldl_cons, hstep, ih]
  exact hfold _ (slot, none)

theorem sendText_setCounters (n : Nat) : (slot.setCounters p d r).sendText n =
    ((slot.sendText n).1.setCounters p d r, (slot.sendText n).2) := by
  have hunsent : (slot.setCounters p d r).unsent = slot.unsent := rfl
  simp only [sendText, hunsent, findStoppingStrings_setCounters]
  split
  · rfl
  · split <;> rfl

theorem checkIndent_setCounters :
    (slot.setCounters p d r).checkIndent = slot.checkIndent.setCounters p d r := by
  have hcut : (slot.setCounters p d r).indentCut = slot.indentCut := rfl
  simp only [checkIndent, hcut]
  cases slot.indentCut with
  | none =>
    rw [apply_ite (setCounters · p d r)]
    refine congrArg₂ (ite _) ?_ rfl
    dsimp only [setCounters]
    split <;> rfl
  | some pos =>
    rw [apply_ite (setCounters · p d r)]
    refine congrArg₂ (ite _) ?_ rfl
    dsimp only [setCounters]
    split <;> rfl

theorem checkNewLine_setCounters (text : Text) (late : Bool) :
    (slot.setCounters p d r).checkNewLine text late =
      (slot.checkNewLine text late).setCounters p d r := by
  simp only [checkNewLine, apply_ite (setCounters · p d r)]
  rfl

theorem checkEog_setCounters (tok : Token) :
    (slot.setCounters p d r).checkEog cfg tok = (slot.checkEog cfg tok).setCounters p d r := by
  unfold checkEog
  split_ifs <;> rfl

/-! ## The limits depend on the counters alone -/

/-- The slots agree on what the limits on the counters read. -/
structure SameLimits (slot slot' : GenSlot) : Prop where
  params : slot'.params = slot.params
  nCtx : slot'.nCtx = slot.nCtx
  nPast : slot'.nPast = slot.nPast
  nDecoded : slot'.nDecoded = slot.nDecoded
  nPredict : slot'.nPredict = slot.nPredict
  nPromptTokens : slot'.nPromptTokens = slot.nPromptTokens

theorem SameLimits.trans {s₁ s₂ s₃ : GenSlot} (h : s₁.SameLimits s₂) (h' : s₂.SameLimits s₃) :
    s₁.SameLimits s₃ :=
  ⟨h'.params.trans h.params, h'.nCtx.trans h.nCtx, h'.nPast.trans h.nPast,
    h'.nDecoded.trans h.nDecoded, h'.nPredict.trans h.nPredict,
    h'.nPromptTokens.trans h.nPromptTokens⟩

theorem SameLimits.setCounters (h : s.SameLimits s') (p d r : Int) :
    (s.setCounters p d r).SameLimits (s'.setCounters p d r) :=
  ⟨h.params, h.nCtx, rfl, rfl, h.nPredict, h.nPromptTokens⟩

/-- The limit of the training context is reached. -/
def OverTrain (cfg : GenConfig) (slot : GenSlot) : Prop :=
  slot.params.nPredict < 1 ∧ slot.nPredict < 1 ∧
    cfg.nCtxTrain ≤ slot.nPromptTokens + slot.nDecoded

theorem room_iff : slot.Room cfg ↔
    (slot.hasBudget cfg).2 = true ∧ slot.nPast < slot.nCtx ∧ ¬ slot.OverTrain cfg := Iff.rfl

theorem hasBudget_snd (cfg : GenConfig) (slot : GenSlot) : (slot.hasBudget cfg).2 =
    if slot.params.nPredict = -1 ∧ cfg.nPredict = -1 then true
    else if slot.params.nPredict ≠ -1 then decide (0 < slot.params.nPredict - slot.nDecoded)
    else decide (0 < cfg.nPredict - slot.nDecoded) := by
  unfold hasBudget
  dsimp only
  split_ifs <;> rfl

theorem hasBudget_congr (h : s.SameLimits s') : (s'.hasBudget cfg).2 = (s.hasBudget cfg).2 := by
  rw [hasBudget_snd, hasBudget_snd, h.params, h.nDecoded]

theorem SameLimits.overBudget (h : s.SameLimits s') : s'.OverBudget cfg ↔ s.OverBudget cfg := by
  rw [OverBudget, OverBudget, hasBudget_congr h, h.nDecoded]

theorem SameLimits.overTrain (h : s.SameLimits s') : s'.OverTrain cfg ↔ s.OverTrain cfg := by
  rw [OverTrain, OverTrain, h.params, h.nPredict, h.nPromptTokens, h.nDecoded]

/-- Other counters are beyond the same limits. -/
structure Agree (cfg : GenConfig) (slot : GenSlot) (p d : Int) : Prop where
  budget : (slot.setCounters p d 0).OverBudget cfg ↔ slot.OverBudget cfg
  context : slot.nCtx ≤ p ↔ slot.nCtx ≤ slot.nPast
  train : (slot.setCounters p d 0).OverTrain cfg ↔ slot.OverTrain cfg

theorem Agree.of_sameLimits (h : s.Agree cfg p d) (hs : s.SameLimits s') : s'.Agree cfg p d where
  budget := ((hs.setCounters p d 0).overBudget.trans h.budget).trans hs.overBudget.symm
  context := by
    rw [hs.nCtx, hs.nPast]
    exact h.context
  train := ((hs.setCounters p d 0).overTrain.trans h.train).trans hs.overTrain.symm

theorem agree_self (slot : GenSlot) : slot.Agree cfg slot.nPast slot.nDecoded :=
  have hs : slot.SameLimits (slot.setCounters slot.nPast slot.nDecoded 0) :=
    ⟨rfl, rfl, rfl, rfl, rfl, rfl⟩
  ⟨hs.overBudget, Iff.rfl, hs.overTrain⟩

theorem checkBudget_setCounters (h : slot.Agree cfg p d) : ∃ r',
    (slot.setCounters p d r).checkBudget cfg = (slot.checkBudget cfg).setCounters p d r' := by
  have hover : (slot.setCounters p d r).OverBudget cfg ↔ slot.OverBudget cfg := by
    rw [← h.budget]
    exact SameLimits.overBudget ⟨rfl, rfl, rfl, rfl, rfl, rfl⟩
  have hnext : (slot.setCounters p d r).hasNextToken = slot.hasNextToken := rfl
  obtain ⟨n, ⟨h₁, h₂, heq⟩ | ⟨hno, heq⟩⟩ := checkBudget_eq cfg slot <;>
    obtain ⟨n', ⟨h₁', h₂', heq'⟩ | ⟨hno', heq'⟩⟩ := checkBudget_eq cfg (slot.setCounters p d r)
  · exact ⟨n', by rw [heq, heq']; rfl⟩
  · exact absurd ⟨h₁, hover.2 h₂⟩ hno'
  · exact absurd ⟨h₁', hover.1 h₂'⟩ hno
  · exact ⟨n', by rw [heq, heq']; rfl⟩

theorem checkContext_setCounters (h : slot.nCtx ≤ p ↔ slot.nCtx ≤ slot.nPast) :
    (slot.setCounters p d r).checkContext = slot.checkContext.setCounters p d r := by
  simp only [checkContext, apply_ite (setCounters · p d r)]
  exact if_congr h rfl rfl

theorem checkTrain_setCounters
    (h : (slot.setCounters p d r).OverTrain cfg ↔ slot.OverTrain cfg) :
    (slot.setCounters p d r).checkTrain cfg = (slot.checkTrain cfg).setCounters p d r := by
  simp only [checkTrain, apply_ite (setCounters · p d r)]
  exact if_congr h rfl rfl

theorem checkBudget_sameLimits (cfg : GenConfig) (slot : GenSlot) :
    slot.SameLimits (slot.checkBudget cfg) := by
  obtain ⟨n, ⟨-, -, h⟩ | ⟨-, h⟩⟩ := checkBudget_eq cfg slot <;> rw [h] <;>
    exact ⟨rfl, rfl, rfl, rfl, rfl, rfl⟩

theorem checkIndent_sameLimits (slot : GenSlot) : slot.SameLimits slot.checkIndent := by
  unfold checkIndent
  cases slot.indentCut <;> dsimp only <;> split_ifs <;> (try split) <;>
    exact ⟨rfl, rfl, rfl, rfl, rfl, rfl⟩

theorem checkNewLine_sameLimits (slot : GenSlot) (text : Text) (late : Bool) :
    slot.SameLimits (slot.checkNewLine text late) := by
  unfold checkNewLine
  split_ifs <;> exact ⟨rfl, rfl, rfl, rfl, rfl, rfl⟩

theorem checkContext_sameLimits (slot : GenSlot) : slot.SameLimits slot.checkContext := by
  unfold checkContext
  split_ifs <;> exact ⟨rfl, rfl, rfl, rfl, rfl, rfl⟩

theorem checkEog_sameLimits (cfg : GenConfig) (slot : GenSlot) (tok : Token) :
    slot.SameLimits (slot.checkEog cfg tok) := by
  unfold checkEog
  split_ifs <;> exact ⟨rfl, rfl, rfl, rfl, rfl, rfl⟩

theorem checkTrain_sameLimits (slot : GenSlot) : slot.SameLimits (slot.checkTrain cfg) := by
  unfold checkTrain
  split_ifs <;> exact ⟨rfl, rfl, rfl, rfl, rfl, rfl⟩

theorem sendText_sameLimits (slot : GenSlot) (n : Nat) : slot.SameLimits (slot.sendText n).1 := by
  have hfull : slot.SameLimits (slot.findStoppingStrings slot.unsent n true).1 := by
    obtain ⟨-, h⟩ | ⟨-, word, h⟩ := slot.findStoppingStrings_full slot.unsent n <;> rw [h] <;>
      exact ⟨rfl, rfl, rfl, rfl, rfl, rfl⟩
  unfold sendText
  dsimp only
  split
  · exact ⟨hfull.params, hfull.nCtx, hfull.nPast, hfull.nDecoded, hfull.nPredict,
      hfull.nPromptTokens⟩
  · split
    · exact hfull
    · exact ⟨hfull.params, hfull.nCtx, hfull.nPast, hfull.nDecoded, hfull.nPredict,
        hfull.nPromptTokens⟩

/-- The slot that the limit on the context looks at. -/
theorem checkNewLine_sameLimits' (cfg : GenConfig) (slot : GenSlot) (text : Text) (late : Bool) :
    slot.SameLimits ((slot.checkBudget cfg).checkIndent.checkNewLine text late) :=
  ((checkBudget_sameLimits cfg slot).trans (checkIndent_sameLimits _)).trans
    (checkNewLine_sameLimits _ text late)

theorem checkLimits_sameLimits (slot : GenSlot) (tok : Token) (text : Text) (late : Bool) :
    slot.SameLimits (slot.checkLimits cfg tok text late) :=
  (((checkNewLine_sameLimits' cfg slot text late).trans (checkContext_sameLimits _)).trans
    (checkEog_sameLimits cfg _ tok)).trans (checkTrain_sameLimits _)

theorem checkLimits_setCounters (h : slot.Agree cfg p d) (tok : Token) (text : Text)
    (late : Bool) : ∃ r', (slot.setCounters p d r).checkLimits cfg tok text late =
      (slot.checkLimits cfg tok text late).setCounters p d r' := by
  obtain ⟨r', hbudget⟩ := checkBudget_setCounters (r := r) h
  have hctx := h.of_sameLimits (checkNewLine_sameLimits' cfg slot text late)
  have htrain := h.of_sameLimits (((checkNewLine_sameLimits' cfg slot text late).trans
    (checkContext_sameLimits _)).trans (checkEog_sameLimits cfg _ tok))
  refine ⟨r', ?_⟩
  rw [checkLimits, hbudget, checkIndent_setCounters, checkNewLine_setCounters,
    checkContext_setCounters hctx.context, checkEog_setCounters, checkTrain_setCounters]
  · rfl
  · rw [← htrain.train]
    exact SameLimits.overTrain ⟨rfl, rfl, rfl, rfl, rfl, rfl⟩

/-- Below the limits with more tokens, a slot is below them with fewer. -/
theorem Room.of_le (h : (slot.setCounters p d r).Room cfg) (hp : slot.nPast ≤ p)
    (hd : slot.nDecoded ≤ d) : slot.Room cfg := by
  obtain ⟨hbudget, hpast, htrain⟩ := room_iff.1 h
  refine room_iff.2 ⟨?_, lt_of_le_of_lt hp hpast, fun hover => htrain ?_⟩
  · rw [hasBudget_snd] at hbudget ⊢
    replace hbudget : (if slot.params.nPredict = -1 ∧ cfg.nPredict = -1 then true
        else if slot.params.nPredict ≠ -1 then decide (0 < slot.params.nPredict - d)
        else decide (0 < cfg.nPredict - d)) = true := hbudget
    by_cases hfree : slot.params.nPredict = -1 ∧ cfg.nPredict = -1
    · rw [if_pos hfree]
    · rw [if_neg hfree] at hbudget ⊢
      by_cases hown : slot.params.nPredict ≠ -1
      · rw [if_pos hown] at hbudget ⊢
        exact decide_eq_true (lt_of_lt_of_le (of_decide_eq_true hbudget) (by omega))
      · rw [if_neg hown] at hbudget ⊢
        exact decide_eq_true (lt_of_lt_of_le (of_decide_eq_true hbudget) (by omega))
  · exact ⟨hover.1, hover.2.1, by have := hover.2.2; simp only [setCounters]; omega⟩

theorem Room.not_overBudget (h : slot.Room cfg) : ¬ slot.OverBudget cfg := fun hover => by
  have := hover.2
  rw [h.1] at this
  exact absurd this (by decide)

theorem Room.agree (h : (slot.setCounters p d r).Room cfg) (hp : slot.nPast ≤ p)
    (hd : slot.nDecoded ≤ d) : slot.Agree cfg p d := by
  have hslot := h.of_le hp hd
  have hsame : (slot.setCounters p d r).SameLimits (slot.setCounters p d 0) :=
    ⟨rfl, rfl, rfl, rfl, rfl, rfl⟩
  refine ⟨iff_of_false (fun hover => h.not_overBudget (hsame.overBudget.1 hover))
    hslot.not_overBudget, ?_, iff_of_false (fun hover => h.2.2 (hsame.overTrain.1 hover))
    hslot.2.2⟩
  exact iff_of_false (not_le.2 h.2.1) (not_le.2 hslot.2.1)

theorem Room.of_sameLimits (h : s.Room cfg) (hs : s.SameLimits s') : s'.Room cfg := by
  obtain ⟨hbudget, hpast, htrain⟩ := room_iff.1 h
  exact room_iff.2 ⟨by rw [hasBudget_congr hs, hbudget], by rw [hs.nPast, hs.nCtx]; exact hpast,
    fun hover => htrain (hs.overTrain.1 hover)⟩

/-- A slot with a next token is below the limits. -/
theorem room_of_checkLimits {tok : Token} {text : Text} {late : Bool} (hd : 0 < slot.nDecoded)
    (h : (slot.checkLimits cfg tok text late).hasNextToken = true) : slot.Room cfg := by
  have htrainLimits := ((checkNewLine_sameLimits' cfg slot text late).trans
    (checkContext_sameLimits _)).trans (checkEog_sameLimits cfg _ tok)
  have hbefore := (checkTrain_onlyEnds _).hasNextToken h
  have hcontext := (checkEog_onlyEnds _ tok).hasNextToken hbefore
  have hindent := (checkNewLine_onlyEnds _ text late).hasNextToken
    ((checkContext_onlyEnds _).hasNextToken hcontext)
  have hbudget := (checkIndent_hasNextToken hindent).1
  refine room_iff.2 ⟨?_, ?_, ?_⟩
  · obtain ⟨n, ⟨-, -, heq⟩ | ⟨hno, -⟩⟩ := checkBudget_eq cfg slot
    · rw [heq] at hbudget
      cases hbudget
    · by_contra hover
      exact hno ⟨checkBudget_hasNextToken hbudget, hd, by simpa using hover⟩
  · by_contra hover
    have hlimits := checkNewLine_sameLimits' cfg slot text late
    rw [checkContext, if_pos (by rw [hlimits.nCtx, hlimits.nPast]; omega)] at hcontext
    cases hcontext
  · intro hover
    rw [checkLimits, checkTrain, if_pos (show _ ∧ _ ∧ _ from htrainLimits.overTrain.2 hover)] at h
    cases h

end GenSlot

section Tokens

variable {cfg : GenConfig} {slot : GenSlot} {p d r : Int}

/-- What the limits are checked on. -/
theorem processToken_cases (cfg : GenConfig) (stream late : Bool) (slot : GenSlot) (tok : Token) :
    ∃ (s : GenSlot) (text : Text), slot.SameLimits s ∧
      (processToken cfg stream late slot tok).1 = s.checkLimits cfg tok text late := by
  have happ : slot.SameLimits (slot.appendToken cfg tok) := ⟨rfl, rfl, rfl, rfl, rfl, rfl⟩
  unfold processToken
  dsimp only
  split
  · exact ⟨_, _, happ, rfl⟩
  · exact ⟨_, _, happ.trans (GenSlot.sendText_sameLimits _ _), rfl⟩

theorem processToken_sameLimits (cfg : GenConfig) (stream late : Bool) (slot : GenSlot)
    (tok : Token) : slot.SameLimits (processToken cfg stream late slot tok).1 := by
  obtain ⟨s, text, hs, heq⟩ := processToken_cases cfg stream late slot tok
  rw [heq]
  exact hs.trans (GenSlot.checkLimits_sameLimits _ _ _ _)

theorem processToken_setCounters (h : slot.Agree cfg p d) (stream late : Bool) (tok : Token) :
    ∃ r', (processToken cfg stream late (slot.setCounters p d r) tok).1 =
      (processToken cfg stream late slot tok).1.setCounters p d r' := by
  have happ : slot.SameLimits (slot.appendToken cfg tok) := ⟨rfl, rfl, rfl, rfl, rfl, rfl⟩
  have hcomm : (slot.setCounters p d r).appendToken cfg tok =
      (slot.appendToken cfg tok).setCounters p d r := rfl
  have hinc : ((slot.appendToken cfg tok).setCounters p d r).incomplete =
      (slot.appendToken cfg tok).incomplete := rfl
  unfold processToken
  dsimp only
  rw [hcomm, hinc, GenSlot.sendText_setCounters]
  split
  · exact GenSlot.checkLimits_setCounters (h.of_sameLimits happ) _ _ _
  · exact GenSlot.checkLimits_setCounters
      (h.of_sameLimits (happ.trans (GenSlot.sendText_sameLimits _ _))) _ _ _

theorem room_of_processToken {stream late : Bool} {tok : Token} (hd : 0 < slot.nDecoded)
    (h : (processToken cfg stream late slot tok).1.hasNextToken = true) : slot.Room cfg := by
  obtain ⟨s, text, hs, heq⟩ := processToken_cases cfg stream late slot tok
  rw [heq] at h
  have hroom := GenSlot.room_of_checkLimits (by rw [hs.nDecoded]; exact hd) h
  exact hroom.of_sameLimits ⟨hs.params.symm, hs.nCtx.symm, hs.nPast.symm, hs.nDecoded.symm,
    hs.nPredict.symm, hs.nPromptTokens.symm⟩

end Tokens

/-! ## Generations that differ in what is left of the budget -/

/-- The generations agree on all but `n_remaining`, which only sizes drafts. -/
def Generation.Twin (g g' : Generation) : Prop :=
  ∃ r, g' = { g with slot := { g.slot with nRemaining := r } }

inductive Status.Twin : Status → Status → Prop
  | running {g g' : Generation} : g.Twin g' → Twin (.running g) (.running g')
  | done {g g' : Generation} : g.Twin g' → Twin (.done g) (.done g')
  | failed {g g' : Generation} : g.Twin g' → Twin (.failed g) (.failed g')

variable {env : DecodeEnv} {g g' : Generation} {st st' st'' : Status}

theorem Generation.twin_refl (g : Generation) : g.Twin g := ⟨g.slot.nRemaining, rfl⟩

theorem Status.twin_refl : ∀ st : Status, st.Twin st
  | .running g => .running g.twin_refl
  | .done g => .done g.twin_refl
  | .failed g => .failed g.twin_refl

theorem Generation.Twin.trans {g'' : Generation} (h : g.Twin g') (h' : g'.Twin g'') :
    g.Twin g'' := by
  obtain ⟨r, rfl⟩ := h
  obtain ⟨r', rfl⟩ := h'
  exact ⟨r', rfl⟩

theorem Status.Twin.trans (h : st.Twin st') (h' : st'.Twin st'') : st.Twin st'' := by
  cases h with
  | running h =>
    cases h' with
    | running h' => exact .running (h.trans h')
  | done h =>
    cases h' with
    | done h' => exact .done (h.trans h')
  | failed h =>
    cases h' with
    | failed h' => exact .failed (h.trans h')

theorem Generation.Twin.outcome (h : g.Twin g') (error : Bool) :
    g'.outcome error = g.outcome error := by
  obtain ⟨r, rfl⟩ := h
  rfl

theorem Status.Twin.outcome (h : st.Twin st') : st'.outcome = st.outcome := by
  cases h with
  | running => rfl
  | done h => exact congrArg some (h.outcome false)
  | failed h => exact congrArg some (h.outcome true)

theorem Generation.Twin.process (h : g.Twin g') (env : DecodeEnv) (tok : Token) :
    (g.process env tok).Twin (g'.process env tok) := by
  obtain ⟨r, rfl⟩ := h
  obtain ⟨r', hr'⟩ := processToken_setCounters (r := r) g.slot.agree_self false
    (env.late g.tokens.length) tok
  have hlimits := processToken_sameLimits env.toGenConfig false (env.late g.tokens.length) g.slot
    tok
  refine ⟨r', ?_⟩
  have hslot : (processToken env.toGenConfig false (env.late g.tokens.length)
      { g.slot with nRemaining := r } tok).1 =
      (processToken env.toGenConfig false (env.late g.tokens.length) g.slot tok).1.setCounters
        g.slot.nPast g.slot.nDecoded r' := hr'
  rw [← hlimits.nPast, ← hlimits.nDecoded] at hslot
  simp only [Generation.process, hslot]
  rfl

theorem Generation.Twin.status (h : g.Twin g') : g.status.Twin g'.status := by
  obtain ⟨r, rfl⟩ := h
  unfold Generation.status
  dsimp only
  split_ifs
  · exact .running ⟨r, rfl⟩
  · exact .done ⟨r, rfl⟩

theorem Generation.Twin.step (h : g.Twin g') : (g.step env).Twin (g'.step env) := by
  obtain ⟨r, rfl⟩ := h
  have hshift : GenSlot.shiftContext env { g.slot with nRemaining := r } =
      (g.slot.shiftContext env).map fun slot => { slot with nRemaining := r } := by
    unfold GenSlot.shiftContext
    dsimp only
    split_ifs <;> rfl
  unfold Generation.step
  rw [hshift]
  cases g.slot.shiftContext env with
  | none => exact .failed ⟨r, rfl⟩
  | some slot => exact (Generation.Twin.process ⟨r, rfl⟩ env _).status

theorem Status.Twin.plainStep (h : st.Twin st') :
    (Generation.plainStep env st).Twin (Generation.plainStep env st') := by
  cases h with
  | running h => exact h.step
  | done h => exact .done h
  | failed h => exact .failed h

theorem Status.Twin.plainSteps (h : st.Twin st') (n : Nat) :
    ((Generation.plainStep env)^[n] st).Twin ((Generation.plainStep env)^[n] st') := by
  induction n generalizing st st' with
  | zero => exact h
  | succ n ih => exact ih h.plainStep

/-! ## One speculative step -/

/-- The generation with other counters. -/
def Generation.setCounters (g : Generation) (p d r : Int) : Generation :=
  { g with slot := g.slot.setCounters p d r }

/-- Each token is the sampler's choice after the ones before it. -/
def Chosen (next : List Token → Token) : List Token → List Token → Prop
  | _, [] => True
  | tokens, id :: ids => id = next tokens ∧ Chosen next (tokens ++ [id]) ids

theorem chosen_sampleAndAcceptN (next : List Token → Token) : ∀ (draft tokens : List Token),
    Chosen next tokens (sampleAndAcceptN next tokens draft)
  | [], _ => ⟨rfl, trivial⟩
  | d :: draft, tokens => by
    unfold sampleAndAcceptN
    dsimp only
    split_ifs
    · exact ⟨rfl, trivial⟩
    · exact ⟨rfl, chosen_sampleAndAcceptN next draft _⟩

theorem Generation.status_running (h : g.slot.hasNextToken = true) : g.status = .running g :=
  if_pos h

theorem Generation.status_done (h : g.slot.hasNextToken = false) : g.status = .done g :=
  if_neg (by rw [h]; decide)

theorem plainSteps_done (env : DecodeEnv) (g : Generation) (n : Nat) :
    (Generation.plainStep env)^[n] (.done g) = .done g :=
  Function.iterate_fixed rfl n

/-- A token that is processed with the counters of the end of its run ends generation if and only
if it does with its own, as long as the counters are below the limits at the end. -/
theorem process_ahead {p d r : Int} (hroom : (g.slot.setCounters p d r).Room env.toGenConfig)
    (hp : g.slot.nPast ≤ p) (hd : g.slot.nDecoded ≤ d) (tok : Token) :
    ∃ r', (g.setCounters p d r).process env tok = (g.process env tok).setCounters p d r' := by
  obtain ⟨r', hr'⟩ := processToken_setCounters (r := r) (hroom.agree hp hd) false
    (env.late g.tokens.length) tok
  exact ⟨r', congrArg (fun slot => (⟨slot, g.tokens ++ [tok]⟩ : Generation)) hr'⟩

/-- Below the context limit a plain step decodes and samples without a context shift. -/
theorem step_eq (h : g.slot.nPast + 1 < g.slot.nCtx) : g.step env =
    ((g.setCounters (g.slot.nPast + 1) (g.slot.nDecoded + 1) g.slot.nRemaining).process env
      (env.next g.tokens)).status := by
  unfold Generation.step GenSlot.shiftContext
  rw [if_neg (not_le.2 h)]
  rfl

/-- The tokens of a run, processed at once with the counters of its end, against as many plain
steps: both go on to the same state, or both end at the same token. -/
theorem processAll_ahead {p d r : Int} : ∀ {ids : List Token} {g : Generation},
    Chosen env.next g.tokens ids → g.slot.nPast + ids.length = p →
    g.slot.nDecoded + ids.length = d → (g.slot.setCounters p d r).Room env.toGenConfig →
    ∃ P G, P.tokens = G.tokens ∧ G.slot.nDecoded = d ∧
      (∃ r', G.slot = P.slot.setCounters p d r') ∧
      (((Generation.plainStep env)^[ids.length] (.running g) = .running P ∧
        (g.setCounters p d r).processAll env ids =
          .running G) ∨
      ((Generation.plainStep env)^[ids.length] (.running g) = .done P ∧
        (g.setCounters p d r).processAll env ids =
          .done G)) ∧
      (P.tokens.length = g.tokens.length + ids.length → P.Twin G)
  | [], g, _, hp, hd, _ => by
    obtain rfl : g.slot.nPast = p := by simpa using hp
    obtain rfl : g.slot.nDecoded = d := by simpa using hd
    exact ⟨g, g.setCounters g.slot.nPast g.slot.nDecoded r, rfl, rfl,
      ⟨r, rfl⟩, .inl ⟨rfl, rfl⟩, fun _ => ⟨r, rfl⟩⟩
  | id :: ids, g, hchosen, hp, hd, hroom => by
    obtain ⟨rfl, hchosen⟩ := hchosen
    have hlen : ((env.next g.tokens :: ids).length : Int) = ids.length + 1 := by simp
    have hctx : p < g.slot.nCtx := hroom.2.1
    -- the state after the first token, with its own counters
    let g₁ := g.setCounters (g.slot.nPast + 1) (g.slot.nDecoded + 1) g.slot.nRemaining
    let P₁ := g₁.process env (env.next g.tokens)
    have hlimits : g₁.slot.SameLimits P₁.slot := processToken_sameLimits _ _ _ _ _
    have hp₁ : g₁.slot.nPast = g.slot.nPast + 1 := rfl
    have hd₁ : g₁.slot.nDecoded = g.slot.nDecoded + 1 := rfl
    have hstep : g.step env = P₁.status := step_eq (by omega)
    have hroom₁ : (g₁.slot.setCounters p d r).Room env.toGenConfig := hroom
    obtain ⟨r', hahead⟩ := process_ahead hroom₁ (by omega) (by omega) (env.next g.tokens)
    have hsteps : (Generation.plainStep env)^[(env.next g.tokens :: ids).length] (.running g) =
        (Generation.plainStep env)^[ids.length] P₁.status := by
      rw [List.length_cons, Function.iterate_succ_apply, ← hstep]
      rfl
    have hall : (g.setCounters p d r).processAll env
        (env.next g.tokens :: ids) =
        (P₁.setCounters p d r').status.bind
          fun g => g.processAll env ids :=
      congrArg (fun g : Generation => g.status.bind fun g => g.processAll env ids) hahead
    have htokens : P₁.tokens = g.tokens ++ [env.next g.tokens] := rfl
    rw [hsteps, hall]
    cases hnext : P₁.slot.hasNextToken with
    | true =>
      have hplain : P₁.status = .running P₁ := Generation.status_running hnext
      have hbulk : (P₁.setCounters p d r').status = .running (P₁.setCounters p d r') :=
        Generation.status_running hnext
      have hroom' : (P₁.slot.setCounters p d r').Room env.toGenConfig :=
        hroom₁.of_sameLimits ⟨hlimits.params, hlimits.nCtx, rfl, rfl, hlimits.nPredict,
          hlimits.nPromptTokens⟩
      obtain ⟨P, G, hPG, hGd, hcounters, hboth, htwin⟩ := processAll_ahead (r := r')
        (g := P₁) (htokens ▸ hchosen) (by rw [hlimits.nPast]; omega)
        (by rw [hlimits.nDecoded]; omega) hroom'
      rw [hplain, hbulk]
      refine ⟨P, G, hPG, hGd, hcounters, hboth, fun hPlen => htwin ?_⟩
      rw [hPlen, htokens]
      simp only [List.length_append, List.length_cons, List.length_nil]
      omega
    | false =>
      have hplain : P₁.status = .done P₁ := Generation.status_done hnext
      have hbulk : (P₁.setCounters p d r').status = .done (P₁.setCounters p d r') :=
        Generation.status_done hnext
      rw [hplain, hbulk, plainSteps_done]
      refine ⟨P₁, P₁.setCounters p d r', rfl, rfl, ⟨r', rfl⟩,
        .inr ⟨rfl, rfl⟩, fun hPlen => ⟨r', ?_⟩⟩
      rw [htokens, List.length_append, List.length_cons, List.length_cons, List.length_nil] at hPlen
      have hpast : P₁.slot.nPast = p := by rw [hlimits.nPast]; omega
      have hdecoded : P₁.slot.nDecoded = d := by rw [hlimits.nDecoded]; omega
      rw [← hpast, ← hdecoded]
      rfl

/-! ## The counts of a plain run -/

/-- A step generates one token and counts it, or fails. -/
theorem sample_counts (g : Generation) (env : DecodeEnv) :
    (g.sample env).generation.tokens.length = g.tokens.length + 1 ∧
      (g.sample env).generation.slot.nDecoded = g.slot.nDecoded + 1 ∧
      (g.sample env).generation.slot.params = g.slot.params := by
  let g₁ : Generation := ⟨{ g.slot with nDecoded := g.slot.nDecoded + 1 }, g.tokens⟩
  have hlimits : g₁.slot.SameLimits (g₁.process env (env.next g.tokens)).slot :=
    processToken_sameLimits _ _ _ _ _
  have hgen : (g.sample env).generation = g₁.process env (env.next g.tokens) := by
    unfold Generation.sample Generation.status
    split <;> rfl
  rw [hgen]
  exact ⟨by simp [Generation.process, g₁], hlimits.nDecoded, hlimits.params⟩

theorem shiftContext_counts {slot s : GenSlot} (h : slot.shiftContext env = some s) :
    s.nDecoded = slot.nDecoded ∧ s.params = slot.params := by
  unfold GenSlot.shiftContext at h
  split_ifs at h <;> cases h <;> exact ⟨rfl, rfl⟩

theorem step_counts (g : Generation) (env : DecodeEnv) :
    g.step env = .failed g ∨
      (g.step env).generation.tokens.length = g.tokens.length + 1 ∧
        (g.step env).generation.slot.nDecoded = g.slot.nDecoded + 1 ∧
        (g.step env).generation.slot.params = g.slot.params := by
  unfold Generation.step
  cases hshift : g.slot.shiftContext env with
  | none => exact .inl rfl
  | some slot =>
    obtain ⟨hdecoded, hparams⟩ := shiftContext_counts hshift
    obtain ⟨h₁, h₂, h₃⟩ := sample_counts ⟨{ slot with nPast := slot.nPast + 1 }, g.tokens⟩ env
    exact .inr ⟨h₁, h₂.trans (congrArg (· + 1) hdecoded), h₃.trans hparams⟩

/-- The tokens are counted. -/
def Status.Counted (st : Status) : Prop :=
  st.generation.slot.nDecoded = st.generation.tokens.length

theorem Status.Counted.plainStep (h : st.Counted) :
    (Generation.plainStep env st).Counted := by
  cases st with
  | running g =>
    obtain hfail | ⟨htokens, hdecoded, -⟩ := step_counts g env
    · exact (congrArg Status.Counted hfail).mpr h
    · change (g.step env).generation.slot.nDecoded = (g.step env).generation.tokens.length
      rw [hdecoded, htokens, show g.slot.nDecoded = g.tokens.length from h]
      push_cast
      rfl
  | done g => exact h
  | failed g => exact h

theorem plainStep_params (st : Status) : (Generation.plainStep env st).generation.slot.params =
    st.generation.slot.params := by
  cases st with
  | running g =>
    obtain hfail | ⟨-, -, hparams⟩ := step_counts g env
    · exact congrArg (·.generation.slot.params) hfail
    · exact hparams
  | done g => rfl
  | failed g => rfl

theorem plainSteps_running {n : Nat} (h : (Generation.plainStep env)^[n] (.running g) =
    .running g') : g'.tokens.length = g.tokens.length + n := by
  induction n generalizing g' with
  | zero =>
    cases h
    rfl
  | succ n ih =>
    rw [Function.iterate_succ_apply'] at h
    cases hst : (Generation.plainStep env)^[n] (.running g) with
    | running q =>
      rw [hst] at h
      replace h : q.step env = .running g' := h
      obtain hfail | ⟨htokens, -, -⟩ := step_counts q env
      · rw [hfail] at h
        cases h
      · rw [h] at htokens
        rw [show g'.tokens.length = q.tokens.length + 1 from htokens, ih hst]
        omega
    | done q =>
      rw [hst] at h
      cases h
    | failed q =>
      rw [hst] at h
      cases h

theorem plainSteps_length_le (env : DecodeEnv) (g : Generation) (n : Nat) :
    ((Generation.plainStep env)^[n] (.running g)).generation.tokens.length ≤
      g.tokens.length + n := by
  induction n with
  | zero => exact le_rfl
  | succ n ih =>
    rw [Function.iterate_succ_apply']
    cases hst : (Generation.plainStep env)^[n] (.running g) with
    | running q =>
      rw [hst] at ih
      change (q.step env).generation.tokens.length ≤ _
      obtain hfail | ⟨htokens, -, -⟩ := step_counts q env
      · rw [hfail]
        exact ih.trans (by omega)
      · rw [htokens]
        exact Nat.succ_le_succ ih
    | done q =>
      rw [hst] at ih
      exact ih.trans (by omega)
    | failed q =>
      rw [hst] at ih
      exact ih.trans (by omega)

theorem plainStep_of_not_running (h : st.isRunning = false) : Generation.plainStep env st = st := by
  cases st with
  | running g => cases h
  | done g => rfl
  | failed g => rfl

/-! ## When a speculative step is as many plain steps as it accepts tokens -/

theorem chosen_accepted (env : DecodeEnv) (g : Generation) :
    Chosen env.next g.tokens (g.accepted env) := by
  unfold Generation.accepted
  split_ifs
  · exact chosen_sampleAndAcceptN _ _ _
  · trivial

/-- A step that speculates leaves room for the token that it accepts anyway. -/
theorem nPast_of_accepted (env : DecodeEnv) (hmin : 0 ≤ g.slot.params.speculativeNMin)
    (h : g.accepted env ≠ []) : g.slot.nPast + 1 < g.slot.nCtx := by
  unfold Generation.accepted at h
  split_ifs at h with hspec
  · have hdraft := hspec.2.1
    unfold Generation.nDraftMax at hdraft
    dsimp only at hdraft
    split_ifs at hdraft <;> omega
  · exact absurd rfl h

theorem speculate_eq (g : Generation) (env : DecodeEnv) : g.speculate env =
    (g.setCounters (g.slot.nPast + (g.accepted env).length)
      (g.slot.nDecoded + (g.accepted env).length) g.slot.nRemaining).processAll env
        (g.accepted env) := rfl

theorem Status.bind_running (st : Status) : st.bind .running = st := by
  cases st <;> rfl

theorem speculate_of_smooth (hmin : 0 ≤ g.slot.params.speculativeNMin) (h : g.Smooth env) :
    ((Generation.plainStep env)^[(g.accepted env).length] (.running g)).Twin
      (g.speculate env) := by
  have hchosen := chosen_accepted env g
  rw [speculate_eq]
  by_cases hlong : 2 ≤ (g.accepted env).length
  · obtain ⟨hroom, hrunning⟩ := h.resolve_left (by omega)
    obtain ⟨P, G, -, -, -, hboth, htwin⟩ :=
      processAll_ahead (r := g.slot.nRemaining) hchosen rfl rfl hroom
    -- after all steps but one generation goes on, so all tokens are generated
    have hlength : P.tokens.length = g.tokens.length + (g.accepted env).length := by
      cases hst : (Generation.plainStep env)^[(g.accepted env).length - 1] (.running g) with
      | running q =>
        have hq := plainSteps_running hst
        have hlast : (Generation.plainStep env)^[(g.accepted env).length] (.running g) =
            q.step env := by
          rw [show (g.accepted env).length = (g.accepted env).length - 1 + 1 by omega,
            Function.iterate_succ_apply', hst]
          rfl
        rw [hlast] at hboth
        have hgen : (q.step env).generation = P := by
          obtain ⟨hP, -⟩ | ⟨hP, -⟩ := hboth <;> rw [hP] <;> rfl
        obtain hfail | ⟨htokens, -, -⟩ := step_counts q env
        · rw [hfail] at hboth
          obtain ⟨hP, -⟩ | ⟨hP, -⟩ := hboth <;> cases hP
        · rw [← hgen, htokens, hq]
          omega
      | done q =>
        rw [hst] at hrunning
        cases hrunning
      | failed q =>
        rw [hst] at hrunning
        cases hrunning
    obtain ⟨hP, hG⟩ | ⟨hP, hG⟩ := hboth <;> rw [hP, hG]
    · exact .running (htwin hlength)
    · exact .done (htwin hlength)
  · cases hids : g.accepted env with
    | nil => exact .running ⟨g.slot.nRemaining, by simp [Generation.setCounters,
        GenSlot.setCounters]⟩
    | cons id ids =>
      obtain rfl : ids = [] := List.eq_nil_of_length_eq_zero (by
        rw [hids, List.length_cons] at hlong
        omega)
      have hpast := nPast_of_accepted env hmin (by rw [hids]; exact List.cons_ne_nil _ _)
      rw [hids] at hchosen
      obtain ⟨rfl, -⟩ := hchosen
      have hstep : (Generation.plainStep env)^[1] (.running g) = g.step env := rfl
      rw [show ([env.next g.tokens].length) = 1 from rfl, hstep, step_eq hpast]
      change Status.Twin _ (Status.bind _ .running)
      rw [Status.bind_running]
      exact Status.twin_refl _

/-- Otherwise the slot is released, and has not generated as many tokens as it counts. -/
theorem speculate_of_not_smooth (hcounted : g.slot.nDecoded = g.tokens.length)
    (h : ¬ g.Smooth env) :
    ∃ G, g.speculate env = .done G ∧ G.slot.nDecoded ≠ G.tokens.length := by
  have hchosen := chosen_accepted env g
  obtain ⟨hlong, hrest⟩ := not_or.1 h
  rw [speculate_eq]
  by_cases hroom : (g.slot.setCounters (g.slot.nPast + (g.accepted env).length)
      (g.slot.nDecoded + (g.accepted env).length) g.slot.nRemaining).Room env.toGenConfig
  · obtain ⟨P, G, htokens, hdecoded, -, hboth, -⟩ :=
      processAll_ahead (r := g.slot.nRemaining) hchosen rfl rfl hroom
    -- generation has ended before the last token
    have hstopped : ((Generation.plainStep env)^[(g.accepted env).length - 1]
        (.running g)).isRunning = false := by
      simpa using fun hrunning => hrest ⟨hroom, hrunning⟩
    have hlast : (Generation.plainStep env)^[(g.accepted env).length] (.running g) =
        (Generation.plainStep env)^[(g.accepted env).length - 1] (.running g) := by
      rw [show (g.accepted env).length = (g.accepted env).length - 1 + 1 by omega,
        Function.iterate_succ_apply', plainStep_of_not_running hstopped]
      rfl
    obtain ⟨hP, -⟩ | ⟨hP, hG⟩ := hboth
    · rw [← hlast, hP] at hstopped
      cases hstopped
    · have hle := plainSteps_length_le env g ((g.accepted env).length - 1)
      rw [← hlast, hP] at hle
      replace hle : P.tokens.length ≤ g.tokens.length + ((g.accepted env).length - 1) := hle
      exact ⟨G, hG, by rw [hdecoded, hcounted, ← htokens]; omega⟩
  · -- the first token is processed beyond a limit
    cases hids : g.accepted env with
    | nil =>
      rw [hids] at hlong
      exact absurd (by simp) hlong
    | cons id ids =>
      rw [hids] at hroom hlong
      let g₀ := g.setCounters (g.slot.nPast + (id :: ids).length)
        (g.slot.nDecoded + (id :: ids).length) g.slot.nRemaining
      have hends : (g₀.process env id).slot.hasNextToken = false := by
        by_contra hnext
        exact hroom (room_of_processToken (by
          change 0 < g.slot.nDecoded + ((id :: ids).length : Int)
          omega) (Bool.eq_true_of_not_eq_false hnext))
      have hlimits : g₀.slot.SameLimits (g₀.process env id).slot :=
        processToken_sameLimits _ _ _ _ _
      refine ⟨g₀.process env id, ?_, ?_⟩
      · exact congrArg (Status.bind · _) (Generation.status_done hends)
      · have hlength : (g₀.process env id).tokens.length = g.tokens.length + 1 := by
          simp [Generation.process, g₀, Generation.setCounters]
        rw [hlimits.nDecoded, hlength]
        change g.slot.nDecoded + ((id :: ids).length : Int) ≠ _
        omega

/-! ## Whole runs -/

theorem outcome_of_running (st : Status) : st.isRunning = true ↔ st.outcome = none := by
  cases st <;> simp [Status.isRunning, Status.outcome]

theorem plainAt_succ (g : Generation) (n : Nat) :
    g.plainAt env (n + 1) = Generation.plainStep env (g.plainAt env n) :=
  Function.iterate_succ_apply' _ _ _

theorem plainAt_add (g : Generation) (n k : Nat) :
    g.plainAt env (n + k) = (Generation.plainStep env)^[k] (g.plainAt env n) := by
  rw [Generation.plainAt, Nat.add_comm, Function.iterate_add_apply]
  rfl

theorem specAt_eq (g : Generation) (n : Nat) :
    g.specAt env n = (g.beforeSpec env n).bind (Generation.speculate env) := by
  cases n with
  | zero => rfl
  | succ n => exact Function.iterate_succ_apply' _ _ _

theorem plainAt_params (g : Generation) (n : Nat) :
    (g.plainAt env n).generation.slot.params = g.slot.params := by
  induction n with
  | zero => exact (sample_counts g env).2.2
  | succ n ih => rw [plainAt_succ, plainStep_params, ih]

theorem sample_counted (slot : GenSlot) : ((Generation.start slot).sample env).Counted := by
  obtain ⟨htokens, hdecoded, -⟩ := sample_counts (.start slot) env
  rw [Status.Counted, hdecoded, htokens]
  rfl

theorem plainAt_counted (slot : GenSlot) (n : Nat) :
    ((Generation.start slot).plainAt env n).Counted := by
  induction n with
  | zero => exact sample_counted slot
  | succ n ih =>
    rw [plainAt_succ]
    exact ih.plainStep

theorem Status.Twin.generation (h : st.Twin st') : st.generation.Twin st'.generation := by
  cases h <;> assumption

theorem Status.Counted.of_outcome (h : st.Counted)
    (heq : st.generation.outcome false = st'.generation.outcome false) : st'.Counted := by
  have htokens : st.generation.tokens = st'.generation.tokens := congrArg Outcome.tokens heq
  have hdecoded : st.generation.slot.nDecoded = st'.generation.slot.nDecoded :=
    congrArg Outcome.nDecoded heq
  rw [Status.Counted, ← htokens, ← hdecoded]
  exact h

/-- Speculation goes on with the plain run. -/
theorem bind_speculate {n : Nat} (hmin : 0 ≤ g.slot.params.speculativeNMin)
    (htwin : (g.plainAt env n).Twin st) (hsmooth : ∀ q, st = .running q → q.Smooth env) :
    ∃ k, n ≤ k ∧ (g.plainAt env k).Twin (st.bind (Generation.speculate env)) := by
  cases st with
  | running q =>
    obtain ⟨r, hq⟩ := htwin.generation
    have hparams : q.slot.params = g.slot.params := by
      rw [show q = _ from hq]
      exact plainAt_params g n
    have hstep := speculate_of_smooth (hparams ▸ hmin) (hsmooth q rfl)
    refine ⟨n + (q.accepted env).length, Nat.le_add_right _ _, ?_⟩
    rw [plainAt_add]
    exact (htwin.plainSteps _).trans hstep
  | done q => exact ⟨n, le_rfl, htwin⟩
  | failed q => exact ⟨n, le_rfl, htwin⟩

/-- After `n` iterations with a draft model, generation is where it is after at least `n` without
one. -/
theorem specAt_twin (hmin : 0 ≤ g.slot.params.speculativeNMin)
    (hsmooth : ∀ n q, g.beforeSpec env n = .running q → q.Smooth env) (n : Nat) :
    ∃ k, n ≤ k ∧ (g.plainAt env k).Twin (g.specAt env n) := by
  induction n with
  | zero => exact bind_speculate hmin (n := 0) (Status.twin_refl _) (hsmooth 0)
  | succ n ih =>
    obtain ⟨k, hk, htwin⟩ := ih
    have hnext : (g.plainAt env (k + 1)).Twin (g.beforeSpec env (n + 1)) := by
      rw [plainAt_succ]
      exact htwin.plainStep
    obtain ⟨k', hk', hspec⟩ := bind_speculate hmin hnext (hsmooth (n + 1))
    rw [specAt_eq]
    exact ⟨k', by omega, hspec⟩

theorem plainAt_of_outcome {k n : Nat} {o : Outcome} (hle : k ≤ n)
    (h : (g.plainAt env k).outcome = some o) : g.plainAt env n = g.plainAt env k := by
  obtain ⟨i, rfl⟩ := Nat.exists_eq_add_of_le hle
  have hstopped : (g.plainAt env k).isRunning = false := by
    rw [Bool.eq_false_iff, Ne, outcome_of_running, h]
    exact Option.some_ne_none o
  rw [plainAt_add]
  exact Function.iterate_fixed (plainStep_of_not_running hstopped) i

theorem sameGeneration_of_smooth (hmin : 0 ≤ g.slot.params.speculativeNMin)
    (hsmooth : ∀ n q, g.beforeSpec env n = .running q → q.Smooth env) :
    SameGeneration env g where
  onTheWay n := by
    obtain ⟨k, -, htwin⟩ := specAt_twin hmin hsmooth n
    exact ⟨k, (htwin.generation.outcome false).symm⟩
  atTheEnd o := by
    constructor
    · rintro ⟨n, hn⟩
      obtain ⟨k, -, htwin⟩ := specAt_twin hmin hsmooth n
      exact ⟨k, by rw [← htwin.outcome, hn]⟩
    · rintro ⟨k, hk⟩
      -- `k` iterations with a draft model are not behind `k` without one
      obtain ⟨n, hle, htwin⟩ := specAt_twin hmin hsmooth k
      exact ⟨k, by rw [htwin.outcome, plainAt_of_outcome hle hk, hk]⟩

theorem beforeSpec_counted {slot : GenSlot} (h : SameGeneration env (.start slot)) (n : Nat) :
    ((Generation.start slot).beforeSpec env n).Counted := by
  cases n with
  | zero => exact sample_counted slot
  | succ n =>
    obtain ⟨k, hk⟩ := h.onTheWay n
    exact ((plainAt_counted slot k).of_outcome hk).plainStep

theorem speculation_iff (env : DecodeEnv) (slot : GenSlot)
    (hmin : 0 ≤ slot.params.speculativeNMin) :
    SameGeneration env (.start slot) ↔
      ∀ n g, (Generation.start slot).beforeSpec env n = .running g → g.Smooth env := by
  refine ⟨fun h n g hg => ?_, sameGeneration_of_smooth hmin⟩
  by_contra hnot
  have hcounted : (Status.running g).Counted := hg ▸ beforeSpec_counted h n
  obtain ⟨G, hG, hne⟩ := speculate_of_not_smooth hcounted hnot
  obtain ⟨k, hk⟩ := h.onTheWay n
  have hspec : (Generation.start slot).specAt env n = .done G := by
    rw [specAt_eq, hg]
    exact hG
  have hends := (plainAt_counted slot k).of_outcome hk
  rw [hspec] at hends
  exact hne hends

theorem beforeSpec_of_stopped {n : Nat} (h : (g.beforeSpec env (n + 1)).isRunning = false) :
    g.beforeSpec env (n + 2) = g.beforeSpec env (n + 1) := by
  have hspec : g.specAt env (n + 1) = g.beforeSpec env (n + 1) := by
    rw [specAt_eq]
    cases hst : g.beforeSpec env (n + 1) with
    | running q =>
      rw [hst] at h
      cases h
    | done q => rfl
    | failed q => rfl
  change Generation.plainStep env (g.specAt env (n + 1)) = _
  rw [hspec, plainStep_of_not_running h]

/-- Token 1 three times and then an end of generation, which the draft model does not foresee. -/
def threeOnes : DecodeEnv where
  piece _ := [97]
  isEog tok := tok = 2
  nCtxTrain := 4096
  next tokens := if tokens.length < 3 then 1 else 2
  draft _ := [1]
  late _ := false
  ctxShift := false
  addBosToken := 0
  hasDraft := true

def draftSlot (nPredict : Int) : GenSlot where
  id := 0
  nCtx := 512
  nPast := 1
  params := { nPredict := nPredict }

theorem speculation_iff_threeOnes : SameGeneration threeOnes (.start (draftSlot (-1))) := by
  refine (speculation_iff threeOnes (draftSlot (-1)) (by decide)).2 fun n g hg => ?_
  have hends : ((Generation.start (draftSlot (-1))).beforeSpec threeOnes 1).isRunning = false := by
    decide
  have hstays : ∀ n, (Generation.start (draftSlot (-1))).beforeSpec threeOnes (n + 1) =
      (Generation.start (draftSlot (-1))).beforeSpec threeOnes 1 := by
    intro n
    induction n with
    | zero => rfl
    | succ n ih => rw [← ih, beforeSpec_of_stopped (by rw [ih, hends])]
  cases n with
  | zero =>
    have hfirst : ((Generation.start (draftSlot (-1))).beforeSpec threeOnes 0).generation.Smooth
        threeOnes := by
      unfold Generation.Smooth GenSlot.Room
      decide
    rw [hg] at hfirst
    exact hfirst
  | succ n =>
    rw [hstays] at hg
    rw [hg] at hends
    cases hends

/-- Of a budget of three tokens two are generated, because the counts are advanced before. -/
theorem not_speculationLaw : ¬ SpeculationLaw := by
  intro h
  obtain ⟨k, hk⟩ := (h threeOnes (draftSlot 3) (by decide)).onTheWay 0
  have hcounted := (plainAt_counted (draftSlot 3) k).of_outcome hk
  have hcount : ((Generation.start (draftSlot 3)).specAt threeOnes 0).generation.slot.nDecoded ≠
      ((Generation.start (draftSlot 3)).specAt threeOnes 0).generation.tokens.length := by
    decide
  exact hcount hcounted

end LamaServer
