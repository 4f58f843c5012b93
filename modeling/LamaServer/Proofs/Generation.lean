import Mathlib.Data.List.Basic
import LamaServer.Generation

/-!
# What a streaming client gets

What was sent is always a prefix of the generated text, and while generation goes on the rest is
sent sooner or later. The last token decides: what it holds back is never sent, and what the limit
on the indentation cuts may have been.
-/

namespace LamaServer

variable {cfg : GenConfig} {slot s s' : GenSlot} {tok : Token} {n : Nat}

namespace GenSlot

/-! ## Stop strings -/

/-- What the search for stop strings does to a slot: nothing, or it stops it. -/
def StoppedBy (slot slot' : GenSlot) (pos : Option Nat) : Prop :=
  pos = none ∧ slot' = slot ∨
    pos.isSome ∧ ∃ word, slot' =
      { slot with stop := .word, stoppingWord := word, hasNextToken := false }

theorem findStoppingStrings_full (slot : GenSlot) (text : Text) (n : Nat) :
    slot.StoppedBy (slot.findStoppingStrings text n true).1
      (slot.findStoppingStrings text n true).2 := by
  have hstep : ∀ (acc : GenSlot × Option Nat) (word : Text), slot.StoppedBy acc.1 acc.2 →
      slot.StoppedBy (stoppingStringStep text n true acc word).1
        (stoppingStringStep text n true acc word).2 := by
    intro acc word hacc
    simp only [stoppingStringStep]
    split
    · split_ifs with hlt
      · obtain ⟨-, heq⟩ | ⟨-, w, heq⟩ := hacc
        · exact .inr ⟨rfl, word, by simp [heq]⟩
        · exact .inr ⟨rfl, word, by simp [heq]⟩
      · exact hacc
    · exact hacc
  have hfold : ∀ (words : List Text) (acc : GenSlot × Option Nat), slot.StoppedBy acc.1 acc.2 →
      slot.StoppedBy (words.foldl (stoppingStringStep text n true) acc).1
        (words.foldl (stoppingStringStep text n true) acc).2 := by
    intro words
    induction words with
    | nil => exact fun _ h => h
    | cons word words ih => exact fun acc h => ih _ (hstep acc word h)
  exact hfold _ _ (.inl ⟨rfl, rfl⟩)

/-! ## The limits -/

/-- The slots agree on the text and on where its lines start. -/
structure SameText (slot slot' : GenSlot) : Prop where
  generatedText : slot'.generatedText = slot.generatedText
  nSentText : slot'.nSentText = slot.nSentText
  hasNewLine : slot'.hasNewLine = slot.hasNewLine
  lastNlPos : slot'.lastNlPos = slot.lastNlPos
  textParams : slot'.textParams = slot.textParams

theorem SameText.indentCut {slot slot' : GenSlot} (h : slot.SameText slot') :
    slot'.indentCut = slot.indentCut := by
  simp only [GenSlot.indentCut, h.generatedText, h.hasNewLine, h.lastNlPos, h.textParams]

theorem hasBudget_fst (cfg : GenConfig) (slot : GenSlot) :
    ∃ n, (slot.hasBudget cfg).1 = { slot with nRemaining := n } := by
  unfold hasBudget
  dsimp only
  split_ifs
  · exact ⟨slot.nRemaining, rfl⟩
  · exact ⟨_, rfl⟩
  · exact ⟨_, rfl⟩

/-- The slot is over its budget. -/
def OverBudget (cfg : GenConfig) (slot : GenSlot) : Prop :=
  0 < slot.nDecoded ∧ (slot.hasBudget cfg).2 = false

theorem checkBudget_eq (cfg : GenConfig) (slot : GenSlot) :
    ∃ n, (slot.hasNextToken = true ∧ slot.OverBudget cfg ∧ slot.checkBudget cfg =
        { slot with nRemaining := n, stop := .limit, hasNextToken := false }) ∨
      (¬ (slot.hasNextToken = true ∧ slot.OverBudget cfg) ∧
        slot.checkBudget cfg = { slot with nRemaining := n }) := by
  obtain ⟨n, hn⟩ := hasBudget_fst cfg slot
  unfold checkBudget OverBudget
  dsimp only
  rw [hn]
  split_ifs with hcheck hbudget
  · exact ⟨n, .inr ⟨fun h => by simp [hbudget] at h, rfl⟩⟩
  · exact ⟨n, .inl ⟨hcheck.2, ⟨hcheck.1, by simpa using hbudget⟩, rfl⟩⟩
  · exact ⟨slot.nRemaining, .inr ⟨fun h => hcheck ⟨h.2.1, h.1⟩, rfl⟩⟩

theorem checkBudget_sameText (cfg : GenConfig) (slot : GenSlot) :
    slot.SameText (slot.checkBudget cfg) := by
  obtain ⟨n, ⟨-, -, h⟩ | ⟨-, h⟩⟩ := checkBudget_eq cfg slot <;> rw [h] <;>
    exact ⟨rfl, rfl, rfl, rfl, rfl⟩

theorem checkBudget_hasNextToken (h : (slot.checkBudget cfg).hasNextToken = true) :
    slot.hasNextToken = true := by
  obtain ⟨n, ⟨-, -, hn⟩ | ⟨-, hn⟩⟩ := checkBudget_eq cfg slot <;> rw [hn] at h
  · cases h
  · exact h

/-- The text after the limit on the indentation. -/
def indented (slot : GenSlot) : Text :=
  match slot.indentCut with
  | some pos => slot.generatedText.take pos
  | none => slot.generatedText

theorem checkIndent_text (slot : GenSlot) :
    slot.checkIndent.generatedText = slot.indented ∧
      slot.checkIndent.nSentText = slot.nSentText := by
  unfold checkIndent indented
  cases slot.indentCut <;> dsimp only <;> split_ifs <;> (try split) <;> exact ⟨rfl, rfl⟩

theorem checkIndent_hasNextToken (h : slot.checkIndent.hasNextToken = true) :
    slot.hasNextToken = true ∧ slot.indentCut = none := by
  unfold checkIndent at h
  cases hcut : slot.indentCut with
  | none =>
    simp only [hcut] at h
    refine ⟨?_, rfl⟩
    split_ifs at h
    · split at h <;> exact h
    · exact h
  | some pos =>
    simp only [hcut] at h
    split_ifs at h
    split at h <;> cases h

/-- The limits behind the one on the indentation leave the text alone and only take the next
token away. -/
structure OnlyEnds (slot slot' : GenSlot) : Prop where
  generatedText : slot'.generatedText = slot.generatedText
  nSentText : slot'.nSentText = slot.nSentText
  hasNextToken : slot'.hasNextToken = true → slot.hasNextToken = true

theorem OnlyEnds.trans {s₁ s₂ s₃ : GenSlot} (h : s₁.OnlyEnds s₂) (h' : s₂.OnlyEnds s₃) :
    s₁.OnlyEnds s₃ :=
  ⟨h'.generatedText.trans h.generatedText, h'.nSentText.trans h.nSentText,
    h.hasNextToken ∘ h'.hasNextToken⟩

theorem onlyEnds_refl (slot : GenSlot) : slot.OnlyEnds slot := ⟨rfl, rfl, id⟩

theorem checkNewLine_onlyEnds (slot : GenSlot) (text : Text) (late : Bool) :
    slot.OnlyEnds (slot.checkNewLine text late) := by
  unfold checkNewLine
  split_ifs
  · exact ⟨rfl, rfl, fun h => absurd h (by simp)⟩
  · exact ⟨rfl, rfl, id⟩
  · exact slot.onlyEnds_refl

theorem checkContext_onlyEnds (slot : GenSlot) : slot.OnlyEnds slot.checkContext := by
  unfold checkContext
  split_ifs
  · exact ⟨rfl, rfl, fun h => absurd h (by simp)⟩
  · exact slot.onlyEnds_refl

theorem checkEog_onlyEnds (slot : GenSlot) (tok : Token) :
    slot.OnlyEnds (slot.checkEog cfg tok) := by
  unfold checkEog
  split_ifs
  · exact ⟨rfl, rfl, fun h => absurd h (by simp)⟩
  · exact slot.onlyEnds_refl

theorem checkTrain_onlyEnds (slot : GenSlot) : slot.OnlyEnds (slot.checkTrain cfg) := by
  unfold checkTrain
  split_ifs
  · exact ⟨rfl, rfl, fun h => absurd h (by simp)⟩
  · exact slot.onlyEnds_refl

/-- The limits cut the last line or leave the text, and generation goes on only past all of
them. -/
theorem checkLimits_spec (cfg : GenConfig) (slot : GenSlot) (tok : Token) (text : Text)
    (late : Bool) :
    (slot.checkLimits cfg tok text late).generatedText = slot.indented ∧
    (slot.checkLimits cfg tok text late).nSentText = slot.nSentText ∧
    ((slot.checkLimits cfg tok text late).hasNextToken = true →
      slot.hasNextToken = true ∧ slot.indentCut = none) := by
  have hsame := checkBudget_sameText cfg slot
  obtain ⟨htext, hsent⟩ := (slot.checkBudget cfg).checkIndent_text
  have hends : (slot.checkBudget cfg).checkIndent.OnlyEnds
      (slot.checkLimits cfg tok text late) :=
    (((checkNewLine_onlyEnds _ text late).trans (checkContext_onlyEnds _)).trans
      (checkEog_onlyEnds _ tok)).trans (checkTrain_onlyEnds _)
  refine ⟨?_, hends.nSentText.trans (hsent.trans hsame.nSentText), fun h => ?_⟩
  · rw [hends.generatedText, htext, indented, indented, hsame.indentCut, hsame.generatedText]
  · obtain ⟨hnext, hcut⟩ := checkIndent_hasNextToken (hends.hasNextToken h)
    exact ⟨checkBudget_hasNextToken hnext, hsame.indentCut ▸ hcut⟩

theorem lt_of_indentCut {pos : Nat} (h : slot.indentCut = some pos) :
    pos < slot.generatedText.length := by
  unfold indentCut at h
  dsimp only at h
  split_ifs at h with hcut
  obtain rfl := Option.some.inj h
  exact hcut.2.2.2.1

theorem indented_eq_iff (slot : GenSlot) :
    slot.indented = slot.generatedText ↔ slot.indentCut = none := by
  unfold indented
  cases hcut : slot.indentCut with
  | none => simp
  | some pos =>
    have hlt := lt_of_indentCut hcut
    simp only [reduceCtorEq, iff_false]
    intro heq
    have := congrArg List.length heq
    rw [List.length_take] at this
    omega

/-! ## One token -/

theorem SameText.unsent {slot slot' : GenSlot} (h : slot.SameText slot') :
    slot'.unsent = slot.unsent := by
  simp only [GenSlot.unsent, h.generatedText, h.nSentText]

theorem sendText_held (hheld : slot.heldBack n = true) (hcomplete : slot.incomplete = false) :
    slot.sendText n = (slot, []) := by
  simp only [heldBack, hcomplete, Bool.false_or, Bool.and_eq_true, Option.isNone_iff_eq_none,
    Option.isSome_iff_exists] at hheld
  obtain ⟨hnone, p, hp⟩ := hheld
  have hslot : (slot.findStoppingStrings slot.unsent n true).1 = slot := by
    obtain ⟨-, h⟩ | ⟨h, -⟩ := slot.findStoppingStrings_full slot.unsent n
    · exact h
    · simp [hnone] at h
  simp only [sendText, hnone, hslot, hp]

/-- What is not held back is sent: the whole text, or all of it before a stop string. -/
theorem sendText_flush (hheld : slot.heldBack n = false) :
    ∃ s, (slot.stopCut n).SameText s ∧
      (s.hasNextToken = true → slot.stopCut n = slot ∧ slot.hasNextToken = true) ∧
      slot.sendText n = ({ s with nSentText := s.nSentText + s.unsent.length }, s.unsent) := by
  have hfull := slot.findStoppingStrings_full slot.unsent n
  cases hpos : (slot.findStoppingStrings slot.unsent n true).2 with
  | none =>
    obtain ⟨-, hslot⟩ | ⟨h, -⟩ := hfull
    · have hpartial : (slot.findStoppingStrings slot.unsent n false).2 = none := by
        simp only [heldBack, hpos, Option.isNone_none, Bool.true_and, Bool.or_eq_false_iff] at hheld
        simpa using hheld.2
      refine ⟨slot, ?_, fun h => ⟨?_, h⟩, ?_⟩
      · simp only [stopCut, hpos]
        exact ⟨rfl, rfl, rfl, rfl, rfl⟩
      · simp only [stopCut, hpos]
      · simp only [sendText, hpos, hslot, hpartial]
    · simp [hpos] at h
  | some p =>
    obtain ⟨h, -⟩ | ⟨-, word, hslot⟩ := hfull
    · simp [hpos] at h
    · refine ⟨{ (slot.findStoppingStrings slot.unsent n true).1 with
        generatedText := slot.generatedText.take
          (min slot.nSentText slot.generatedText.length + p) }, ?_, ?_, ?_⟩
      · simp only [stopCut, hpos, hslot]
        exact ⟨rfl, rfl, rfl, rfl, rfl⟩
      · rw [hslot]
        exact fun h => absurd h (by simp)
      · simp only [sendText, hpos]

/-- `sent` was sent of the text, and what was sent of it ends with a whole character. -/
structure Sending (slot : GenSlot) (sent : Text) : Prop where
  le : slot.nSentText ≤ slot.generatedText.length
  sent_eq : sent = slot.generatedText.take slot.nSentText
  complete : slot.nSentText = slot.generatedText.length → slot.incomplete = false

theorem reset_sending (slot : GenSlot) : slot.reset.Sending [] := ⟨le_rfl, rfl, fun _ => rfl⟩

theorem findPartialStopString_nil (word : Text) : Text.findPartialStopString word [] = none := by
  simp [Text.findPartialStopString]

theorem findStoppingStrings_nil (slot : GenSlot) (n : Nat) :
    (slot.findStoppingStrings [] n false).2 = none := by
  have hfold : ∀ (words : List Text) (acc : GenSlot × Option Nat), acc.2 = none →
      (words.foldl (stoppingStringStep [] n false) acc).2 = none := by
    intro words
    induction words with
    | nil => exact fun _ h => h
    | cons word words ih =>
      exact fun acc h => ih _ (by simpa [stoppingStringStep, findPartialStopString_nil] using h)
  exact hfold _ _ rfl

variable {sent : Text} {late : Bool}

/-- What is held back is not empty. -/
theorem Sending.lt_of_heldBack (h : s.Sending sent)
    (hheld : (s.appendToken cfg tok).heldBack n = true) :
    s.nSentText < (s.appendToken cfg tok).generatedText.length := by
  have happ : (s.appendToken cfg tok).generatedText = s.generatedText ++ cfg.piece tok := rfl
  have hlen : (s.appendToken cfg tok).generatedText.length =
      s.generatedText.length + (cfg.piece tok).length := by rw [happ, List.length_append]
  by_contra hge
  have hfull : s.nSentText = s.generatedText.length := by have := h.le; omega
  have hpiece : cfg.piece tok = [] := List.length_eq_zero_iff.1 (by have := h.le; omega)
  have hsame : (s.appendToken cfg tok).generatedText = s.generatedText := by
    rw [happ, hpiece, List.append_nil]
  have hcomplete : (s.appendToken cfg tok).incomplete = false := by
    rw [incomplete, hsame]
    exact h.complete hfull
  have hunsent : (s.appendToken cfg tok).unsent = [] := by
    have hsent : (s.appendToken cfg tok).nSentText = s.nSentText := rfl
    rw [unsent, hsame, hsent, hfull, min_self, List.drop_length]
  simp only [heldBack, hcomplete, hunsent, findStoppingStrings_nil, Option.isSome_none,
    Bool.and_false, Bool.or_false, Bool.false_eq_true] at hheld

theorem stopCut_prefix (slot : GenSlot) (hle : slot.nSentText ≤ slot.generatedText.length) :
    slot.nSentText ≤ (slot.stopCut n).generatedText.length ∧
    (slot.stopCut n).nSentText = slot.nSentText ∧
    (slot.stopCut n).generatedText.take slot.nSentText =
      slot.generatedText.take slot.nSentText := by
  unfold stopCut
  split
  · rename_i p _
    rw [min_eq_left hle]
    refine ⟨by simp [hle], rfl, ?_⟩
    rw [List.take_take, min_eq_left (Nat.le_add_right _ _)]
  · exact ⟨hle, rfl, rfl⟩

end GenSlot

theorem processToken_fst (cfg : GenConfig) (stream late : Bool) (slot : GenSlot) (tok : Token) :
    (processToken cfg stream late slot tok).1 = (processToken cfg false late slot tok).1 := by
  unfold processToken
  dsimp only
  split_ifs <;> rfl

theorem processToken_not_stream (cfg : GenConfig) (late : Bool) (slot : GenSlot) (tok : Token) :
    (processToken cfg false late slot tok).2 = [] := by
  unfold processToken
  dsimp only
  split <;> rfl

/-- With a token held back, nothing is sent. -/
theorem processToken_held (cfg : GenConfig) (late : Bool)
    (hheld : (s.appendToken cfg tok).heldBack (cfg.piece tok).length = true) :
    contents (processToken cfg true late s tok).2 = [] ∧
    ∃ text, (processToken cfg true late s tok).1 =
      (s.appendToken cfg tok).checkLimits cfg tok text late := by
  unfold processToken
  dsimp only
  split
  · exact ⟨rfl, _, rfl⟩
  · rename_i hinc
    rw [GenSlot.sendText_held hheld (by simpa using hinc)]
    exact ⟨rfl, _, rfl⟩

/-- A token that goes on keeps the record of what was sent; any token makes what was sent the
whole text if and only if it flushes. -/
structure GenSlot.SendingStep (s : GenSlot) (sent : Text) (cfg : GenConfig) (tok : Token)
    (late : Bool) : Prop where
  goOn : (processToken cfg true late s tok).1.hasNextToken = true →
    (processToken cfg true late s tok).1.Sending
      (sent ++ contents (processToken cfg true late s tok).2)
  whole : (processToken cfg true late s tok).1.generatedText =
    sent ++ contents (processToken cfg true late s tok).2 ↔ s.Flushes cfg tok

section Step

variable {sent : Text} (h : s.Sending sent)

include h

theorem GenSlot.Sending.le_append (cfg : GenConfig) (tok : Token) :
    s.nSentText ≤ (s.appendToken cfg tok).generatedText.length := by
  have happ : (s.appendToken cfg tok).generatedText = s.generatedText ++ cfg.piece tok := rfl
  rw [happ, List.length_append]
  exact h.le.trans (Nat.le_add_right _ _)

theorem GenSlot.Sending.sent_append (cfg : GenConfig) (tok : Token) :
    sent = (s.appendToken cfg tok).generatedText.take s.nSentText := by
  rw [h.sent_eq]
  exact (List.take_append_of_le_length h.le).symm

theorem GenSlot.Sending.step_held (cfg : GenConfig) (tok : Token) (late : Bool)
    (hheld : (s.appendToken cfg tok).heldBack (cfg.piece tok).length = true) :
    s.SendingStep sent cfg tok late := by
  have hle := h.le_append cfg tok
  have hsent := h.sent_append cfg tok
  obtain ⟨hnone, text, hslot⟩ := processToken_held cfg late hheld
  have hlt := h.lt_of_heldBack hheld
  obtain ⟨htext, hnSent, hnext⟩ := checkLimits_spec cfg (s.appendToken cfg tok) tok
    text late
  refine ⟨?_, ?_⟩ <;> simp only [hnone, List.append_nil, hslot, Flushes, hheld, if_true]
  · intro hgo
    have hsame : (s.appendToken cfg tok).indented = (s.appendToken cfg tok).generatedText :=
      (indented_eq_iff _).2 (hnext hgo).2
    refine ⟨?_, ?_, fun hfull => ?_⟩
    · rw [htext, hsame, hnSent]
      exact hle
    · rw [htext, hsame, hnSent]
      exact hsent
    · rw [htext, hsame, hnSent] at hfull
      exact absurd hfull hlt.ne
  · rw [htext, hsent, indented]
    cases hcut : (s.appendToken cfg tok).indentCut with
    | none =>
      refine iff_of_false (fun heq => ?_) (by simp)
      dsimp only at heq
      have := congrArg List.length heq
      rw [List.length_take] at this
      omega
    | some pos =>
      have hpos := lt_of_indentCut hcut
      refine ⟨fun heq => ?_, fun heq => ?_⟩
      · dsimp only at heq
        have := congrArg List.length heq
        rw [List.length_take, List.length_take] at this
        exact congrArg some (show pos = s.nSentText by omega)
      · rw [show pos = s.nSentText from Option.some.inj heq]

theorem GenSlot.Sending.step_sent (cfg : GenConfig) (tok : Token) (late : Bool)
    (hheld : (s.appendToken cfg tok).heldBack (cfg.piece tok).length = false) :
    s.SendingStep sent cfg tok late := by
  have hle := h.le_append cfg tok
  have hsent := h.sent_append cfg tok
  obtain ⟨slot, hsame, hstop, hsend⟩ := sendText_flush hheld
  have hcomplete : (s.appendToken cfg tok).incomplete = false := by
    simp only [heldBack, Bool.or_eq_false_iff] at hheld
    exact hheld.1
  have hprocess : LamaServer.processToken cfg true late s tok =
      (({ slot with nSentText := slot.nSentText + slot.unsent.length } : GenSlot).checkLimits cfg
        tok slot.unsent late, [.cmplPartial slot.unsent]) := by
    simp only [LamaServer.processToken, hcomplete, Bool.false_eq_true, if_false, hsend, if_true]
  obtain ⟨hcutLe, hcutSent, hcutTake⟩ := stopCut_prefix (n := (cfg.piece tok).length)
    (s.appendToken cfg tok) hle
  have hslotLe : slot.nSentText ≤ slot.generatedText.length := by
    rw [hsame.generatedText, hsame.nSentText, hcutSent]
    exact hcutLe
  have hunsent : slot.unsent = slot.generatedText.drop slot.nSentText := by
    rw [unsent, min_eq_left hslotLe]
  have hall : sent ++ slot.unsent = slot.generatedText := by
    have htake : sent = slot.generatedText.take slot.nSentText := by
      rw [hsent, hsame.generatedText, hsame.nSentText, hcutSent]
      exact hcutTake.symm
    rw [htake, hunsent, List.take_append_drop]
  have hlen : slot.nSentText + slot.unsent.length = slot.generatedText.length := by
    rw [hunsent, List.length_drop]
    omega
  have hcutNone : ({ slot with nSentText := slot.nSentText + slot.unsent.length } :
      GenSlot).indentCut = ((s.appendToken cfg tok).stopCut (cfg.piece tok).length).indentCut :=
    hsame.indentCut
  obtain ⟨htext, hnSent, hnext⟩ := checkLimits_spec cfg
    ({ slot with nSentText := slot.nSentText + slot.unsent.length } : GenSlot) tok slot.unsent
    late
  refine ⟨?_, ?_⟩ <;> simp only [hprocess, contents, List.flatMap_cons, List.flatMap_nil,
    List.append_nil, Response.content, hall, Flushes, hheld, Bool.false_eq_true, if_false]
  · intro hgo
    have hsameText := (indented_eq_iff _).2 (hnext hgo).2
    obtain ⟨hcutEq, -⟩ := hstop (hnext hgo).1
    refine ⟨?_, ?_, fun _ => ?_⟩
    · rw [htext, hsameText, hnSent]
      exact hlen.le
    · rw [htext, hsameText, hnSent]
      exact (List.take_of_length_le hlen.ge).symm
    · rw [incomplete, htext, hsameText]
      show decide (slot.generatedText.validateUtf8 < slot.generatedText.length) = false
      rw [hsame.generatedText, hcutEq]
      exact hcomplete
  · rw [htext, ← hcutNone]
    exact indented_eq_iff _

theorem GenSlot.Sending.step (cfg : GenConfig) (tok : Token) (late : Bool) :
    s.SendingStep sent cfg tok late := by
  cases hheld : (s.appendToken cfg tok).heldBack (cfg.piece tok).length with
  | true => exact h.step_held cfg tok late hheld
  | false => exact h.step_sent cfg tok late hheld

end Step

/-! ## Whole generations -/

theorem GenSlot.Sending.sampledAt {sent : Text} (h : s.Sending sent) (t : Sampled) :
    (s.sampledAt t).Sending sent :=
  ⟨h.le, h.sent_eq, h.complete⟩

/-- What is sent while generation goes on is put before what is sent of the other tokens. -/
theorem contents_respond (rest : List Sampled) : ∀ {ts : List Sampled} {slot : GenSlot}
    {sent : Text}, slot.Sending sent → goOn cfg slot ts = some s' →
    contents (respond cfg false slot (ts ++ rest)) = contents (respond cfg false s' rest) ∧
    ∃ sent', s'.Sending sent' ∧ sent ++ contents (respond cfg true slot (ts ++ rest)) =
      sent' ++ contents (respond cfg true s' rest)
  | [], slot, sent, hsending, hgo => by
    obtain rfl := Option.some.inj hgo
    exact ⟨rfl, sent, hsending, rfl⟩
  | t :: ts, slot, sent, hsending, hgo => by
    simp only [goOn, Option.ite_none_right_eq_some] at hgo
    obtain ⟨hnext, hgo⟩ := hgo
    have hstep := ((hsending.sampledAt t).step cfg t.tok t.late).1
    rw [processToken_fst] at hstep
    obtain ⟨hplain, sent', hsending', hstream⟩ := contents_respond rest (hstep hnext) hgo
    refine ⟨?_, sent', hsending', ?_⟩
    · simp only [List.cons_append, respond, processToken_not_stream, hnext, if_true,
        List.nil_append]
      exact hplain
    · simp only [List.cons_append, respond, processToken_fst cfg true, hnext, if_true]
      rw [contents, List.flatMap_append, ← List.append_assoc]
      exact hstream

/-- A streaming client gets the content of the plain response. -/
def StreamingLaw : Prop :=
  ∀ (cfg : GenConfig) (slot s : GenSlot) (ts : List Sampled) (t : Sampled),
    goOn cfg slot.reset ts = some s →
    (processToken cfg false t.late (s.sampledAt t) t.tok).1.hasNextToken = false →
    contents (respond cfg true slot.reset (ts ++ [t])) =
      contents (respond cfg false slot.reset (ts ++ [t]))

theorem streaming_iff (cfg : GenConfig) (slot s : GenSlot) (ts : List Sampled) (t : Sampled)
    (hgo : goOn cfg slot.reset ts = some s)
    (hend : (processToken cfg false t.late (s.sampledAt t) t.tok).1.hasNextToken = false) :
    contents (respond cfg true slot.reset (ts ++ [t])) =
      contents (respond cfg false slot.reset (ts ++ [t])) ↔
    (s.sampledAt t).Flushes cfg t.tok := by
  obtain ⟨hplain, sent, hsending, hstream⟩ :=
    contents_respond [t] slot.reset_sending hgo
  rw [hplain, ← List.nil_append (contents (respond cfg true _ _)), hstream]
  have hlast := ((hsending.sampledAt t).step cfg t.tok t.late).2
  rw [processToken_fst] at hlast
  simp only [respond, processToken_fst cfg true, processToken_not_stream, hend,
    Bool.false_eq_true, if_false, List.nil_append]
  rw [← hlast, contents, contents, List.flatMap_append]
  simp only [List.flatMap_cons, List.flatMap_nil, finalResponse, Response.content,
    Bool.false_eq_true, if_true, if_false, List.append_nil]
  exact eq_comm

/-- Every byte is a token, and 0 ends generation without a piece. -/
def byteGen : GenConfig where
  piece tok := if tok = 0 then [] else [UInt8.ofNat tok.toNat]
  isEog tok := tok = 0
  nCtxTrain := 4096

/-- A slot with the stop string "ab". -/
def stopSlot : GenSlot where
  id := 0
  nCtx := 512
  textParams := { antiprompt := [[97, 98]] }

/-- A token sampled for a prompt of one token. -/
def nthSampled (n : Nat) (tok : Token) : Sampled := ⟨tok, n, n, false⟩

theorem streaming_iff_stop_string :
    contents (respond byteGen true stopSlot.reset
        ([nthSampled 1 99, nthSampled 2 97] ++ [nthSampled 3 98])) =
      contents (respond byteGen false stopSlot.reset
        ([nthSampled 1 99, nthSampled 2 97] ++ [nthSampled 3 98])) := by
  have hgo : (goOn byteGen stopSlot.reset [nthSampled 1 99, nthSampled 2 97]).any fun s =>
      (processToken byteGen false (nthSampled 3 98).late (s.sampledAt (nthSampled 3 98))
        (nthSampled 3 98).tok).1.hasNextToken = false ∧
      (s.sampledAt (nthSampled 3 98)).Flushes byteGen (nthSampled 3 98).tok := by
    decide
  obtain ⟨s, hs, hlast⟩ := (Option.any_eq_true _ _).1 hgo
  obtain ⟨hend, hflushes⟩ := of_decide_eq_true hlast
  exact (streaming_iff byteGen stopSlot s _ _ hs hend).2 hflushes

/-- "a" may become the stop string, so it is held back, and the end of generation drops it. -/
theorem not_streamingLaw : ¬ StreamingLaw := by
  intro h
  have hgo : (goOn byteGen stopSlot.reset [nthSampled 1 97]).any fun s =>
      (processToken byteGen false (nthSampled 2 0).late (s.sampledAt (nthSampled 2 0))
        (nthSampled 2 0).tok).1.hasNextToken = false := by
    decide
  have hne : contents (respond byteGen true stopSlot.reset
        ([nthSampled 1 97] ++ [nthSampled 2 0])) ≠
      contents (respond byteGen false stopSlot.reset
        ([nthSampled 1 97] ++ [nthSampled 2 0])) := by
    decide
  obtain ⟨s, hs, hend⟩ := (Option.any_eq_true _ _).1 hgo
  exact hne (h byteGen stopSlot s _ _ hs (of_decide_eq_true hend))

end LamaServer
