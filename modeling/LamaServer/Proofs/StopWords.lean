import LamaServer.Lib.Occurrence
import LamaServer.Proofs.Generation

/-!
# Stop strings in the generated text

What was sent never has the start of a stop string at its end (`Closed`), so a stop string stands in
the text only behind it, in the part in which `process_token` searches. The search looks back from
the end by the length of the word and of the last piece, and none is made while the text ends in
part of a character: `StopsSeen` is that it still sees the first stop string.
-/

namespace LamaServer

open Occurrence (At AnyAt First Free Closed)

namespace Text

variable {word text : Text} {p pos : Nat}

theorem at_succ {c : UInt8} : At word (c :: text) (p + 1) ↔ At word text p := Iff.rfl

theorem indexOf_eq_none (hw : word ≠ []) :
    ∀ {text : Text}, indexOf word text = none ↔ ∀ p, ¬ At word text p
  | [] => by simp [indexOf, hw, At]
  | c :: text => by
    rw [indexOf]
    split_ifs with h
    · refine iff_of_false (by simp) fun hall => hall 0 ?_
      exact List.isPrefixOf_iff_prefix.1 h
    · rw [Option.map_eq_none_iff, indexOf_eq_none hw]
      constructor
      · rintro hall (_ | p)
        · exact fun h0 => h (List.isPrefixOf_iff_prefix.2 h0)
        · exact hall p
      · exact fun hall p => hall (p + 1)

theorem indexOf_eq_some (hw : word ≠ []) : ∀ {text : Text} {p : Nat},
    indexOf word text = some p ↔ At word text p ∧ ∀ q < p, ¬ At word text q
  | [], p => by simp [indexOf, hw, At]
  | c :: text, p => by
    rw [indexOf]
    split_ifs with h
    · have h0 : At word (c :: text) 0 := List.isPrefixOf_iff_prefix.1 h
      constructor
      · rintro hp
        obtain rfl := Option.some.inj hp
        exact ⟨h0, by simp⟩
      · rintro ⟨-, hmin⟩
        rcases p with _ | p
        · rfl
        · exact absurd h0 (hmin 0 p.succ_pos)
    · have h0 : ¬ At word (c :: text) 0 := fun h0 => h (List.isPrefixOf_iff_prefix.2 h0)
      rcases p with _ | p
      · simp [h0]
      · simp only [Option.map_eq_some_iff, Nat.add_right_cancel_iff, exists_eq_right,
          indexOf_eq_some hw, at_succ, and_congr_right_iff]
        refine fun _ => ⟨?_, fun hmin q hq => hmin (q + 1) (by omega)⟩
        rintro hmin (_ | q) hq
        · exact h0
        · exact hmin q (by omega)

/-- The search from a position on finds the first occurrence from there on. -/
theorem find_eq_some (hw : word ≠ []) (hpos : pos ≤ text.length) : text.find word pos = some p ↔
    pos ≤ p ∧ At word text p ∧ ∀ q, pos ≤ q → q < p → ¬ At word text q := by
  rw [find, if_pos hpos, Option.map_eq_some_iff]
  simp only [indexOf_eq_some hw, Occurrence.at_drop]
  constructor
  · rintro ⟨i, ⟨hi, hmin⟩, rfl⟩
    rw [Nat.add_comm i pos]
    refine ⟨Nat.le_add_right .., hi, fun q hle hlt => ?_⟩
    obtain ⟨j, rfl⟩ := Nat.exists_eq_add_of_le hle
    exact hmin j (by omega)
  · rintro ⟨hle, hp, hmin⟩
    obtain ⟨i, rfl⟩ := Nat.exists_eq_add_of_le hle
    exact ⟨i, ⟨hp, fun q hq => hmin (pos + q) (by omega) (by omega)⟩, Nat.add_comm ..⟩

theorem find_eq_none (hw : word ≠ []) (hpos : pos ≤ text.length) : text.find word pos = none ↔
    ∀ q, pos ≤ q → ¬ At word text q := by
  rw [find, if_pos hpos, Option.map_eq_none_iff, indexOf_eq_none hw]
  simp only [Occurrence.at_drop]
  refine ⟨fun h q hle => ?_, fun h q => h (pos + q) (by omega)⟩
  obtain ⟨j, rfl⟩ := Nat.exists_eq_add_of_le hle
  exact h j

/-- Where no partial stop string is found, no end of the text starts the stop string. -/
theorem not_prefix_of_partial (h : findPartialStopString word text = none) {s : Text}
    (hs : s ≠ []) (hsuffix : s <:+ text) : ¬ s <+: word := by
  intro hword
  have hpos := List.length_pos_of_ne_nil hs
  have htext : text ≠ [] := fun h0 => hs (List.suffix_nil.1 (h0 ▸ hsuffix))
  have hword0 : word ≠ [] := fun h0 => hs (List.prefix_nil.1 (h0 ▸ hword))
  rw [findPartialStopString, if_pos ⟨htext, hword0⟩, Option.map_eq_none_iff,
    List.find?_eq_none] at h
  have htake : word.take (s.length - 1 + 1) = s := by
    rw [Nat.sub_add_cancel hpos]
    exact (List.prefix_iff_eq_take.1 hword).symm
  refine h (s.length - 1) ?_ ?_
  · have hle := hword.length_le
    simp only [List.mem_reverse, List.mem_range]
    omega
  · obtain ⟨t, rfl⟩ := hsuffix
    have hlast : word[s.length - 1]? = (t ++ s).getLast? := by
      obtain ⟨r, rfl⟩ := hword
      rw [List.getLast?_append_of_ne_nil _ hs, List.getLast?_eq_getElem?,
        List.getElem?_append_left (by omega)]
    simp only [htake, hlast, List.isSuffixOf_iff_suffix, decide_eq_true_eq]
    exact ⟨trivial, List.suffix_append ..⟩

end Text

namespace GenSlot

variable {cfg : GenConfig} {slot s s' : GenSlot} {tok : Token} {n p : Nat} {text sent : Text}

/-- Where the search finds a stop string. -/
def stopPos (text : Text) (n : Nat) (isFullStop : Bool) (word : Text) : Option Nat :=
  if isFullStop then text.find word (text.length - (word.length + n))
  else Text.findPartialStopString word text

section Step

variable {text : Text} {n : Nat} {full : Bool} {acc : GenSlot × Option Nat} {word : Text}

theorem stoppingStringStep_of_none (h : stopPos text n full word = none) :
    (stoppingStringStep text n full acc word).2 = acc.2 := by
  rw [stopPos] at h
  simp only [stoppingStringStep, h]

theorem stoppingStringStep_of_some {p : Nat} (h : stopPos text n full word = some p) :
    (stoppingStringStep text n full acc word).2 =
      if acc.2.all (p < ·) then some p else acc.2 := by
  rw [stopPos] at h
  simp only [stoppingStringStep, h]
  split_ifs <;> rfl

end Step

theorem stoppingStringStep_snd (text : Text) (n : Nat) (full : Bool) (acc : GenSlot × Option Nat)
    (word : Text) : (∀ p, (acc.2 = some p ∨ stopPos text n full word = some p) →
        ∃ m ≤ p, (stoppingStringStep text n full acc word).2 = some m) ∧
      ∀ m, (stoppingStringStep text n full acc word).2 = some m →
        acc.2 = some m ∨ stopPos text n full word = some m := by
  rcases hpos : stopPos text n full word with _ | p
  · rw [stoppingStringStep_of_none hpos]
    exact ⟨fun p hp => ⟨p, le_rfl, hp.resolve_right (by simp)⟩, fun m hm => .inl hm⟩
  · rw [stoppingStringStep_of_some hpos]
    rcases hacc : acc.2 with _ | q
    · simp
    · by_cases hlt : p < q
      · simp [hlt]
        omega
      · simp [hlt]
        omega

/-- The search over all stop strings finds the least position. -/
theorem findStoppingStrings_least (slot : GenSlot) (text : Text) (n : Nat) (full : Bool) :
    (∀ word ∈ slot.textParams.antiprompt, ∀ p, stopPos text n full word = some p →
      ∃ m ≤ p, (slot.findStoppingStrings text n full).2 = some m) ∧
    ∀ m, (slot.findStoppingStrings text n full).2 = some m →
      ∃ word ∈ slot.textParams.antiprompt, stopPos text n full word = some m := by
  have hfold : ∀ (words : List Text) (acc : GenSlot × Option Nat),
      (∀ p, (acc.2 = some p ∨ ∃ word ∈ words, stopPos text n full word = some p) →
        ∃ m ≤ p, (words.foldl (stoppingStringStep text n full) acc).2 = some m) ∧
      ∀ m, (words.foldl (stoppingStringStep text n full) acc).2 = some m →
        acc.2 = some m ∨ ∃ word ∈ words, stopPos text n full word = some m := by
    intro words
    induction words with
    | nil =>
      exact fun acc => ⟨fun p hp => ⟨p, le_rfl, hp.resolve_right (by simp)⟩, fun m hm => .inl hm⟩
    | cons word words ih =>
      intro acc
      obtain ⟨hle, hmem⟩ := ih (stoppingStringStep text n full acc word)
      obtain ⟨hle₁, hmem₁⟩ := stoppingStringStep_snd text n full acc word
      rw [List.foldl_cons]
      refine ⟨fun p hp => ?_, fun m hm => ?_⟩
      · obtain hp | ⟨w, hw, hp⟩ := hp
        · obtain ⟨m₁, hm₁, h₁⟩ := hle₁ p (.inl hp)
          obtain ⟨m, hm, h⟩ := hle m₁ (.inl h₁)
          exact ⟨m, hm.trans hm₁, h⟩
        · obtain rfl | hw := List.mem_cons.1 hw
          · obtain ⟨m₁, hm₁, h₁⟩ := hle₁ p (.inr hp)
            obtain ⟨m, hm, h⟩ := hle m₁ (.inl h₁)
            exact ⟨m, hm.trans hm₁, h⟩
          · exact hle p (.inr ⟨w, hw, hp⟩)
      · obtain h₁ | ⟨w, hw, hp⟩ := hmem m hm
        · obtain h | h := hmem₁ m h₁
          · exact .inl h
          · exact .inr ⟨word, List.mem_cons_self .., h⟩
        · exact .inr ⟨w, List.mem_cons_of_mem _ hw, hp⟩
  obtain ⟨hle, hmem⟩ := hfold slot.textParams.antiprompt (slot, none)
  exact ⟨fun word hword p hp => hle p (.inr ⟨word, hword, hp⟩),
    fun m hm => (hmem m hm).resolve_left (by simp)⟩

/-- The search looks back far enough to see the first stop string in the text. -/
def Seen (words : List Text) (text : Text) (n : Nat) : Prop :=
  ∀ p, First words text p → ∃ word ∈ words, At word text p ∧ text.length ≤ p + (word.length + n)

theorem seen_iff {words : List Text} : Seen words text n ↔ ∀ p ≤ text.length, First words text p →
    ∃ word ∈ words, At word text p ∧ text.length ≤ p + (word.length + n) :=
  ⟨fun h p _ => h p, fun h p hp => h p hp.le_length hp⟩

instance {words : List Text} : Decidable (Seen words text n) := decidable_of_iff' _ seen_iff

theorem search_full (hne : [] ∉ slot.textParams.antiprompt)
    (hseen : Seen slot.textParams.antiprompt text n) :
    (slot.findStoppingStrings text n true).2 = none ∧ Free slot.textParams.antiprompt text ∨
      ∃ p, (slot.findStoppingStrings text n true).2 = some p ∧
        First slot.textParams.antiprompt text p := by
  obtain ⟨hle, hmem⟩ := slot.findStoppingStrings_least text n true
  have hword : ∀ word ∈ slot.textParams.antiprompt, word ≠ [] := fun word hw h0 => hne (h0 ▸ hw)
  have hat : ∀ m, (slot.findStoppingStrings text n true).2 = some m →
      AnyAt slot.textParams.antiprompt text m := by
    intro m hm
    obtain ⟨word, hw, hpos⟩ := hmem m hm
    exact ⟨word, hw, ((Text.find_eq_some (hword word hw) (Nat.sub_le ..)).1 hpos).2.1⟩
  by_cases hfree : Free slot.textParams.antiprompt text
  · refine .inl ⟨?_, hfree⟩
    rcases hfound : (slot.findStoppingStrings text n true).2 with _ | m
    · rfl
    · exact absurd (hat m hfound) (Occurrence.free_iff.1 hfree m)
  · obtain ⟨p, hp⟩ := Occurrence.exists_first hfree
    obtain ⟨word, hw, hwp, hfrom⟩ := hseen p hp
    have hlen : text.length - (word.length + n) ≤ text.length := Nat.sub_le ..
    rcases hpos : stopPos text n true word with _ | q
    · exact absurd hwp ((Text.find_eq_none (hword word hw) hlen).1 hpos p (by omega))
    · obtain ⟨m, hm, hfound⟩ := hle word hw q hpos
      have hq : q ≤ p := by
        by_contra hlt
        exact ((Text.find_eq_some (hword word hw) hlen).1 hpos).2.2 p (by omega) (by omega) hwp
      have hmp : m = p := by
        by_contra hne
        exact hp.2 m (by omega) (hat m hfound)
      exact .inr ⟨p, hmp ▸ hfound, hp⟩

theorem search_partial (h : (slot.findStoppingStrings text n false).2 = none) :
    ∀ word ∈ slot.textParams.antiprompt, ∀ s, s ≠ [] → s <:+ text → ¬ s <+: word := by
  intro word hw s hs hsuffix
  refine Text.not_prefix_of_partial ?_ hs hsuffix
  rcases hpos : Text.findPartialStopString word text with _ | p
  · rfl
  · obtain ⟨m, -, hm⟩ := (slot.findStoppingStrings_least text n false).1 word hw p hpos
    simp [hm] at h

/-- All that is unsent is sent. -/
def flush (slot : GenSlot) : GenSlot × Text :=
  ({ slot with nSentText := slot.nSentText + slot.unsent.length }, slot.unsent)

/-- What is sent of a text that ends with a whole character. -/
theorem sendText_cases (slot : GenSlot) (n : Nat) :
    (∃ p word, (slot.findStoppingStrings slot.unsent n true).2 = some p ∧
        slot.sendText n = flush { slot with
          stop := .word, stoppingWord := word, hasNextToken := false
          generatedText := slot.generatedText.take
            (min slot.nSentText slot.generatedText.length + p) }) ∨
      (slot.findStoppingStrings slot.unsent n true).2 = none ∧
        (slot.sendText n = (slot, []) ∨
          (slot.findStoppingStrings slot.unsent n false).2 = none ∧
            slot.sendText n = slot.flush) := by
  rcases hfull : (slot.findStoppingStrings slot.unsent n true).2 with _ | p
  · obtain ⟨-, hslot⟩ | ⟨h, -⟩ := slot.findStoppingStrings_full slot.unsent n
    · refine .inr ⟨rfl, ?_⟩
      rcases hpart : (slot.findStoppingStrings slot.unsent n false).2 with _ | q
      · exact .inr ⟨rfl, by simp only [sendText, hfull, hslot, hpart, flush]⟩
      · exact .inl (by simp only [sendText, hfull, hslot, hpart])
    · simp [hfull] at h
  · obtain ⟨h, -⟩ | ⟨-, word, hslot⟩ := slot.findStoppingStrings_full slot.unsent n
    · simp [hfull] at h
    · exact .inl ⟨p, word, rfl, by simp only [sendText, hfull, hslot, flush]⟩

/-! ## The limits -/

/-- A check that ends generation when `c` holds, and changes nothing that the checks after it
read. -/
structure Checks (c : Prop) (slot slot' : GenSlot) : Prop where
  next : slot'.hasNextToken = true ↔ slot.hasNextToken = true ∧ ¬ c
  stop : slot'.stop = .word → slot.stop = .word ∧ ¬ c
  params : slot'.params = slot.params
  counts : (slot'.nCtx, slot'.nPast, slot'.nPredict, slot'.nPromptTokens, slot'.nDecoded) =
    (slot.nCtx, slot.nPast, slot.nPredict, slot.nPromptTokens, slot.nDecoded)
  textParams : slot'.textParams = slot.textParams

variable {c c' : Prop} {late : Bool}

theorem Checks.trans {s₁ s₂ s₃ : GenSlot} (h : Checks c s₁ s₂) (h' : Checks c' s₂ s₃) :
    Checks (c ∨ c') s₁ s₃ where
  next := by rw [h'.next, h.next, not_or, and_assoc]
  stop hw := by
    obtain ⟨hw, hc'⟩ := h'.stop hw
    obtain ⟨hw, hc⟩ := h.stop hw
    exact ⟨hw, not_or.2 ⟨hc, hc'⟩⟩
  params := h'.params.trans h.params
  counts := h'.counts.trans h.counts
  textParams := h'.textParams.trans h.textParams

theorem checkBudget_checks (cfg : GenConfig) (slot : GenSlot) :
    Checks (slot.hasNextToken = true ∧ slot.OverBudget cfg) slot (slot.checkBudget cfg) := by
  obtain ⟨n, ⟨hnext, hover, h⟩ | ⟨hno, h⟩⟩ := checkBudget_eq cfg slot <;> rw [h]
  · exact ⟨by simp [hnext, hover], by simp, rfl, rfl, rfl⟩
  · exact ⟨by simp [hno], fun hw => ⟨hw, hno⟩, rfl, rfl, rfl⟩

theorem checkIndent_checks (slot : GenSlot) :
    Checks (slot.indentCut ≠ none) slot slot.checkIndent := by
  unfold checkIndent
  rcases hcut : slot.indentCut with _ | pos <;> dsimp only <;> split_ifs <;> (try split) <;>
    exact ⟨by simp, by simp, rfl, rfl, rfl⟩

theorem checkNewLine_checks (slot : GenSlot) (text : Text) (late : Bool) :
    Checks (Text.newline ∈ text ∧ slot.textParams.timeLimit = true ∧ late = true) slot
      (slot.checkNewLine text late) := by
  unfold checkNewLine
  split_ifs with hnl hlate
  · exact ⟨by simp [hnl, hlate], by simp, rfl, rfl, rfl⟩
  · exact ⟨by simp [hnl, hlate], fun hw => ⟨hw, fun h => hlate h.2⟩, rfl, rfl, rfl⟩
  · exact ⟨by simp [hnl], fun hw => ⟨hw, fun h => hnl h.1⟩, rfl, rfl, rfl⟩

theorem checkContext_checks (slot : GenSlot) :
    Checks (slot.nCtx ≤ slot.nPast) slot slot.checkContext := by
  unfold checkContext
  split_ifs with h
  · exact ⟨by simp [h], by simp, rfl, rfl, rfl⟩
  · exact ⟨by simp [h], fun hw => ⟨hw, h⟩, rfl, rfl, rfl⟩

theorem checkEog_checks (cfg : GenConfig) (slot : GenSlot) (tok : Token) :
    Checks (cfg.isEog tok = true) slot (slot.checkEog cfg tok) := by
  unfold checkEog
  split_ifs with h
  · exact ⟨by simp [h], by simp, rfl, rfl, rfl⟩
  · exact ⟨by simp [h], fun hw => ⟨hw, h⟩, rfl, rfl, rfl⟩

theorem checkTrain_checks (cfg : GenConfig) (slot : GenSlot) :
    Checks (slot.params.nPredict < 1 ∧ slot.nPredict < 1 ∧
      cfg.nCtxTrain ≤ slot.nPromptTokens + slot.nDecoded) slot (slot.checkTrain cfg) := by
  unfold checkTrain
  split_ifs with h
  · exact ⟨by simp [h], by simp, rfl, rfl, rfl⟩
  · exact ⟨by simp [h], fun hw => ⟨hw, h⟩, rfl, rfl, rfl⟩

/-- One of the limits that are checked behind the text. -/
def Limited (cfg : GenConfig) (slot : GenSlot) (tok : Token) (text : Text) (late : Bool) : Prop :=
  slot.hasNextToken = true ∧ slot.OverBudget cfg ∨ slot.indentCut ≠ none ∨
    (Text.newline ∈ text ∧ slot.textParams.timeLimit = true ∧ late = true) ∨
    slot.nCtx ≤ slot.nPast ∨ cfg.isEog tok = true ∨
    (slot.params.nPredict < 1 ∧ slot.nPredict < 1 ∧
      cfg.nCtxTrain ≤ slot.nPromptTokens + slot.nDecoded)

instance {tok : Token} {late : Bool} : Decidable (slot.Limited cfg tok text late) := by
  unfold Limited OverBudget
  infer_instance

/-- The limits end generation when one of them is reached. -/
theorem checkLimits_checks (cfg : GenConfig) (slot : GenSlot) (tok : Token) (text : Text)
    (late : Bool) :
    Checks (slot.Limited cfg tok text late) slot (slot.checkLimits cfg tok text late) := by
  have hbudget := checkBudget_checks cfg slot
  have hindent := checkIndent_checks (slot.checkBudget cfg)
  rw [(checkBudget_sameText cfg slot).indentCut] at hindent
  have h₂ := hbudget.trans hindent
  have hline := checkNewLine_checks (slot.checkBudget cfg).checkIndent text late
  rw [h₂.textParams] at hline
  have h₃ := h₂.trans hline
  have hcontext := checkContext_checks ((slot.checkBudget cfg).checkIndent.checkNewLine text late)
  have hcounts := h₃.counts
  simp only [Prod.mk.injEq] at hcounts
  rw [hcounts.1, hcounts.2.1] at hcontext
  have h₅ := (h₃.trans hcontext).trans (checkEog_checks cfg _ tok)
  have htrain := checkTrain_checks cfg ((((slot.checkBudget cfg).checkIndent.checkNewLine
    text late).checkContext).checkEog cfg tok)
  have hcounts := h₅.counts
  simp only [Prod.mk.injEq] at hcounts
  rw [h₅.params, hcounts.2.2.1, hcounts.2.2.2.1, hcounts.2.2.2.2] at htrain
  have h₆ := h₅.trans htrain
  simp only [or_assoc] at h₆
  exact h₆

/-! ## One token -/

/-- What a token must meet: the search for stop strings sees the first one, and where none is made,
no limit leaves a text with a stop string in it. -/
def StopsSeen (cfg : GenConfig) (slot : GenSlot) (tok : Token) (late : Bool) : Prop :=
  let slot := slot.appendToken cfg tok
  if slot.incomplete then
    slot.Limited cfg tok (cfg.piece tok) late → Free slot.textParams.antiprompt slot.indented
  else Seen slot.textParams.antiprompt slot.unsent (cfg.piece tok).length

instance {late : Bool} : Decidable (slot.StopsSeen cfg tok late) := by
  unfold StopsSeen
  infer_instance

/-- Generation has gone on with all of `text`, of which `sent` was sent. -/
structure Unleaked (words : List Text) (slot : GenSlot) (sent text : Text) : Prop
    extends Sending slot sent where
  antiprompt : slot.textParams.antiprompt = words
  closed : Closed words sent
  text_eq : slot.generatedText = text
  stop_ne : slot.stop ≠ .word

variable {words : List Text}

theorem indented_prefix (slot : GenSlot) : slot.indented <+: slot.generatedText := by
  unfold indented
  rcases slot.indentCut with _ | pos
  · exact List.prefix_refl _
  · exact List.take_prefix ..

/-- What the limits leave of a slot. -/
theorem checkLimits_text (cfg : GenConfig) (slot : GenSlot) (tok : Token) (text : Text)
    (late : Bool) : (slot.checkLimits cfg tok text late).generatedText = slot.indented ∧
      (slot.indentCut = none → slot.indented = slot.generatedText) :=
  ⟨(checkLimits_spec cfg slot tok text late).1, (indented_eq_iff slot).2⟩

theorem Unleaked.append_eq (h : s.Unleaked words sent text) (cfg : GenConfig) (tok : Token) :
    text ++ cfg.piece tok = sent ++ (s.appendToken cfg tok).unsent ∧
      min s.nSentText (text ++ cfg.piece tok).length = sent.length := by
  have hle := h.le
  have hlen : sent.length = s.nSentText := by
    rw [h.sent_eq, List.length_take, Nat.min_eq_left hle]
  have hmin : min s.nSentText (text ++ cfg.piece tok).length = s.nSentText := by
    rw [List.length_append, ← h.text_eq]
    omega
  refine ⟨?_, hmin.trans hlen.symm⟩
  have htake : sent = (text ++ cfg.piece tok).take s.nSentText := by
    rw [List.take_append_of_le_length (h.text_eq ▸ hle), ← h.text_eq]
    exact h.sent_eq
  have hunsent : (s.appendToken cfg tok).unsent = (text ++ cfg.piece tok).drop s.nSentText := by
    change (s.generatedText ++ cfg.piece tok).drop
      (min s.nSentText (s.generatedText ++ cfg.piece tok).length) = _
    rw [h.text_eq, hmin]
  rw [hunsent]
  conv_rhs => rw [htake]
  exact (List.take_append_drop ..).symm

end GenSlot

open GenSlot

theorem processToken_incomplete {late : Bool}
    (h : (s.appendToken cfg tok).incomplete = true) : processToken cfg true late s tok =
      ((s.appendToken cfg tok).checkLimits cfg tok (cfg.piece tok) late, []) := by
  rw [processToken, if_pos h]

theorem processToken_complete {late : Bool} {r : GenSlot × Text}
    (h : (s.appendToken cfg tok).incomplete = false)
    (hsend : (s.appendToken cfg tok).sendText (cfg.piece tok).length = r) :
    processToken cfg true late s tok =
      (r.1.checkLimits cfg tok r.2 late, [.cmplPartial r.2]) := by
  subst hsend
  simp only [processToken, h, Bool.false_eq_true, if_false, if_true]

/-- What a token leaves when it leaks no stop string, of all the pieces `text` so far. -/
structure Unleaking (words : List Text) (r : GenSlot × List Response) (sent text : Text) :
    Prop where
  sent_free : Free words (sent ++ contents r.2)
  go : r.1.hasNextToken = true → r.1.Unleaked words (sent ++ contents r.2) text
  free : r.1.hasNextToken = false → Free words r.1.generatedText
  cut : r.1.hasNextToken = false → r.1.stop = .word →
    ∃ p, First words text p ∧ r.1.generatedText = text.take p

section Step

variable {words : List Text} {sent text : Text} {late : Bool}

theorem unleaking_incomplete (h : s.Unleaked words sent text) (hne : [] ∉ words)
    (hinc : (s.appendToken cfg tok).incomplete = true) (hseen : s.StopsSeen cfg tok late) :
    Unleaking words (processToken cfg true late s tok) sent (text ++ cfg.piece tok) := by
  have hsend := ((h.toSending.step cfg tok late).1)
  have hchecks := checkLimits_checks cfg (s.appendToken cfg tok) tok (cfg.piece tok) late
  obtain ⟨htext, hsame⟩ := checkLimits_text cfg (s.appendToken cfg tok) tok (cfg.piece tok) late
  have happ : (s.appendToken cfg tok).generatedText = text ++ cfg.piece tok := by
    rw [← h.text_eq]
    rfl
  rw [processToken_incomplete hinc] at hsend ⊢
  simp only [StopsSeen, hinc, if_true] at hseen
  have hwords : (s.appendToken cfg tok).textParams.antiprompt = words := h.antiprompt
  rw [hwords] at hseen
  have hnil : sent ++ contents [] = sent := List.append_nil _
  simp only [hnil] at hsend
  refine ⟨by rw [hnil]; exact h.closed.free hne, fun hgo => ?_, fun hend => ?_, fun _ hw => ?_⟩
  · have hcut : (s.appendToken cfg tok).indentCut = none := by
      by_contra hcut
      exact (hchecks.next.1 hgo).2 (.inr (.inl hcut))
    rw [hnil]
    exact ⟨hsend hgo, by rw [hchecks.textParams]; exact hwords, h.closed,
      htext.trans ((hsame hcut).trans happ), fun hw => h.stop_ne (hchecks.stop hw).1⟩
  · rw [htext]
    refine hseen ?_
    by_contra hno
    simp [hchecks.next.2 ⟨rfl, hno⟩] at hend
  · exact absurd (hchecks.stop hw).1 h.stop_ne

/-- Nothing is cut from a text without a stop string. -/
theorem unleaking_of_free {slot : GenSlot} {out : Text} (h : s.Unleaked words sent text)
    (hne : [] ∉ words) (hprocess : processToken cfg true late s tok =
      (slot.checkLimits cfg tok out late, [.cmplPartial out]))
    (htext : slot.generatedText = text ++ cfg.piece tok) (hstop : slot.stop = s.stop)
    (hwords : slot.textParams.antiprompt = words) (hfree : Free words (text ++ cfg.piece tok))
    (hclosed : Closed words (sent ++ out)) :
    Unleaking words (processToken cfg true late s tok) sent (text ++ cfg.piece tok) := by
  have hsend := ((h.toSending.step cfg tok late).1)
  have hchecks := checkLimits_checks cfg slot tok out late
  obtain ⟨hind, hsame⟩ := checkLimits_text cfg slot tok out late
  have hout : contents [.cmplPartial out] = out := List.append_nil _
  rw [hprocess] at hsend ⊢
  simp only [hout] at hsend
  refine ⟨?_, fun hgo => ?_, fun _ => ?_, fun _ hw => ?_⟩
  · rw [hout]
    exact hclosed.free hne
  · have hcut : slot.indentCut = none := by
      by_contra hcut
      exact (hchecks.next.1 hgo).2 (.inr (.inl hcut))
    rw [hout]
    exact ⟨hsend hgo, by rw [hchecks.textParams]; exact hwords, hclosed,
      hind.trans ((hsame hcut).trans htext),
      fun hw => h.stop_ne (hstop ▸ (hchecks.stop hw).1)⟩
  · rw [hind]
    exact hfree.of_prefix (htext ▸ indented_prefix slot)
  · exact absurd (hstop ▸ (hchecks.stop hw).1) h.stop_ne

/-- The text is cut where the first stop string stands. -/
theorem unleaking_of_first {slot : GenSlot} {p : Nat} (h : s.Unleaked words sent text)
    (hne : [] ∉ words) (hcomplete : (s.appendToken cfg tok).incomplete = false)
    (hp : First words (s.appendToken cfg tok).unsent p)
    (hsend : (s.appendToken cfg tok).sendText (cfg.piece tok).length = slot.flush)
    (hnext : slot.hasNextToken = false) (hsent : slot.nSentText = s.nSentText)
    (htext : slot.generatedText = (text ++ cfg.piece tok).take
      (min s.nSentText (text ++ cfg.piece tok).length + p)) :
    Unleaking words (processToken cfg true late s tok) sent (text ++ cfg.piece tok) := by
  obtain ⟨happ, hmin⟩ := h.append_eq cfg tok
  have hlen : s.nSentText = sent.length := by
    rw [h.sent_eq, List.length_take, Nat.min_eq_left h.le]
  rw [hmin] at htext
  have hfirst : First words (text ++ cfg.piece tok) (sent.length + p) := by
    rw [happ]
    exact h.closed.first_append hp
  have hfree := hfirst.free_take hne
  have hall : sent ++ slot.unsent = (text ++ cfg.piece tok).take (sent.length + p) := by
    have htake : slot.generatedText = sent ++ (s.appendToken cfg tok).unsent.take p := by
      rw [htext, happ, List.take_append, List.take_of_length_le (by omega), Nat.add_sub_cancel_left]
    rw [← htext, unsent, htake, hsent, hlen, List.length_append, Nat.min_eq_left (by omega),
      List.drop_left]
  have hchecks := checkLimits_checks cfg slot.flush.1 tok slot.flush.2 late
  obtain ⟨hind, hsame⟩ := checkLimits_text cfg slot.flush.1 tok slot.flush.2 late
  have hflush : slot.flush.1.generatedText = slot.generatedText := rfl
  have hout : sent ++ contents [.cmplPartial slot.flush.2] = sent ++ slot.unsent :=
    congrArg (sent ++ ·) (List.append_nil _)
  rw [processToken_complete hcomplete hsend]
  refine ⟨?_, fun hgo => ?_, fun _ => ?_, fun _ hw => ?_⟩
  · rw [hout, hall]
    exact hfree
  · have hgo' : slot.hasNextToken = true := (hchecks.next.1 hgo).1
    simp [hnext] at hgo'
  · rw [hind]
    refine hfree.of_prefix ?_
    rw [← htext, ← hflush]
    exact indented_prefix _
  · have hcut : slot.flush.1.indentCut = none := by
      by_contra hcut
      exact (hchecks.stop hw).2 (.inr (.inl hcut))
    exact ⟨_, hfirst, hind.trans ((hsame hcut).trans (hflush.trans htext))⟩

theorem unleaking_complete (h : s.Unleaked words sent text) (hne : [] ∉ words)
    (hcomplete : (s.appendToken cfg tok).incomplete = false)
    (hseen : s.StopsSeen cfg tok late) :
    Unleaking words (processToken cfg true late s tok) sent (text ++ cfg.piece tok) := by
  have hwords : (s.appendToken cfg tok).textParams.antiprompt = words := h.antiprompt
  obtain ⟨happ, -⟩ := h.append_eq cfg tok
  have hgen : (s.appendToken cfg tok).generatedText = text ++ cfg.piece tok := by
    rw [← h.text_eq]
    rfl
  simp only [StopsSeen, hcomplete, Bool.false_eq_true, if_false] at hseen
  have hfull := search_full (hwords ▸ hne) hseen
  rw [hwords] at hfull
  obtain ⟨p, word, hp, hsend⟩ | ⟨hnone, hsend⟩ :=
    (s.appendToken cfg tok).sendText_cases (cfg.piece tok).length
  · obtain ⟨hnone, -⟩ | ⟨p', hp', hfirst⟩ := hfull
    · simp [hnone] at hp
    · obtain rfl : p' = p := Option.some.inj (hp'.symm.trans hp)
      refine unleaking_of_first h hne hcomplete hfirst hsend rfl rfl ?_
      rw [← hgen]
      rfl
  · obtain ⟨-, hu⟩ | ⟨p', hp', -⟩ := hfull
    · have hfree : Free words (text ++ cfg.piece tok) := by
        rw [happ]
        exact h.closed.free_append hu
      obtain hheld | ⟨hpart, hflush⟩ := hsend
      · refine unleaking_of_free h hne (processToken_complete hcomplete hheld) hgen rfl hwords
          hfree ?_
        rw [List.append_nil]
        exact h.closed
      · refine unleaking_of_free h hne (processToken_complete hcomplete hflush) hgen rfl hwords
          hfree ?_
        exact h.closed.append hu (hwords ▸ search_partial hpart)
    · simp [hp'] at hnone

end Step

/-! ## Whole generations -/

/-- Every token of a run meets the condition. -/
def SeenRun (cfg : GenConfig) : GenSlot → List Sampled → Prop
  | _, [] => True
  | slot, t :: ts => (slot.sampledAt t).StopsSeen cfg t.tok t.late ∧
    SeenRun cfg (processToken cfg false t.late (slot.sampledAt t) t.tok).1 ts

instance decidableSeenRun {cfg : GenConfig} :
    ∀ {slot : GenSlot} {ts : List Sampled}, Decidable (SeenRun cfg slot ts)
  | _, [] => .isTrue trivial
  | _, _ :: _ => @instDecidableAnd _ _ _ decidableSeenRun

/-- The pieces of some tokens in a row. -/
def pieces (cfg : GenConfig) (ts : List Sampled) : Text := ts.flatMap fun t => cfg.piece t.tok

theorem reset_unleaked (slot : GenSlot) :
    slot.reset.Unleaked slot.textParams.antiprompt [] [] :=
  { slot.reset_sending with
    antiprompt := rfl
    closed := Occurrence.closed_nil
    text_eq := rfl
    stop_ne := by simp [GenSlot.reset] }

section Run

variable {cfg : GenConfig} {s : GenSlot} {tok : Token} {words : List Text} {sent text : Text}
  {late : Bool}

theorem GenSlot.Unleaked.sampledAt (h : s.Unleaked words sent text) (t : Sampled) :
    (s.sampledAt t).Unleaked words sent text :=
  { h.toSending.sampledAt t with
    antiprompt := h.antiprompt
    closed := h.closed
    text_eq := h.text_eq
    stop_ne := h.stop_ne }

theorem GenSlot.Unleaked.step (h : s.Unleaked words sent text) (hne : [] ∉ words)
    (hseen : s.StopsSeen cfg tok late) :
    Unleaking words (processToken cfg true late s tok) sent (text ++ cfg.piece tok) := by
  rcases hinc : (s.appendToken cfg tok).incomplete with _ | _
  · exact unleaking_complete h hne hinc hseen
  · exact unleaking_incomplete h hne hinc hseen

/-- Tokens that meet the condition and after which generation goes on leak nothing. -/
theorem unleaked_of_goOn (hne : [] ∉ words) (rest : List Sampled) : ∀ {ts : List Sampled}
    {slot : GenSlot} {sent text : Text}, slot.Unleaked words sent text →
      SeenRun cfg slot (ts ++ rest) → goOn cfg slot ts = some s →
    ∃ sent', s.Unleaked words sent' (text ++ pieces cfg ts) ∧ SeenRun cfg s rest ∧
      sent ++ contents (respond cfg true slot (ts ++ rest)) =
        sent' ++ contents (respond cfg true s rest)
  | [], slot, sent, text, h, hseen, hgo => by
    obtain rfl := Option.some.inj hgo
    refine ⟨sent, ?_, hseen, rfl⟩
    rw [pieces, List.flatMap_nil, List.append_nil]
    exact h
  | t :: ts, slot, sent, text, h, hseen, hgo => by
    simp only [goOn, Option.ite_none_right_eq_some] at hgo
    obtain ⟨hnext, hgo⟩ := hgo
    obtain ⟨ht, hseen⟩ := hseen
    have hstep := ((h.sampledAt t).step hne ht).go
    rw [processToken_fst] at hstep
    obtain ⟨sent', hs, hseen, hsent⟩ := unleaked_of_goOn hne rest (hstep hnext) hseen hgo
    refine ⟨sent', ?_, hseen, ?_⟩
    · rw [pieces, List.flatMap_cons, ← List.append_assoc]
      exact hs
    · simp only [List.cons_append, respond, processToken_fst cfg true, hnext, if_true]
      rw [contents, List.flatMap_append, ← List.append_assoc]
      exact hsent

end Run

/-- With the token `t` after the tokens `ts`: nothing that was sent has a stop string in it, nor has
the text that generation ends with, and a stop string ends it where the first one stands. -/
structure KeepsStopWords (cfg : GenConfig) (slot s : GenSlot) (ts : List Sampled) (t : Sampled) :
    Prop where
  sent : Free slot.textParams.antiprompt (contents (respond cfg true slot.reset (ts ++ [t])))
  text : (processToken cfg false t.late (s.sampledAt t) t.tok).1.hasNextToken = false →
    Free slot.textParams.antiprompt
      (processToken cfg false t.late (s.sampledAt t) t.tok).1.generatedText
  cut : (processToken cfg false t.late (s.sampledAt t) t.tok).1.hasNextToken = false →
    (processToken cfg false t.late (s.sampledAt t) t.tok).1.stop = .word →
    ∃ p, First slot.textParams.antiprompt (pieces cfg (ts ++ [t])) p ∧
      (processToken cfg false t.late (s.sampledAt t) t.tok).1.generatedText =
        (pieces cfg (ts ++ [t])).take p

theorem stop_words_never_leak (cfg : GenConfig) (slot s : GenSlot) (ts : List Sampled)
    (t : Sampled) (hne : [] ∉ slot.textParams.antiprompt)
    (hgo : goOn cfg slot.reset ts = some s) (hseen : SeenRun cfg slot.reset (ts ++ [t])) :
    KeepsStopWords cfg slot s ts t := by
  obtain ⟨sent, hs, ⟨ht, -⟩, hsent⟩ := unleaked_of_goOn hne [t] (reset_unleaked slot) hseen hgo
  have hlast := (hs.sampledAt t).step hne ht
  rw [List.nil_append] at hsent hs hlast
  have hpieces : pieces cfg (ts ++ [t]) = pieces cfg ts ++ cfg.piece t.tok := by
    simp [pieces]
  have hrespond : contents (respond cfg true s [t]) =
      contents (processToken cfg true t.late (s.sampledAt t) t.tok).2 := by
    simp only [respond]
    split_ifs <;> simp [contents, finalResponse, Response.content]
  obtain ⟨hfree, -, hend, hcut⟩ := hlast
  rw [processToken_fst] at hend hcut
  refine ⟨?_, hend, ?_⟩
  · rw [hsent, hrespond]
    exact hfree
  · rw [hpieces]
    exact hcut

theorem stop_words_never_leak_stop_string : ∃ s,
    goOn byteGen stopSlot.reset [nthSampled 1 99, nthSampled 2 97] = some s ∧
      KeepsStopWords byteGen stopSlot s [nthSampled 1 99, nthSampled 2 97] (nthSampled 3 98) := by
  have hgo : (goOn byteGen stopSlot.reset [nthSampled 1 99, nthSampled 2 97]).isSome := by
    decide
  have hseen : SeenRun byteGen stopSlot.reset
      ([nthSampled 1 99, nthSampled 2 97] ++ [nthSampled 3 98]) := by
    decide
  obtain ⟨s, hs⟩ := Option.isSome_iff_exists.1 hgo
  exact ⟨s, hs, stop_words_never_leak byteGen stopSlot s _ _ (by decide) hs hseen⟩

/-- No stop string leaks from any run. -/
def StopWordLaw : Prop :=
  ∀ (cfg : GenConfig) (slot s : GenSlot) (ts : List Sampled) (t : Sampled),
    [] ∉ slot.textParams.antiprompt → goOn cfg slot.reset ts = some s →
    KeepsStopWords cfg slot s ts t

/-- Token 1 is "ab" with the first byte of "€", tokens 2 and 3 are the bytes after it. -/
def euroGen : GenConfig where
  piece tok := if tok = 1 then [97, 98, 0xE2] else if tok = 2 then [0x82] else [0xAC]
  isEog _ := false
  nCtxTrain := 4096

/-- The search made for the last byte of "€" does not look back to the stop string before it. -/
theorem not_stopWordLaw : ¬ StopWordLaw := by
  intro h
  have hgo : (goOn euroGen stopSlot.reset [nthSampled 1 1, nthSampled 2 2]).isSome := by
    decide
  have hleak : ¬ Free stopSlot.textParams.antiprompt (contents (respond euroGen true stopSlot.reset
      ([nthSampled 1 1, nthSampled 2 2] ++ [nthSampled 3 3]))) := by
    decide
  obtain ⟨s, hs⟩ := Option.isSome_iff_exists.1 hgo
  exact hleak (h euroGen stopSlot s _ _ (by decide) hs).sent

end LamaServer
