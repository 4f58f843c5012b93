import Mathlib.Data.List.Chain
import Mathlib.Data.List.Induction
import LamaServer.Grammar
import LamaServer.Lib.Except

/-!
# Stacks are leftmost derivations

A stack read from the top to the bottom is a form of the grammar. Advancing it expands the form's
first nonterminal until characters come first, and accepting a character reads it. So advancing
comes to an end exactly where expanding does.
-/

namespace LamaServer

namespace GrammarElement

/-- A range may start with the element. -/
def opensRange : GrammarElement → Bool
  | char _ => true
  | charNot _ => true
  | charAlt _ => true
  | _ => false

/-- Another range may follow the element. -/
def inClass : GrammarElement → Bool
  | charRngUpper _ => true
  | e => e.opensRange

def mayFollow (prev : GrammarElement) : GrammarElement → Bool
  | charRngUpper _ => prev.opensRange
  | charAlt _ => prev.inClass
  | _ => true

end GrammarElement

open GrammarElement (mayFollow)

namespace GrammarPos

variable {n : Nat} {e : GrammarElement} {pos : GrammarPos} {chr : UInt32} {found : Bool}

/-- Elements of a rule up to its end, among `n` rules. -/
structure Tail (n : Nat) (pos : GrammarPos) : Prop where
  chain : pos.IsChain fun e e' => mayFollow e e'
  last : pos.getLast? = some .endRule
  refs : ∀ i, .ruleRef i ∈ pos → i < n

/-- A position where a symbol starts, or an end. -/
structure Valid (n : Nat) (pos : GrammarPos) : Prop extends Tail n pos where
  first : ∀ e ∈ pos.head?, mayFollow .endRule e

theorem Tail.ne_nil (h : Tail n pos) : pos ≠ [] := by
  rintro rfl
  cases h.last

theorem Tail.tail (h : Tail n (e :: pos)) (he : e ≠ .endRule) : Tail n pos where
  chain := h.chain.tail
  last := by
    have hlast := h.last
    cases pos with
    | nil => exact absurd (Option.some.inj hlast) he
    | cons e' pos => exact hlast
  refs i hi := h.refs i (List.mem_cons_of_mem _ hi)

/-- After anything but a class a symbol starts. -/
theorem Tail.valid (h : Tail n (e :: pos)) (he : e ≠ .endRule)
    (hnext : ∀ e', mayFollow e e' = mayFollow .endRule e') : Valid n pos where
  toTail := h.tail he
  first e' he' := by
    cases pos with
    | nil => cases he'
    | cons d pos =>
      cases he'
      rw [← hnext]
      exact (List.isChain_cons_cons.1 h.chain).1

theorem Valid.head_cases (h : Valid n (e :: pos)) :
    e.isEnd = true ∨ (∃ i, e = .ruleRef i) ∨ (∃ c, e = .char c) ∨ (∃ c, e = .charNot c) ∨
      e = .charAny := by
  have hfirst := h.first e rfl
  cases e with
  | endRule => exact .inl rfl
  | alt => exact .inl rfl
  | ruleRef i => exact .inr (.inl ⟨i, rfl⟩)
  | char c => exact .inr (.inr (.inl ⟨c, rfl⟩))
  | charNot c => exact .inr (.inr (.inr (.inl ⟨c, rfl⟩)))
  | charRngUpper c => exact absurd hfirst Bool.false_ne_true
  | charAlt c => exact absurd hfirst Bool.false_ne_true
  | charAny => exact .inr (.inr (.inr (.inr rfl)))

/-! ## Classes of characters -/

/-- What follows an element of a class: a symbol, an upper end or another range. -/
theorem Tail.next_cases (h : Tail n (e :: pos)) (he : e.inClass = true) :
    Valid n pos ∨ (∃ hi q, pos = .charRngUpper hi :: q ∧ e.opensRange = true) ∨
      ∃ c q, pos = .charAlt c :: q := by
  have hend : e ≠ .endRule := by
    rintro rfl
    cases he
  have htail := h.tail hend
  cases pos with
  | nil => exact absurd rfl htail.ne_nil
  | cons d q =>
    have hd := (List.isChain_cons_cons.1 h.chain).1
    cases d with
    | charRngUpper hi => exact .inr (.inl ⟨hi, q, rfl, hd⟩)
    | charAlt c => exact .inr (.inr ⟨c, q, rfl⟩)
    | _ => exact .inl ⟨htail, fun _ hd => by cases hd; rfl⟩

theorem Valid.startsAlt (h : Valid n pos) : startsAlt pos = false := by
  cases pos with
  | nil => rfl
  | cons d q =>
    cases d with
    | charAlt c => exact absurd (h.first _ rfl) Bool.false_ne_true
    | _ => rfl

theorem Valid.altRanges (h : Valid n pos) : altRanges pos = [] := by
  cases pos with
  | nil => rfl
  | cons d q =>
    cases d with
    | charAlt c => exact absurd (h.first _ rfl) Bool.false_ne_true
    | charRngUpper c => exact absurd (h.first _ rfl) Bool.false_ne_true
    | _ => rfl

theorem Valid.rangeFrom (h : Valid n pos) (c : UInt32) : rangeFrom c pos = (c, c) := by
  cases pos with
  | nil => rfl
  | cons d q =>
    cases d with
    | charRngUpper c => exact absurd (h.first _ rfl) Bool.false_ne_true
    | _ => rfl

theorem matchLoop_single (h : ∀ hi q, pos ≠ .charRngUpper hi :: q) :
    matchLoop chr found (e :: pos) =
      if GrammarPos.startsAlt pos then
        matchLoop chr (found || e = .charAny || e.value = chr) pos
      else (found || e = .charAny || e.value = chr, pos) := by
  rw [matchLoop]
  exact h

/-- The ranges of a class are tried, and the position behind it is found. -/
theorem matchLoop_spec (chr : UInt32) : ∀ (pos : GrammarPos) {e : GrammarElement} (found : Bool),
    Tail n (e :: pos) → e.opensRange = true →
    Valid n (matchLoop chr found (e :: pos)).2 ∧
      symbols (matchLoop chr found (e :: pos)).2 = symbols pos ∧
      ((matchLoop chr found (e :: pos)).1 = true ↔ found = true ∨
        ∃ r ∈ GrammarPos.rangeFrom e.value pos :: GrammarPos.altRanges pos, r.1 ≤ chr ∧ chr ≤ r.2)
  | pos, e, found, h, he => by
    have hend : e ≠ .endRule := by
      rintro rfl
      cases he
    have hany : e ≠ .charAny := by
      rintro rfl
      cases he
    have hclass : e.inClass = true := by cases e <;> first | rfl | cases he
    have hsingle : e.value = chr ↔ e.value ≤ chr ∧ chr ≤ e.value :=
      ⟨fun h => h ▸ ⟨UInt32.le_refl _, UInt32.le_refl _⟩, fun h => UInt32.le_antisymm h.1 h.2⟩
    obtain hvalid | ⟨hi, q, rfl, -⟩ | ⟨c, q, rfl⟩ := h.next_cases hclass
    · rw [matchLoop_single fun hi q hq => by
        rw [hq] at hvalid
        exact absurd (hvalid.first _ rfl) Bool.false_ne_true, hvalid.startsAlt]
      refine ⟨hvalid, rfl, ?_⟩
      simp [hvalid.altRanges, hvalid.rangeFrom, hany, hsingle]
    · have hq := (h.tail hend).next_cases rfl
      have hqtail := (h.tail hend).tail (by simp)
      obtain hvalid | ⟨-, -, -, hopen⟩ | ⟨c, q, rfl⟩ := hq
      · rw [matchLoop, hvalid.startsAlt]
        refine ⟨hvalid, rfl, ?_⟩
        simp [hvalid.altRanges]
      · cases hopen
      · obtain ⟨hv, hs, hr⟩ :=
          matchLoop_spec chr q (found || (e.value ≤ chr && chr ≤ hi)) hqtail rfl
        rw [matchLoop, startsAlt_charAlt, if_pos rfl]
        refine ⟨hv, hs, hr.trans ?_⟩
        simp [or_assoc]
    · obtain ⟨hv, hs, hr⟩ := matchLoop_spec chr q (found || e = .charAny || e.value = chr)
        (h.tail hend) rfl
      rw [matchLoop_single (by simp), startsAlt_charAlt, if_pos rfl]
      refine ⟨hv, hs, hr.trans ?_⟩
      simp [hany, hsingle, or_assoc]
  termination_by pos => pos.length

/-- A character that a symbol stands for is matched, and what follows is left. -/
theorem Valid.matchChar {k : CharClass} {p : Cfg.Form Nat CharClass} (h : Valid n pos)
    (hk : pos.symbols = .char k :: p) (chr : UInt32) : ∃ b pos', pos.matchChar chr = .ok (b, pos') ∧
      (b = true ↔ k.Contains chr) ∧ Valid n pos' ∧ pos'.symbols = p := by
  cases pos with
  | nil => cases hk
  | cons e q =>
    obtain hend | ⟨i, rfl⟩ | ⟨c, rfl⟩ | ⟨c, rfl⟩ | rfl := h.head_cases
    · cases e <;> cases hend <;> cases hk
    · cases hk
    · obtain ⟨hv, hs, hm⟩ := matchLoop_spec chr q false h.toTail rfl
      simp only [symbols, List.cons.injEq, Cfg.Sym.char.injEq] at hk
      obtain ⟨rfl, rfl⟩ := hk
      exact ⟨_, _, rfl, hm.trans (by simp [CharClass.Contains, GrammarElement.value]), hv, hs⟩
    · obtain ⟨hv, hs, hm⟩ := matchLoop_spec chr q false h.toTail rfl
      simp only [symbols, List.cons.injEq, Cfg.Sym.char.injEq] at hk
      obtain ⟨rfl, rfl⟩ := hk
      refine ⟨_, _, rfl, ?_, hv, hs⟩
      dsimp only
      rw [Bool.not_eq_true', ← Bool.not_eq_true, hm]
      simp [CharClass.Contains, GrammarElement.value]
    · have hv : Valid n q := h.toTail.valid (by simp) fun e' => by cases e' <;> rfl
      simp only [symbols, List.cons.injEq, Cfg.Sym.char.injEq] at hk
      obtain ⟨rfl, rfl⟩ := hk
      have hloop : matchLoop chr false (.charAny :: q) = (true, q) := by
        rw [matchLoop_single fun hi r hr => by
          rw [hr] at hv
          exact absurd (hv.first _ rfl) Bool.false_ne_true, hv.startsAlt]
        rfl
      refine ⟨true, q, ?_, by simp [CharClass.Contains], hv, rfl⟩
      exact congrArg Except.ok hloop

/-! ## Positions -/

theorem symbols_of_end (h : pos.isEndOfSequence = true) : pos.symbols = [] := by
  cases pos with
  | nil => rfl
  | cons e q => cases e <;> first | rfl | cases h

/-- What a position stands for: nothing, a rule and the position behind it, or a character. -/
theorem Valid.cases (h : Valid n pos) :
    pos.isEndOfSequence = true ∨
      (∃ i q, pos = .ruleRef i :: q ∧ i < n ∧ Valid n q) ∨
      (∃ k p, pos.symbols = .char k :: p) ∧ ∀ rules fuel stack newStacks,
        advanceStack rules (fuel + 1) (pos :: stack) newStacks =
          .ok (addStack (pos :: stack) newStacks) := by
  cases pos with
  | nil => exact .inl rfl
  | cons e q =>
    obtain hend | ⟨i, rfl⟩ | ⟨c, rfl⟩ | ⟨c, rfl⟩ | rfl := h.head_cases
    · exact .inl (by simpa [isEndOfSequence] using hend)
    · refine .inr (.inl ⟨i, q, rfl, h.refs i (List.mem_cons_self ..), ?_⟩)
      exact h.toTail.valid (by simp) fun e' => by cases e' <;> rfl
    · exact .inr (.inr ⟨⟨_, _, rfl⟩, fun _ _ _ _ => rfl⟩)
    · exact .inr (.inr ⟨⟨_, _, rfl⟩, fun _ _ _ _ => rfl⟩)
    · exact .inr (.inr ⟨⟨_, _, rfl⟩, fun _ _ _ _ => rfl⟩)

theorem Tail.laterAlternates : ∀ {pos : GrammarPos}, Tail n pos →
    ∀ q ∈ laterAlternates pos, Valid n q
  | [], h, _, _ => absurd rfl h.ne_nil
  | e :: pos, h, q, hq => by
    cases e with
    | endRule => cases hq
    | alt =>
      obtain rfl | hq := List.mem_cons.1 hq
      · exact h.valid (by simp) fun e' => by cases e' <;> rfl
      · exact (h.tail (by simp)).laterAlternates q hq
    | _ => exact (h.tail (by simp)).laterAlternates q hq

theorem Valid.alternates {rule : GrammarRule} (h : Valid n rule) :
    ∀ pos ∈ rule.alternates, Valid n pos := by
  intro pos hpos
  obtain rfl | hpos := List.mem_cons.1 hpos
  · exact h
  · exact h.toTail.laterAlternates pos hpos

end GrammarPos

/-! ## Stacks -/

namespace GrammarStack

variable {n : Nat} {stack : GrammarStack} {pos : GrammarPos}

/-- A symbol starts at each position. -/
def Valid (n : Nat) (stack : GrammarStack) : Prop :=
  ∀ pos ∈ stack, pos.Valid n ∧ pos.isEndOfSequence = false

theorem valid_push (hpos : pos.Valid n) (h : stack.Valid n) : (push pos stack).Valid n := by
  unfold push
  split_ifs with hend
  · exact h
  · exact List.forall_mem_cons.2 ⟨⟨hpos, by simpa using hend⟩, h⟩

theorem form_push (pos : GrammarPos) (stack : GrammarStack) :
    (push pos stack).form = pos.symbols ++ stack.form := by
  unfold push
  split_ifs with hend
  · rw [GrammarPos.symbols_of_end hend, List.nil_append]
  · rfl

end GrammarStack

theorem mem_addStack {s stack : GrammarStack} {stackSet : List GrammarStack} :
    s ∈ addStack stack stackSet ↔ s ∈ stackSet ∨ s = stack := by
  unfold addStack
  split_ifs with h
  · exact ⟨.inl, fun hs => hs.elim id fun hs => hs ▸ h⟩
  · simp

/-- The rules of a grammar that is accepted. -/
def RulesValid (rules : List GrammarRule) : Prop :=
  ∀ rule ∈ rules, GrammarPos.Valid rules.length rule

/-- Nothing is left, or a character comes first. -/
def Terminal (p : Cfg.Form Nat CharClass) : Prop := ∀ i q, p ≠ .rule i :: q

theorem terminal_nil : Terminal [] := fun _ _ h => by cases h

theorem terminal_char (k : CharClass) (p : Cfg.Form Nat CharClass) : Terminal (.char k :: p) :=
  fun _ _ h => by cases h

section Advance

variable {rules : List GrammarRule} {fuel i n : Nat} {stack : GrammarStack}
  {newStacks out : List GrammarStack} {p q : Cfg.Form Nat CharClass}

theorem mem_alts {rule : GrammarRule} (h : rules[i]? = some rule) :
    q ∈ (grammarOf rules).alts i ↔ ∃ pos ∈ rule.alternates, pos.symbols = q := by
  simp [grammarOf, h]

theorem reads_of_terminal (h : (grammarOf rules).Reads p [] q) (hp : Terminal p) : q = p := by
  cases h with
  | refl => rfl
  | expand => exact absurd rfl (hp _ _)

/-- What advancing stacks with these forms did. -/
structure Advanced (rules : List GrammarRule) (forms : List (Cfg.Form Nat CharClass))
    (newStacks out : List GrammarStack) : Prop where
  halts : ∀ p ∈ forms, (grammarOf rules).Halts p
  mono : ∀ s ∈ newStacks, s ∈ out
  sound : ∀ s ∈ out, s ∈ newStacks ∨
    s.Valid rules.length ∧ Terminal s.form ∧ ∃ p ∈ forms, (grammarOf rules).Reads p [] s.form
  complete : ∀ p ∈ forms, ∀ q, (grammarOf rules).Reads p [] q → Terminal q → ∃ s ∈ out, s.form = q

variable {forms : List (Cfg.Form Nat CharClass)} {mid : List GrammarStack}

theorem advanced_nil (newStacks : List GrammarStack) : Advanced rules [] newStacks newStacks where
  halts _ h := by cases h
  mono _ h := h
  sound _ h := .inl h
  complete _ h := by cases h

theorem Advanced.snoc (h : Advanced rules forms newStacks mid) (h' : Advanced rules [p] mid out) :
    Advanced rules (forms ++ [p]) newStacks out where
  halts q hq := (List.mem_append.1 hq).elim (h.halts q) (h'.halts q)
  mono s hs := h'.mono s (h.mono s hs)
  sound s hs := by
    obtain hmid | ⟨hv, ht, q, hq, hread⟩ := h'.sound s hs
    · obtain hnew | ⟨hv, ht, q, hq, hread⟩ := h.sound s hmid
      · exact .inl hnew
      · exact .inr ⟨hv, ht, q, List.mem_append_left _ hq, hread⟩
    · exact .inr ⟨hv, ht, q, List.mem_append_right _ hq, hread⟩
  complete q hq r hread hr := by
    obtain hq | hq := List.mem_append.1 hq
    · obtain ⟨s, hs, hform⟩ := h.complete q hq r hread hr
      exact ⟨s, h'.mono s hs, hform⟩
    · exact h'.complete q hq r hread hr

theorem advanced_terminal (hv : stack.Valid rules.length) (hp : Terminal stack.form) :
    Advanced rules [stack.form] newStacks (addStack stack newStacks) where
  halts p hmem := by
    obtain rfl := List.mem_singleton.1 hmem
    refine ⟨_, fun _ hstep => ?_⟩
    generalize stack.form = p at hp hstep
    cases hstep with
    | mk => exact absurd rfl (hp _ _)
  mono s hs := mem_addStack.2 (.inl hs)
  sound s hs := by
    obtain hs | rfl := mem_addStack.1 hs
    · exact .inl hs
    · exact .inr ⟨hv, hp, s.form, List.mem_singleton_self _, .refl _⟩
  complete p hmem q hread _ := by
    obtain rfl := List.mem_singleton.1 hmem
    exact ⟨stack, mem_addStack.2 (.inr rfl), (reads_of_terminal hread hp).symm⟩

/-- Advancing the alternatives of a rule advances the rule. -/
theorem Advanced.expand {rule : GrammarRule} (hrule : rules[i]? = some rule)
    (h : Advanced rules (rule.alternates.map fun pos => pos.symbols ++ p) newStacks out) :
    Advanced rules [.rule i :: p] newStacks out where
  halts q hq := by
    obtain rfl := List.mem_singleton.1 hq
    refine ⟨_, fun _ hstep => ?_⟩
    cases hstep with
    | mk _ halt =>
      obtain ⟨pos, hpos, rfl⟩ := (mem_alts hrule).1 halt
      exact h.halts _ (List.mem_map_of_mem hpos)
  mono := h.mono
  sound s hs := by
    obtain hs | ⟨hv, ht, q, hq, hread⟩ := h.sound s hs
    · exact .inl hs
    · obtain ⟨pos, hpos, rfl⟩ := List.mem_map.1 hq
      exact .inr ⟨hv, ht, _, List.mem_singleton_self _,
        .expand ((mem_alts hrule).2 ⟨pos, hpos, rfl⟩) hread⟩
  complete q hq r hread hr := by
    obtain rfl := List.mem_singleton.1 hq
    cases hread with
    | refl => exact absurd rfl (hr _ _)
    | expand halt hread =>
      obtain ⟨pos, hpos, rfl⟩ := (mem_alts hrule).1 halt
      exact h.complete _ (List.mem_map_of_mem hpos) r hread hr

theorem advanceStack_ruleRef {next : GrammarPos} {newStacks : List GrammarStack} :
    advanceStack rules (fuel + 1) ((.ruleRef i :: next) :: stack) newStacks =
      match rules[i]? with
      | none => .error .outOfRange
      | some rule => rule.alternates.foldlM (fun newStacks subpos =>
          advanceStack rules fuel ((GrammarStack.push next stack).push subpos) newStacks)
            newStacks := rfl

/-- The stack of an alternative before it is advanced. -/
theorem alternate_stack (hrules : RulesValid rules) {rule : GrammarRule} {next : GrammarPos}
    (hrule : rules[i]? = some rule) (hnext : next.Valid rules.length)
    (hstack : stack.Valid rules.length) : ∀ subpos ∈ rule.alternates,
    ((GrammarStack.push next stack).push subpos).Valid rules.length ∧
      ((GrammarStack.push next stack).push subpos).form =
        subpos.symbols ++ (next.symbols ++ stack.form) := by
  intro subpos hsub
  have hsubpos := (hrules rule (List.mem_of_getElem? hrule)).alternates subpos hsub
  refine ⟨GrammarStack.valid_push hsubpos (GrammarStack.valid_push hnext hstack), ?_⟩
  rw [GrammarStack.form_push, GrammarStack.form_push]

/-- The form of a stack whose top is a terminal. -/
theorem terminal_cons {pos : GrammarPos} {k : CharClass} (h : pos.symbols = .char k :: p)
    (stack : GrammarStack) : Terminal (GrammarStack.form (pos :: stack)) := by
  rw [GrammarStack.form, List.flatMap_cons, h]
  exact terminal_char _ _

theorem advanceStack_advanced (hrules : RulesValid rules) : ∀ {fuel : Nat} {stack : GrammarStack}
    {newStacks out : List GrammarStack}, stack.Valid rules.length →
    advanceStack rules fuel stack newStacks = .ok out →
    Advanced rules [stack.form] newStacks out
  | 0, _, _, _, _, h => by cases h
  | _ + 1, [], _, _, hv, h => by
    cases h
    exact advanced_terminal hv terminal_nil
  | fuel + 1, pos :: stack, newStacks, out, hv, h => by
    obtain ⟨⟨hpos, hend⟩, hstack⟩ := List.forall_mem_cons.1 hv
    obtain hend' | ⟨i, next, rfl, hi, hnext⟩ | ⟨⟨k, p, hk⟩, hadv⟩ := hpos.cases
    · rw [hend] at hend'
      cases hend'
    · obtain ⟨rule, hrule⟩ : ∃ rule, rules[i]? = some rule := ⟨_, List.getElem?_eq_getElem hi⟩
      simp only [advanceStack_ruleRef, hrule] at h
      have halternate := alternate_stack hrules hrule hnext hstack
      refine Advanced.expand hrule ?_
      -- the alternatives that are done have been advanced
      refine (Except.foldlM_induction (P := fun done acc => (∀ pos ∈ done, pos ∈ rule.alternates) →
        Advanced rules (done.map fun pos => pos.symbols ++ _) newStacks acc) h
        (fun _ => advanced_nil _) fun done subpos acc acc' hdone hstep hmem => ?_) fun _ h => h
      rw [List.map_append]
      obtain ⟨hvalid, hform⟩ := halternate subpos (hmem subpos (by simp))
      have hone := advanceStack_advanced hrules hvalid hstep
      rw [hform] at hone
      exact (hdone fun pos hpos => hmem pos (List.mem_append_left _ hpos)).snoc hone
    · rw [hadv] at h
      cases h
      exact advanced_terminal hv (terminal_cons hk stack)

/-- Where expanding halts, advancing returns with enough fuel. -/
theorem advanceStack_total (hrules : RulesValid rules) {stack : GrammarStack}
    (hhalts : (grammarOf rules).Halts stack.form) (hv : stack.Valid rules.length) :
    ∃ n, ∀ fuel, n ≤ fuel → ∀ newStacks, ∃ out,
      advanceStack rules fuel stack newStacks = .ok out := by
  generalize hp : stack.form = p at hhalts
  induction hhalts generalizing stack with
  | intro p _ ih =>
    cases stack with
    | nil => exact ⟨1, fun fuel hfuel newStacks => by
        obtain ⟨fuel, rfl⟩ := Nat.exists_eq_succ_of_ne_zero (Nat.ne_of_gt hfuel)
        exact ⟨_, rfl⟩⟩
    | cons pos stack =>
      obtain ⟨⟨hpos, hend⟩, hstack⟩ := List.forall_mem_cons.1 hv
      obtain hend' | ⟨i, next, rfl, hi, hnext⟩ | ⟨-, hadv⟩ := hpos.cases
      · rw [hend] at hend'
        cases hend'
      · obtain ⟨rule, hrule⟩ : ∃ rule, rules[i]? = some rule := ⟨_, List.getElem?_eq_getElem hi⟩
        have halternate := alternate_stack hrules hrule hnext hstack
        have hone : ∀ subpos ∈ rule.alternates, ∃ n, ∀ fuel, n ≤ fuel → ∀ newStacks, ∃ out,
            advanceStack rules fuel ((GrammarStack.push next stack).push subpos) newStacks =
              .ok out := fun subpos hsub => by
          obtain ⟨hvalid, hform⟩ := halternate subpos hsub
          refine ih _ ?_ hvalid hform
          rw [← hp]
          exact .mk _ ((mem_alts hrule).2 ⟨subpos, hsub, rfl⟩)
        obtain ⟨n, hn⟩ := List.exists_fuel hone
        refine ⟨n + 1, fun fuel hfuel newStacks => ?_⟩
        obtain ⟨fuel, rfl⟩ := Nat.exists_eq_succ_of_ne_zero (show fuel ≠ 0 by omega)
        simp only [advanceStack_ruleRef, hrule]
        exact Except.foldlM_total newStacks fun subpos hsub acc =>
          hn fuel (by omega) subpos hsub acc
      · refine ⟨1, fun fuel hfuel newStacks => ?_⟩
        obtain ⟨fuel, rfl⟩ := Nat.exists_eq_succ_of_ne_zero (Nat.ne_of_gt hfuel)
        exact ⟨_, hadv rules fuel stack newStacks⟩

/-- Advancing a valid stack does nothing that is not allowed. -/
theorem advanceStack_ends (hrules : RulesValid rules) : ∀ {fuel : Nat} {stack : GrammarStack}
    (newStacks : List GrammarStack), stack.Valid rules.length →
    (advanceStack rules fuel stack newStacks).Ends (· = .outOfFuel) fun _ => True
  | 0, _, _, _ => rfl
  | _ + 1, [], _, _ => trivial
  | fuel + 1, pos :: stack, newStacks, hv => by
    obtain ⟨⟨hpos, hend⟩, hstack⟩ := List.forall_mem_cons.1 hv
    obtain hend' | ⟨i, next, rfl, hi, hnext⟩ | ⟨-, hadv⟩ := hpos.cases
    · rw [hend] at hend'
      cases hend'
    · obtain ⟨rule, hrule⟩ : ∃ rule, rules[i]? = some rule := ⟨_, List.getElem?_eq_getElem hi⟩
      simp only [advanceStack_ruleRef, hrule]
      exact Except.Ends.foldlM newStacks fun subpos hsub acc => advanceStack_ends hrules acc
        (alternate_stack hrules hrule hnext hstack subpos hsub).1
    · rw [hadv]
      trivial

theorem advanceStack_mono : ∀ {fuel m : Nat} {stack : GrammarStack}
    {newStacks out : List GrammarStack}, fuel ≤ m →
    advanceStack rules fuel stack newStacks = .ok out →
    advanceStack rules m stack newStacks = .ok out
  | 0, _, _, _, _, _, h => by cases h
  | fuel + 1, m, stack, newStacks, out, hm, h => by
    obtain ⟨m, rfl⟩ := Nat.exists_eq_succ_of_ne_zero (show m ≠ 0 by omega)
    cases stack with
    | nil => exact h
    | cons pos stack =>
      cases pos with
      | nil => cases h
      | cons e next =>
        cases e with
        | ruleRef i =>
          simp only [advanceStack_ruleRef] at h ⊢
          cases hrule : rules[i]? with
          | none =>
            rw [hrule] at h
            cases h
          | some rule =>
            rw [hrule] at h
            exact Except.foldlM_mono (fun _ _ _ h => advanceStack_mono (by omega) h) h
        | _ => exact h

/-! ## Accepting characters -/

/-- Each stack starts with a character, if anything is left. -/
def Advanceable (rules : List GrammarRule) (stackSet : List GrammarStack) : Prop :=
  ∀ s ∈ stackSet, s.Valid rules.length ∧ Terminal s.form

theorem Advanced.advanceable (h : Advanced rules forms [] out) : Advanceable rules out :=
  fun s hs => by
    obtain hs | ⟨hv, ht, -⟩ := h.sound s hs
    · cases hs
    · exact ⟨hv, ht⟩

variable {stackSet : List GrammarStack} {chr : UInt32}

/-- Accepting a character advances what follows it in a stack that starts with it. -/
theorem acceptOne_cases (chr : UInt32) (hv : stack.Valid rules.length) (ht : Terminal stack.form) :
    (∃ k q s, stack.form = .char k :: q ∧ k.Contains chr ∧ s.Valid rules.length ∧ s.form = q ∧
        ∀ fuel newStacks, acceptOne rules fuel chr newStacks stack =
          advanceStack rules fuel s newStacks) ∨
      (∀ k q, stack.form = .char k :: q → ¬ k.Contains chr) ∧ ∀ fuel newStacks,
        acceptOne rules fuel chr newStacks stack = .ok newStacks := by
  cases stack with
  | nil => exact .inr ⟨fun _ _ h => (by cases h), fun _ _ => rfl⟩
  | cons pos stack =>
    obtain ⟨⟨hpos, hend⟩, hstack⟩ := List.forall_mem_cons.1 hv
    obtain hend' | ⟨i, next, rfl, -⟩ | ⟨⟨k, p, hk⟩, -⟩ := hpos.cases
    · rw [hend] at hend'
      cases hend'
    · exact absurd rfl (ht _ _)
    · obtain ⟨b, pos', hmatch, hb, hpos', hp⟩ := hpos.matchChar hk chr
      have hform : GrammarStack.form (pos :: stack) =
          .char k :: (p ++ GrammarStack.form stack) := by
        rw [GrammarStack.form, List.flatMap_cons, hk]
        rfl
      have hone : ∀ fuel newStacks, acceptOne rules fuel chr newStacks (pos :: stack) =
          if b then advanceStack rules fuel (GrammarStack.push pos' stack) newStacks
          else .ok newStacks := fun fuel newStacks => by
        rw [acceptOne, hmatch]
        rfl
      rw [hform]
      by_cases hcontains : k.Contains chr
      · refine .inl ⟨k, _, GrammarStack.push pos' stack, rfl, hcontains,
          GrammarStack.valid_push hpos' hstack, by rw [GrammarStack.form_push, hp], ?_⟩
        intro fuel newStacks
        rw [hone, if_pos (hb.2 hcontains)]
      · refine .inr ⟨fun k' q h => by cases h; exact hcontains, fun fuel newStacks => ?_⟩
        rw [hone, if_neg fun h => hcontains (hb.1 h)]

theorem acceptChr_advanced (hrules : RulesValid rules) (hv : Advanceable rules stackSet)
    (h : acceptChr rules fuel stackSet chr = .ok out) : ∃ forms, Advanced rules forms [] out ∧
      ∀ q, q ∈ forms ↔ ∃ s ∈ stackSet, ∃ k, s.form = .char k :: q ∧ k.Contains chr := by
  refine (Except.foldlM_induction (P := fun done acc => (∀ s ∈ done, s ∈ stackSet) →
    ∃ forms, Advanced rules forms [] acc ∧
      ∀ q, q ∈ forms ↔ ∃ s ∈ done, ∃ k, s.form = .char k :: q ∧ k.Contains chr) h
    (fun _ => ⟨[], advanced_nil _, by simp⟩) fun done s acc acc' hdone hstep hmem => ?_)
    fun _ h => h
  obtain ⟨forms, hadv, hforms⟩ := hdone fun s hs => hmem s (List.mem_append_left _ hs)
  obtain ⟨hvalid, hterm⟩ := hv s (hmem s (by simp))
  obtain ⟨k, q, s', hform, hk, hs', hq, heq⟩ | ⟨hno, heq⟩ :=
    acceptOne_cases chr hvalid hterm
  · rw [heq] at hstep
    have hone := advanceStack_advanced hrules hs' hstep
    rw [hq] at hone
    refine ⟨forms ++ [q], hadv.snoc hone, fun r => ?_⟩
    simp only [List.mem_append, List.mem_singleton, hforms, or_and_right, exists_or]
    refine or_congr_right ⟨?_, ?_⟩
    · rintro rfl
      exact ⟨s, rfl, k, hform, hk⟩
    · rintro ⟨_, rfl, k', hform', -⟩
      rw [hform] at hform'
      cases hform'
      rfl
  · rw [heq] at hstep
    cases hstep
    refine ⟨forms, hadv, fun r => (hforms r).trans ⟨?_, ?_⟩⟩
    · rintro ⟨t, ht, hrest⟩
      exact ⟨t, List.mem_append_left _ ht, hrest⟩
    · rintro ⟨t, ht, k, hform, hk⟩
      obtain ht | ht := List.mem_append.1 ht
      · exact ⟨t, ht, k, hform, hk⟩
      · obtain rfl := List.mem_singleton.1 ht
        exact absurd hk (hno k r hform)

variable {start : Nat} {w : List UInt32}

theorem acceptChr_mono {m : Nat} (hm : fuel ≤ m) (h : acceptChr rules fuel stackSet chr = .ok out) :
    acceptChr rules m stackSet chr = .ok out := by
  refine Except.foldlM_mono (fun acc s acc' hstep => ?_) h
  cases s with
  | nil => exact hstep
  | cons pos stack =>
    simp only [acceptOne, Except.bind_eq_ok] at hstep ⊢
    obtain ⟨⟨b, pos'⟩, hmatch, hstep⟩ := hstep
    refine ⟨_, hmatch, ?_⟩
    cases b with
    | false => exact hstep
    | true => exact advanceStack_mono hm hstep

theorem initStacks_eq (fuel start : Nat) : initStacks rules fuel start =
    advanceStack rules (fuel + 1) [[.ruleRef start, .endRule]] [] := by
  rw [initStacks, advanceStack_ruleRef]
  rfl

theorem acceptAll_nil : acceptAll rules fuel start [] = initStacks rules fuel start := by
  unfold acceptAll
  cases initStacks rules fuel start <;> rfl

theorem acceptAll_append (fuel start : Nat) (w : List UInt32) (chr : UInt32) :
    acceptAll rules fuel start (w ++ [chr]) =
      acceptAll rules fuel start w >>= fun mid => acceptChr rules fuel mid chr := by
  simp [acceptAll]

theorem acceptAll_snoc : acceptAll rules fuel start (w ++ [chr]) = .ok out ↔
    ∃ mid, acceptAll rules fuel start w = .ok mid ∧ acceptChr rules fuel mid chr = .ok out := by
  rw [acceptAll_append, Except.bind_eq_ok]

theorem acceptAll_mono {m : Nat} (hm : fuel ≤ m) (h : acceptAll rules fuel start w = .ok out) :
    acceptAll rules m start w = .ok out := by
  induction w using List.reverseRecOn generalizing out with
  | nil =>
    rw [acceptAll_nil, initStacks_eq] at h ⊢
    exact advanceStack_mono (by omega) h
  | append_singleton w chr ih =>
    obtain ⟨mid, hmid, h⟩ := acceptAll_snoc.1 h
    exact acceptAll_snoc.2 ⟨mid, ih hmid, acceptChr_mono hm h⟩

/-- The stack whose only symbol is the rule to start with. -/
theorem start_stack (hstart : start < rules.length) :
    GrammarStack.Valid rules.length [[.ruleRef start, .endRule]] ∧
      GrammarStack.form [[.ruleRef start, .endRule]] = [.rule start] := by
  refine ⟨fun pos hpos => ?_, rfl⟩
  obtain rfl := List.mem_singleton.1 hpos
  refine ⟨⟨⟨by simp [GrammarElement.mayFollow], rfl, fun i hi => ?_⟩, fun e he => ?_⟩, rfl⟩
  · obtain rfl : i = start := by simpa using hi
    exact hstart
  · cases he
    rfl

/-- What accepting the characters of `w` has left: the forms that start with a character in the
derivations that read `w`. -/
structure Reached (rules : List GrammarRule) (start : Nat) (w : List UInt32)
    (stackSet : List GrammarStack) : Prop where
  advanceable : Advanceable rules stackSet
  sound : ∀ s ∈ stackSet, (grammarOf rules).Reads [.rule start] w s.form
  complete : ∀ p, (grammarOf rules).Reads [.rule start] w p → Terminal p →
    ∃ s ∈ stackSet, s.form = p
  halts : ∀ p, (grammarOf rules).Reads [.rule start] w p → (grammarOf rules).Halts p

/-- Up to a letter, and what is expanded behind it. -/
theorem reads_snoc (h : (grammarOf rules).Reads p (w ++ [chr]) q) : ∃ k r,
    (grammarOf rules).Reads p w (.char k :: r) ∧ k.Contains chr ∧
      (grammarOf rules).Reads r [] q := by
  obtain ⟨r, hr, hq⟩ := h.split
  obtain ⟨k, r', hr', hk, hq⟩ := hq.cons
  exact ⟨k, r', by simpa using hr.trans hr', hk, hq⟩

theorem acceptAll_reached (hrules : RulesValid rules) (hstart : start < rules.length)
    (h : acceptAll rules fuel start w = .ok out) : Reached rules start w out := by
  induction w using List.reverseRecOn generalizing out with
  | nil =>
    obtain ⟨hvalid, hform⟩ := start_stack hstart
    rw [acceptAll_nil, initStacks_eq] at h
    have hadv := advanceStack_advanced hrules hvalid h
    rw [hform] at hadv
    refine ⟨hadv.advanceable, fun s hs => ?_, hadv.complete _ (List.mem_singleton_self _),
      fun p hp => hp.halts (hadv.halts _ (List.mem_singleton_self _))⟩
    obtain hs | ⟨-, -, q, hq, hread⟩ := hadv.sound s hs
    · cases hs
    · obtain rfl := List.mem_singleton.1 hq
      exact hread
  | append_singleton w chr ih =>
    obtain ⟨mid, hmid, h⟩ := acceptAll_snoc.1 h
    have hreached := ih hmid
    obtain ⟨forms, hadv, hforms⟩ := acceptChr_advanced hrules hreached.advanceable h
    have hmem : ∀ {p}, (grammarOf rules).Reads [.rule start] (w ++ [chr]) p →
        ∃ q ∈ forms, (grammarOf rules).Reads q [] p := fun hp => by
      obtain ⟨k, q, hq, hk, hread⟩ := reads_snoc hp
      obtain ⟨s, hs, hform⟩ := hreached.complete _ hq (terminal_char k q)
      exact ⟨q, (hforms q).2 ⟨s, hs, k, hform, hk⟩, hread⟩
    refine ⟨hadv.advanceable, fun s hs => ?_, fun p hp hterm => ?_, fun p hp => ?_⟩
    · obtain hs | ⟨-, -, q, hq, hread⟩ := hadv.sound s hs
      · cases hs
      · obtain ⟨t, ht, k, hform, hk⟩ := (hforms q).1 hq
        have hbefore := hreached.sound t ht
        rw [hform] at hbefore
        exact hbefore.trans (.read hk hread)
    · obtain ⟨q, hq, hread⟩ := hmem hp
      exact hadv.complete q hq p hread hterm
    · obtain ⟨q, hq, hread⟩ := hmem hp
      exact hread.halts (hadv.halts q hq)

/-- Where the forms that come up halt, every character string is accepted or not with enough
fuel. -/
theorem acceptAll_total (hrules : RulesValid rules) (hstart : start < rules.length)
    (hhalts : ∀ w p, (grammarOf rules).Reads [.rule start] w p → (grammarOf rules).Halts p)
    (w : List UInt32) : ∃ fuel out, acceptAll rules fuel start w = .ok out := by
  induction w using List.reverseRecOn with
  | nil =>
    obtain ⟨hvalid, hform⟩ := start_stack hstart
    obtain ⟨n, hn⟩ := advanceStack_total hrules (hform ▸ hhalts [] _ (.refl _)) hvalid
    obtain ⟨out, hout⟩ := hn (n + 1) (by omega) []
    exact ⟨n, out, by rw [acceptAll_nil, initStacks_eq, hout]⟩
  | append_singleton w chr ih =>
    obtain ⟨fuel, mid, hmid⟩ := ih
    have hreached := acceptAll_reached hrules hstart hmid
    have hone : ∀ s ∈ mid, ∃ n, ∀ fuel, n ≤ fuel → ∀ newStacks, ∃ out,
        acceptOne rules fuel chr newStacks s = .ok out := by
      intro s hs
      obtain ⟨hvalid, hterm⟩ := hreached.advanceable s hs
      obtain ⟨k, q, s', hform, hk, hs', hq, heq⟩ | ⟨-, heq⟩ :=
        acceptOne_cases chr hvalid hterm
      · have hread := hreached.sound s hs
        rw [hform] at hread
        have hhalt := hhalts _ q (hread.trans (.read hk (.refl q)))
        obtain ⟨n, hn⟩ := advanceStack_total hrules (hq ▸ hhalt) hs'
        exact ⟨n, fun fuel hfuel newStacks => by rw [heq]; exact hn fuel hfuel newStacks⟩
      · exact ⟨0, fun fuel _ newStacks => ⟨newStacks, heq fuel newStacks⟩⟩
    obtain ⟨n, hn⟩ := List.exists_fuel hone
    obtain ⟨out, hout⟩ : ∃ out, acceptChr rules (max fuel n) mid chr = .ok out :=
      Except.foldlM_total [] fun s hs acc => hn (max fuel n) (le_max_right _ _) s hs acc
    exact ⟨max fuel n, out, acceptAll_snoc.2 ⟨mid, acceptAll_mono (le_max_left _ _) hmid, hout⟩⟩

/-- Accepting characters fails only by going on for ever. -/
theorem acceptAll_ends (hrules : RulesValid rules) (hstart : start < rules.length)
    (w : List UInt32) :
    (acceptAll rules fuel start w).Ends (· = .outOfFuel) (Reached rules start w) := by
  suffices (acceptAll rules fuel start w).Ends (· = .outOfFuel) fun _ => True by
    cases h : acceptAll rules fuel start w with
    | ok out => exact acceptAll_reached hrules hstart h
    | error e => exact this.of_error h
  induction w using List.reverseRecOn with
  | nil =>
    rw [acceptAll_nil, initStacks_eq]
    exact advanceStack_ends hrules [] (start_stack hstart).1
  | append_singleton w chr ih =>
    rw [acceptAll_append]
    cases hmid : acceptAll rules fuel start w with
    | error e => exact ih.of_error hmid
    | ok mid =>
      refine Except.Ends.foldlM [] fun s hs acc => ?_
      obtain ⟨hvalid, hterm⟩ := (acceptAll_reached hrules hstart hmid).advanceable s hs
      obtain ⟨k, q, s', hform, hk, hs', hq, heq⟩ | ⟨-, heq⟩ := acceptOne_cases chr hvalid hterm
      · rw [heq]
        exact advanceStack_ends hrules acc hs'
      · rw [heq]
        trivial

theorem finite_alts (rules : List GrammarRule) : {i | (grammarOf rules).alts i ≠ []}.Finite := by
  refine (Set.finite_lt_nat rules.length).subset fun i hi => ?_
  by_contra hlt
  exact hi (by simp [grammarOf, List.getElem?_eq_none (Nat.le_of_not_lt hlt)])

/-- Advancing returns on every stack that accepting characters reaches if and only if no rule that
comes up is left-recursive. -/
theorem acceptAll_iff (hrules : RulesValid rules) (hstart : start < rules.length) :
    (∀ w, ∃ fuel out, acceptAll rules fuel start w = .ok out) ↔
      ∀ i, (grammarOf rules).ComesUp [.rule start] i → ¬ (grammarOf rules).LeftRecursive i := by
  rw [← Cfg.Grammar.halts_iff (finite_alts rules)]
  constructor
  · intro h w p hp
    obtain ⟨fuel, out, hout⟩ := h w
    exact (acceptAll_reached hrules hstart hout).halts p hp
  · exact acceptAll_total hrules hstart

/-- Where no rule is left-recursive, every form halts. -/
theorem halts_of_notLeftRecursive (h : ∀ i, ¬ (grammarOf rules).LeftRecursive i)
    (p : Cfg.Form Nat CharClass) : (grammarOf rules).Halts p :=
  (Cfg.Grammar.halts_iff (finite_alts rules)).2 (fun i _ => h i) [] p (.refl p)

/-- A rule whose alternatives start with a character is not left-recursive. -/
theorem not_leftRecursive_of_terminal (h : ∀ q ∈ (grammarOf rules).alts i, Terminal q) :
    ¬ (grammarOf rules).LeftRecursive i := by
  rintro ⟨r, hrec⟩
  obtain ⟨q, hstep, hq⟩ := Relation.TransGen.head'_iff.1 hrec
  cases hstep with
  | @mk _ q _ hmem =>
    have hterm : Terminal (q ++ []) := (List.append_nil q).symm ▸ h q hmem
    exact hterm _ _ (reads_of_terminal (Cfg.Grammar.reads_of_expands hq) hterm).symm

end Advance

end LamaServer
