import LamaServer.Gbnf
import LamaServer.Proofs.GrammarParser

/-!
# What the parser makes of an expression

Groups and optional repetitions become rules of their own, so what an expression is compiled to is
said about the rules at the end of the text, among which those that the parser generates are still
the ones that it made (`GbnfParser.Final`).
-/

namespace LamaServer

open GrammarElement (mayFollow)

/-! ## Symbols -/

namespace GrammarPos

variable {a b : List GrammarElement} {e : GrammarElement}

/-- A symbol may start here. -/
def Starts (pos : GrammarPos) : Prop := ∀ e ∈ pos.head?, mayFollow .endRule e

theorem starts_nil : Starts [] := fun _ h => by cases h

theorem Starts.append (ha : Starts a) (hb : Starts b) : Starts (a ++ b) := by
  cases a with
  | nil => exact hb
  | cons e a => exact ha

theorem Starts.rangeFrom_append (hb : Starts b) (c : UInt32) :
    rangeFrom c (a ++ b) = rangeFrom c a := by
  cases a with
  | nil =>
    cases b with
    | nil => rfl
    | cons d b =>
      cases d with
      | charRngUpper hi => exact absurd (hb _ rfl) Bool.false_ne_true
      | _ => rfl
  | cons d a => cases d <;> rfl

theorem Starts.altRanges_append (hb : Starts b) : altRanges (a ++ b) = altRanges a := by
  induction a with
  | nil =>
    cases b with
    | nil => rfl
    | cons d b =>
      cases d with
      | charAlt c => exact absurd (hb _ rfl) Bool.false_ne_true
      | charRngUpper c => exact absurd (hb _ rfl) Bool.false_ne_true
      | _ => rfl
  | cons d a ih =>
    cases d with
    | charAlt c => simp [hb.rangeFrom_append, ih]
    | charRngUpper c => simp [ih]
    | _ => rfl

/-- Elements of one alternative. -/
def Inner (a : List GrammarElement) : Prop := ∀ e ∈ a, e.isEnd = false

theorem inner_nil : Inner [] := fun _ h => by cases h

theorem Inner.append (ha : Inner a) (hb : Inner b) : Inner (a ++ b) := fun e he =>
  (List.mem_append.1 he).elim (ha e) (hb e)

theorem symbols_append (ha : Inner a) (hb : Starts b) :
    symbols (a ++ b) = symbols a ++ symbols b := by
  induction a with
  | nil => rfl
  | cons e a ih =>
    have ih := ih fun d hd => ha d (List.mem_cons_of_mem e hd)
    have he := ha e (List.mem_cons_self ..)
    cases e with
    | endRule => cases he
    | alt => cases he
    | ruleRef i => simp [symbols, ih]
    | char c => simp [symbols, ih, hb.rangeFrom_append, hb.altRanges_append]
    | charNot c => simp [symbols, ih, hb.rangeFrom_append, hb.altRanges_append]
    | charAny => simp [symbols, ih]
    | charAlt c => simp [symbols, ih]
    | charRngUpper c => simp [symbols, ih]

/-- Behind an end there are no symbols of the alternative. -/
theorem symbols_end (ha : Inner a) (he : e.isEnd = true) (b : List GrammarElement) :
    symbols (a ++ e :: b) = symbols a := by
  have hstart : Starts (e :: b) := fun d hd => by
    cases hd
    cases e <;> first | rfl | cases he
  have hnil : symbols (e :: b) = [] := by
    cases e <;> first | rfl | cases he
  rw [symbols_append ha hstart, hnil, List.append_nil]

/-- A part of an alternative that consists of symbols. -/
structure Segment (a : List GrammarElement) : Prop where
  starts : Starts a
  inner : Inner a

theorem segment_nil : Segment [] := ⟨starts_nil, inner_nil⟩

theorem segment_single (hstart : mayFollow .endRule e = true) (hend : e.isEnd = false) :
    Segment [e] where
  starts _ h := by cases h; exact hstart
  inner d hd := by rwa [List.mem_singleton.1 hd]

theorem segment_ruleRef (i : Nat) : Segment [.ruleRef i] := segment_single rfl rfl

theorem Segment.append (ha : Segment a) (hb : Segment b) : Segment (a ++ b) :=
  ⟨ha.starts.append hb.starts, ha.inner.append hb.inner⟩

theorem Segment.symbols_append (ha : Segment a) (hb : Segment b) :
    symbols (a ++ b) = symbols a ++ symbols b := GrammarPos.symbols_append ha.inner hb.starts

theorem Segment.replicate (ha : Segment a) : ∀ n, Segment (List.replicate n a).flatten
  | 0 => segment_nil
  | n + 1 => ha.append (ha.replicate n)

end GrammarPos

/-! ## Alternatives -/

namespace GrammarRule

open GrammarPos (Inner Segment symbols)

variable {a : List GrammarElement} {segs : List (List GrammarElement)}

/-- The forms of the alternatives of a rule. -/
def forms (rule : GrammarRule) : List (Cfg.Form Nat CharClass) := rule.alternates.map symbols

theorem laterAlternates_inner (ha : Inner a) (b : List GrammarElement) :
    GrammarPos.laterAlternates (a ++ b) = GrammarPos.laterAlternates b := by
  induction a with
  | nil => rfl
  | cons e a ih =>
    have ih := ih fun d hd => ha d (List.mem_cons_of_mem e hd)
    have he := ha e (List.mem_cons_self ..)
    cases e <;> first | exact ih | cases he

theorem forms_cons_alt (ha : Inner a) (b : List GrammarElement) :
    forms (a ++ .alt :: b) = symbols a :: forms b := by
  unfold forms alternates
  rw [List.map_cons, GrammarPos.symbols_end ha rfl, laterAlternates_inner ha]
  rfl

theorem forms_end (ha : Inner a) : forms (a ++ [.endRule]) = [symbols a] := by
  unfold forms alternates
  rw [List.map_cons, GrammarPos.symbols_end ha rfl, laterAlternates_inner ha]
  rfl

theorem forms_segments : ∀ {a : List GrammarElement} {segs : List (List GrammarElement)},
    Inner a → (∀ s ∈ segs, Inner s) →
    forms (a ++ segs.flatMap (.alt :: ·) ++ [.endRule]) = symbols a :: segs.map symbols
  | a, [], ha, _ => by simpa using forms_end ha
  | a, s :: segs, ha, hsegs => by
    have ih := forms_segments (hsegs s (List.mem_cons_self ..))
      fun s' hs' => hsegs s' (List.mem_cons_of_mem s hs')
    rw [List.flatMap_cons, List.append_assoc, List.append_assoc, List.cons_append,
      forms_cons_alt ha, ← List.append_assoc, ih, List.map_cons]

end GrammarRule

/-! ## The rules at the end of the text -/

namespace GbnfParser

open GrammarPos (Segment symbols)

variable {p q r : GbnfParser} {name base : Text} {id : Nat} {rule rule' : GrammarRule}

/-- The id of a rule that the parser makes for a part of another. -/
def IsHelper (p : GbnfParser) (id : Nat) : Prop :=
  ∃ name, (name, id) ∈ p.symbolIds ∧ ascii '_' ∈ name

/-- Ids are given in order, and rules to those that are given. -/
structure Tidy (p : GbnfParser) : Prop where
  numbered : p.Numbered
  names : (p.symbolIds.map (·.1)).Nodup
  ids : p.symbolIds.map (·.2) = List.range p.symbolIds.length
  size : p.rules.length ≤ p.symbolIds.length

/-- The parser goes on in the middle of a rule: it leaves the rules alone that there are, and makes
none for the names of the text. -/
structure Grows (p q : GbnfParser) : Prop where
  start : p.Tidy
  tidy : q.Tidy
  known : p.symbolIds ⊆ q.symbolIds
  old : ∀ id < p.symbolIds.length, q.rules.getD id [] = p.rules.getD id []
  new : ∀ name id, (name, id) ∈ q.symbolIds → ascii '_' ∉ name → p.symbolIds.length ≤ id →
    q.rules.getD id [] = []

/-- The rules and the names at the end, among which are those that have been made so far. -/
structure Final (p : GbnfParser) (rules : List GrammarRule) (names : List (Text × Nat)) :
    Prop where
  names : p.symbolIds ⊆ names
  helpers : ∀ id, p.IsHelper id → p.rules.getD id [] ≠ [] →
    rules.getD id [] = p.rules.getD id []

theorem IsHelper.mono (h : p.IsHelper id) (hsub : p.symbolIds ⊆ q.symbolIds) : q.IsHelper id :=
  h.imp fun _ hname => ⟨hsub hname.1, hname.2⟩

theorem Tidy.lt (h : p.Tidy) (hx : (name, id) ∈ p.symbolIds) : id < p.symbolIds.length :=
  (h.numbered _ hx).1

theorem Tidy.exists_name (h : p.Tidy) (hid : id < p.symbolIds.length) :
    ∃ name, (name, id) ∈ p.symbolIds := by
  have hmem : id ∈ p.symbolIds.map (·.2) := by
    rw [h.ids]
    exact List.mem_range.2 hid
  obtain ⟨⟨name, id⟩, hx, rfl⟩ := List.mem_map.1 hmem
  exact ⟨name, hx⟩

/-- An id has one name. -/
theorem Tidy.name_unique (h : p.Tidy) {name' : Text} (hx : (name, id) ∈ p.symbolIds)
    (hy : (name', id) ∈ p.symbolIds) : name = name' := by
  have hnodup : (p.symbolIds.map (·.2)).Nodup := h.ids ▸ List.nodup_range
  exact congrArg Prod.fst (List.inj_on_of_nodup_map hnodup hx hy rfl)

/-- A name has one id. -/
theorem Tidy.id_unique (h : p.Tidy) {id' : Nat} (hx : (name, id) ∈ p.symbolIds)
    (hy : (name, id') ∈ p.symbolIds) : id = id' :=
  congrArg Prod.snd (List.inj_on_of_nodup_map h.names hx hy rfl)

/-- The id of a name of the text is not one of the parser's own. -/
theorem Tidy.not_isHelper (h : p.Tidy) (hx : (name, id) ∈ p.symbolIds) (hname : ascii '_' ∉ name) :
    ¬ p.IsHelper id := by
  rintro ⟨name', hy, hname'⟩
  rw [h.name_unique hx hy] at hname
  exact hname hname'

theorem Tidy.getD_new (h : p.Tidy) (hid : p.symbolIds.length ≤ id) : p.rules.getD id [] = [] := by
  rw [List.getD_eq_getElem?_getD, List.getElem?_eq_none (h.size.trans hid), Option.getD_none]

theorem Tidy.grows (h : p.Tidy) : p.Grows p :=
  ⟨h, h, fun _ hx => hx, fun _ _ => rfl, fun _ _ _ _ hid => h.getD_new hid⟩

/-- A name of an id that was given before was there before. -/
theorem Grows.mem (h : p.Grows q) (hx : (name, id) ∈ q.symbolIds)
    (hid : id < p.symbolIds.length) : (name, id) ∈ p.symbolIds := by
  obtain ⟨name', hy⟩ := h.start.exists_name hid
  rwa [h.tidy.name_unique hx (h.known hy)]

theorem Grows.length_le (h : p.Grows q) : p.symbolIds.length ≤ q.symbolIds.length := by
  by_contra hlt
  obtain ⟨name, hx⟩ := h.start.exists_name (Nat.not_le.1 hlt)
  exact hlt (Nat.le_of_not_lt fun _ => hlt (Nat.le_of_lt_succ (by
    have := h.tidy.lt (h.known hx)
    omega)))

theorem Grows.trans (h : p.Grows q) (h' : q.Grows r) : p.Grows r where
  start := h.start
  tidy := h'.tidy
  known _ hx := h'.known (h.known hx)
  old id hid := (h'.old id (hid.trans_le h.length_le)).trans (h.old id hid)
  new name id hx hname hid := by
    rcases Nat.lt_or_ge id q.symbolIds.length with hlt | hge
    · rw [h'.old id hlt]
      exact h.new name id (h'.mem hx hlt) hname hid
    · exact h'.new name id hx hname hge

theorem Final.of_grows (h : p.Grows q) {rules : List GrammarRule}
    {names : List (Text × Nat)} (hfinal : q.Final rules names) : p.Final rules names where
  names _ hx := hfinal.names (h.known hx)
  helpers id hid hne := by
    have hlt : id < p.symbolIds.length := by
      obtain ⟨name, hx, -⟩ := hid
      exact h.start.lt hx
    rw [← h.old id hlt] at hne ⊢
    exact hfinal.helpers id (hid.mono h.known) hne

theorem getD_addRule (p : GbnfParser) (id : Nat) (rule : GrammarRule) (i : Nat) :
    (p.addRule id rule).rules.getD i [] = if i = id then rule else p.rules.getD i [] := by
  have hlt : id < (p.rules ++ List.replicate (id + 1 - p.rules.length) []).length := by
    rw [List.length_append, List.length_replicate]
    omega
  unfold addRule
  rw [List.getD_eq_getElem?_getD, List.getElem?_set]
  rcases eq_or_ne i id with rfl | hne
  · rw [if_pos rfl, if_pos hlt, if_pos rfl, Option.getD_some]
  · rw [if_neg hne.symm, if_neg hne, List.getD_eq_getElem?_getD, List.getElem?_append]
    rcases Nat.lt_or_ge i p.rules.length with hi | hi
    · rw [if_pos hi]
    · rw [if_neg (Nat.not_lt.2 hi), List.getElem?_eq_none hi, List.getElem?_replicate]
      split <;> rfl

theorem length_addRule (p : GbnfParser) (id : Nat) (rule : GrammarRule) :
    (p.addRule id rule).rules.length = max p.rules.length (id + 1) := by
  unfold addRule
  rw [List.length_set, List.length_append, List.length_replicate]
  omega

theorem Tidy.addRule (h : p.Tidy) (hid : id < p.symbolIds.length) (rule : GrammarRule) :
    (p.addRule id rule).Tidy where
  numbered := h.numbered
  names := h.names
  ids := h.ids
  size := by
    rw [length_addRule]
    exact max_le h.size hid

/-- The parser adds a rule of its own. -/
theorem Grows.addRule (h : p.Grows q) (hid : q.IsHelper id) (hnew : p.symbolIds.length ≤ id)
    (rule : GrammarRule) : p.Grows (q.addRule id rule) where
  start := h.start
  tidy := by
    obtain ⟨name, hx, -⟩ := hid
    exact h.tidy.addRule (h.tidy.lt hx) rule
  known := h.known
  old i hi := by
    rw [getD_addRule, if_neg (by omega)]
    exact h.old i hi
  new name i hx hname hi := by
    have hne : i ≠ id := by
      rintro rfl
      exact h.tidy.not_isHelper hx hname hid
    rw [getD_addRule, if_neg hne]
    exact h.new name i hx hname hi

/-- Where there was no rule, or it is that of a name, another one may come. -/
theorem Final.of_addRule {rules : List GrammarRule} {names : List (Text × Nat)}
    (h : (p.addRule id rule).Final rules names) (hid : p.IsHelper id → p.rules.getD id [] = []) :
    p.Final rules names where
  names := h.names
  helpers i hi hne := by
    have hother : i ≠ id := by
      rintro rfl
      exact hne (hid hi)
    have hrule := h.helpers i hi
    rw [getD_addRule, if_neg hother] at hrule
    exact hrule hne

theorem Tidy.addSymbol (h : p.Tidy) (hnew : ∀ x ∈ p.symbolIds, x.1 ≠ name)
    (hname : ascii '_' ∉ name ∨ ∃ base, name = generatedName base p.symbolIds.length) :
    p.Grows { p with symbolIds := p.symbolIds ++ [(name, p.symbolIds.length)] } where
  start := h
  tidy :=
    { numbered := fun x hx => by
        rw [List.length_append]
        rcases List.mem_append.1 hx with hx | hx
        · exact (h.numbered x hx).imp (fun hlt => by omega) id
        · obtain rfl := List.mem_singleton.1 hx
          exact ⟨by simp, hname⟩
      names := by
        rw [List.map_append, List.map_singleton]
        refine List.nodup_append.2 ⟨h.names, List.nodup_singleton _, fun n hn m hm => ?_⟩
        obtain ⟨x, hx, rfl⟩ := List.mem_map.1 hn
        rw [List.mem_singleton.1 hm]
        exact hnew x hx
      ids := by
        rw [List.map_append, h.ids, List.length_append, List.length_singleton, List.range_succ]
        rfl
      size := by
        rw [List.length_append]
        exact Nat.le_add_right_of_le h.size }
  known := List.subset_append_left _ _
  old _ _ := rfl
  new _ _ _ _ hid := h.getD_new hid

theorem Tidy.getSymbolId (h : p.Tidy) (hname : ascii '_' ∉ name) :
    p.Grows (p.getSymbolId name).2 ∧
      (name, (p.getSymbolId name).1) ∈ (p.getSymbolId name).2.symbolIds := by
  unfold GbnfParser.getSymbolId
  cases hfind : p.symbolIds.find? (·.1 = name) with
  | some x =>
    obtain ⟨key, id⟩ := x
    obtain rfl : key = name := by simpa using List.find?_some hfind
    exact ⟨h.grows, List.mem_of_find?_eq_some hfind⟩
  | none =>
    refine ⟨h.addSymbol (fun x hx => ?_) (.inl hname), by simp⟩
    simpa using List.find?_eq_none.1 hfind x hx

theorem underscore_mem_generatedName (base : Text) (n : Nat) :
    ascii '_' ∈ generatedName base n := by simp [generatedName]

/-- A generated id is new, and has no rule. -/
theorem Tidy.generateSymbolId (h : p.Tidy) (base : Text) :
    p.Grows (p.generateSymbolId base).2 ∧
      (p.generateSymbolId base).2.IsHelper (p.generateSymbolId base).1 ∧
      (p.generateSymbolId base).1 = p.symbolIds.length ∧
      (p.generateSymbolId base).2.rules.getD (p.generateSymbolId base).1 [] = [] := by
  rw [h.numbered.generateSymbolId]
  exact ⟨h.addSymbol (h.numbered.generatedName_new base) (.inr ⟨base, rfl⟩),
    ⟨generatedName base p.symbolIds.length, by simp, underscore_mem_generatedName ..⟩, rfl,
    h.getD_new (Nat.le_refl _)⟩

/-! ## What is compiled -/

/-- A name of the text has an id. -/
def NamedIn (names : List (Text × Nat)) (name : Text) (id : Nat) : Prop :=
  (name, id) ∈ names ∧ ascii '_' ∉ name

/-- Whatever follows in the text, the forms are the alternatives of the expression at its end. -/
def Denotes (p : GbnfParser) (ps : List (Cfg.Form Nat CharClass)) (e : Gbnf.Expr) : Prop :=
  ∀ rules names, p.Final rules names →
    Ebnf.Compiles Gbnf.Letter.Contains (grammarOf rules) (NamedIn names) ps e

/-- The forms are those of the expression without its empty classes, if the bounds are right. -/
def Means (p : GbnfParser) (ps : List (Cfg.Form Nat CharClass)) (e : Gbnf.Expr) : Prop :=
  Gbnf.Bounded e → p.Denotes ps (Gbnf.withoutEmpty e)

section Denotes

variable {ps : List (Cfg.Form Nat CharClass)} {a b s : List GrammarElement} {e e' x : Gbnf.Expr}

theorem Denotes.mono (h : p.Denotes ps e) (hgrows : p.Grows q) : q.Denotes ps e :=
  fun rules names hfinal => h rules names (hfinal.of_grows hgrows)

theorem Means.mono (h : p.Means ps e) (hgrows : p.Grows q) : q.Means ps e :=
  fun hb => (h hb).mono hgrows

theorem Means.seq (ha : p.Means [symbols a] e) (hb : p.Means [symbols b] e') (hsa : Segment a)
    (hsb : Segment b) : p.Means [symbols (a ++ b)] (.seq e e') := fun hbound rules names hfinal => by
  rw [hsa.symbols_append hsb]
  exact .seq (ha hbound.1 rules names hfinal) (hb hbound.2 rules names hfinal)

theorem alts_eq {rules : List GrammarRule} (h : rules.getD id [] = rule) (hne : rule ≠ []) :
    (grammarOf rules).alts id = rule.forms := by
  rw [List.getD_eq_getElem?_getD] at h
  rcases hget : rules[id]? with _ | rule'
  · rw [hget] at h
    exact absurd h.symm hne
  · rw [hget, Option.getD_some] at h
    subst h
    simp only [grammarOf, hget, Option.map_some, Option.getD_some, GrammarRule.forms]

theorem Final.alts {rules : List GrammarRule} {names : List (Text × Nat)}
    (h : p.Final rules names) (hid : p.IsHelper id) (hrule : p.rules.getD id [] = rule)
    (hne : rule ≠ []) : (grammarOf rules).alts id = rule.forms :=
  alts_eq ((h.helpers id hid (by rwa [hrule])).trans hrule) hne

/-- A group is a rule of its own. -/
theorem Means.group (h : p.Means rule.forms e) (hid : p.IsHelper id)
    (hrule : p.rules.getD id [] = rule) (hne : rule ≠ []) : p.Means [[.rule id]] e :=
  fun hb rules names hfinal => .group (by
    rw [hfinal.alts hid hrule hne]
    exact h hb rules names hfinal)

theorem means_ruleRef (hmem : (name, id) ∈ p.symbolIds) (hname : ascii '_' ∉ name) :
    p.Means [symbols [.ruleRef id]] (.rule name) :=
  fun _ _ _ hfinal => .rule ⟨hfinal.names hmem, hname⟩

theorem means_any : p.Means [symbols [.charAny]] (.char .any) := fun _ _ _ _ =>
  .char fun _ => iff_of_true (by simp [grammarOf, CharClass.Contains]) trivial

/-! ## Repetitions -/

theorem forms_optional (hs : Segment s) : GrammarRule.forms (s ++ [.alt, .endRule]) =
    [symbols s, []] := by
  rw [GrammarRule.forms_cons_alt hs.inner]
  exact congrArg _ (GrammarRule.forms_end GrammarPos.inner_nil)

theorem segment_next (next : Option Nat) : Segment (next.map GrammarElement.ruleRef).toList := by
  cases next with
  | none => exact GrammarPos.segment_nil
  | some id => exact GrammarPos.segment_ruleRef id

/-- A rule for an optional repetition is added. -/
theorem Tidy.addOptional (h : p.Tidy) (base : Text) {s : Nat → List GrammarElement}
    (hs : ∀ id, Segment (s id)) :
    p.Grows ((p.generateSymbolId base).2.addRule (p.generateSymbolId base).1
        (s (p.generateSymbolId base).1 ++ [.alt, .endRule])) ∧
      ∀ rules names, ((p.generateSymbolId base).2.addRule (p.generateSymbolId base).1
          (s (p.generateSymbolId base).1 ++ [.alt, .endRule])).Final rules names →
        (grammarOf rules).alts (p.generateSymbolId base).1 =
          [symbols (s (p.generateSymbolId base).1), []] := by
  obtain ⟨hgrows, hhelper, hnew, -⟩ := h.generateSymbolId base
  generalize p.generateSymbolId base = r at hgrows hhelper hnew
  obtain ⟨id, p'⟩ := r
  dsimp only at hgrows hhelper hnew ⊢
  refine ⟨hgrows.addRule hhelper hnew.ge _, fun rules names hfinal => ?_⟩
  rw [← forms_optional (hs id)]
  refine hfinal.alts hhelper ?_ (by simp)
  rw [getD_addRule, if_pos rfl]

theorem addRepetitions_grows (hs : Segment s) (name : Text) (unbounded : Bool) : ∀ (n : Nat)
    {p : GbnfParser} {last : Option Nat}, p.Tidy →
    p.Grows (addRepetitions name s unbounded n p last).1
  | 0, _, _, hp => hp.grows
  | n + 1, p, last, hp => by
    obtain ⟨hgrows, -⟩ := hp.addOptional name
      (s := fun id => s ++ ((if unbounded then some id else last).map
        GrammarElement.ruleRef).toList)
      fun _ => hs.append (segment_next _)
    exact hgrows.trans (addRepetitions_grows hs name unbounded n hgrows.tidy)

theorem addRepetitions_optional (hs : Segment s) (name : Text) : ∀ (n : Nat) {p : GbnfParser}
    {last : Option Nat} {k : Nat}, p.Tidy → p.Denotes [symbols s] x →
    p.Denotes [symbols (last.map GrammarElement.ruleRef).toList] (.rep x 0 (some k)) →
    (addRepetitions name s false n p last).1.Denotes
      [symbols ((addRepetitions name s false n p last).2.map GrammarElement.ruleRef).toList]
      (.rep x 0 (some (k + n)))
  | 0, p, last, k, _, _, hlast => hlast
  | n + 1, p, last, k, hp, hx, hlast => by
    obtain ⟨hgrows, halts⟩ := hp.addOptional name
      (s := fun _ => s ++ (last.map GrammarElement.ruleRef).toList)
      fun _ => hs.append (segment_next last)
    rw [addRepetitions]
    generalize p.generateSymbolId name = r at hgrows halts
    obtain ⟨id, p'⟩ := r
    simp only [Bool.false_eq_true, if_false] at hgrows halts ⊢
    generalize p'.addRule id _ = q at hgrows halts
    have hlast' : q.Denotes [symbols ((some id).map GrammarElement.ruleRef).toList]
        (.rep x 0 (some (k + 1))) := fun rules names hfinal => by
      have hq := halts rules names hfinal
      rw [hs.symbols_append (segment_next last)] at hq
      exact .upTo (hx.mono hgrows rules names hfinal) (hlast.mono hgrows rules names hfinal) hq
    have hdenotes := addRepetitions_optional hs name n hgrows.tidy (hx.mono hgrows) hlast'
    rwa [Nat.add_assoc, Nat.add_comm 1 n] at hdenotes

theorem addRepetitions_star (hs : Segment s) (name : Text) (hp : p.Tidy)
    (hx : p.Denotes [symbols s] x) : (addRepetitions name s true 1 p none).1.Denotes
      [symbols ((addRepetitions name s true 1 p none).2.map GrammarElement.ruleRef).toList]
      (.rep x 0 none) := by
  obtain ⟨hgrows, halts⟩ := hp.addOptional name (s := fun id => s ++ [.ruleRef id])
    fun id => hs.append (GrammarPos.segment_ruleRef id)
  simp only [addRepetitions]
  generalize p.generateSymbolId name = r at hgrows halts
  obtain ⟨id, p'⟩ := r
  intro rules names hfinal
  have hq := halts rules names hfinal
  rw [hs.symbols_append (GrammarPos.segment_ruleRef id)] at hq
  exact .star (hx.mono hgrows rules names hfinal) hq

/-- As many repetitions as there must be come before the optional ones. -/
theorem Denotes.more (hs : Segment s) (ha : Segment a) (hx : p.Denotes [symbols s] x)
    {hi : Option ℕ} (h : p.Denotes [symbols a] (.rep x 0 hi)) : ∀ lo : ℕ,
    p.Denotes [symbols ((List.replicate lo s).flatten ++ a)] (.rep x lo (hi.map (· + lo)))
  | 0 => by simpa using h
  | lo + 1 => fun rules names hfinal => by
    have ih := Denotes.more hs ha hx h lo rules names hfinal
    rw [List.replicate_succ, List.flatten_cons, List.append_assoc,
      hs.symbols_append ((hs.replicate lo).append ha)]
    have hmore := Ebnf.Compiles.more (hx rules names hfinal) ih
    rwa [Option.map_map] at hmore

/-- The bounds are those that the parser gets for a repetition. -/
def BoundsAs (lo : Nat) (hi : Option Nat) (minTimes maxTimes : Int) : Prop :=
  lo < 2 ^ 31 → (∀ n ∈ hi, lo ≤ n ∧ n < 2 ^ 31) →
    minTimes = lo ∧ maxTimes = (hi.map Int.ofNat).getD (-1)

/-- What is repeated as often as it must be, before the optional repetitions. -/
theorem repeated_eq (a s : List GrammarElement) (lo : Nat) :
    (if (lo : Int) = 0 then (a ++ s).take a.length
      else a ++ s ++ (List.replicate ((lo : Int) - 1).toNat s).flatten) =
      a ++ (List.replicate lo s).flatten := by
  cases lo with
  | zero => simp
  | succ lo =>
    rw [if_neg (by omega), show ((lo + 1 : Nat) : Int) - 1 = lo by omega, Int.toNat_natCast,
      List.replicate_succ, List.flatten_cons, List.append_assoc]

theorem handleRepetitions_means (hp : p.Tidy) (hs : Segment s) (he : p.Means [symbols s] e)
    {pos name : Text} {minTimes maxTimes : Int}
    (h : p.handleRepetitions pos name (a ++ s) a.length minTimes maxTimes = .ok (q, rule)) :
    p.Grows q ∧ ∃ s', rule = a ++ s' ∧ Segment s' ∧ ∀ lo hi, BoundsAs lo hi minTimes maxTimes →
      q.Means [symbols s'] (.rep e lo hi) := by
  unfold GbnfParser.handleRepetitions at h
  by_cases hempty : a.length = (a ++ s).length
  · rw [if_pos hempty] at h
    cases h
  · rw [if_neg hempty] at h
    obtain ⟨rfl, rfl⟩ := Prod.mk.inj (Except.ok.inj h)
    rw [List.drop_left]
    have hkept : ∃ kept, (if minTimes = 0 then (a ++ s).take a.length
        else a ++ s ++ (List.replicate (minTimes - 1).toNat s).flatten) = a ++ kept ∧
        Segment kept := by
      split_ifs
      · exact ⟨[], by simp, GrammarPos.segment_nil⟩
      · exact ⟨_, List.append_assoc _ _ _, hs.append (hs.replicate _)⟩
    obtain ⟨kept, hkept, hsegment⟩ := hkept
    refine ⟨addRepetitions_grows hs name _ _ hp, kept ++ _, by rw [hkept, List.append_assoc],
      hsegment.append (segment_next _), fun lo hi hbounds hbounded => ?_⟩
    obtain ⟨hb, hlo, hhi⟩ := hbounded
    obtain ⟨rfl, rfl⟩ := hbounds hlo hhi
    rw [repeated_eq] at hkept
    obtain rfl := List.append_cancel_left hkept
    have hx := he hb
    cases hi with
    | none =>
      have hstar := addRepetitions_star hs name hp hx
      exact Denotes.more hs (segment_next _) (hx.mono (addRepetitions_grows hs name _ _ hp))
        hstar lo
    | some m =>
      have hm := (hhi m rfl).1
      have hn : (if ((m : Int) < 0) then (1 : Int) else (m : Int) - lo).toNat = m - lo := by
        omega
      have hnone : p.Denotes [symbols ((none : Option Nat).map GrammarElement.ruleRef).toList]
          (.rep (Gbnf.withoutEmpty e) 0 (some 0)) := fun _ _ _ => .noMore
      have hoptional := addRepetitions_optional hs name (m - lo) hp hx hnone
      have hmore := Denotes.more hs (segment_next _)
        (hx.mono (addRepetitions_grows hs name _ _ hp)) hoptional lo
      rw [Option.map_some, Nat.zero_add, Nat.sub_add_cancel hm] at hmore
      simp only [Option.map_some, Option.getD_some, Int.ofNat_eq_natCast, hn]
      rwa [decide_eq_false (show ¬ (m : Int) < 0 by omega)]

end Denotes

/-! ## Literals, classes and bounds -/

section Lexical

variable {pos rest : Text} {chars : List UInt32} {ranges : List (UInt32 × UInt32)}
  {els : List GrammarElement}

theorem toOption_of_ok {α : Type} {y : Except GbnfError α} {v : α} (h : y = .ok v) :
    y.toOption = some v := by
  rw [h]
  rfl

theorem parseLiteral_reads : ∀ {fuel : Nat} {pos : Text} {rule : GrammarRule}
    (acc : List UInt32), parseLiteral fuel pos rule = .ok (rest, rule') →
    ∃ chars : List UInt32, Gbnf.readLiteral fuel pos acc = some (chars.reverse ++ acc, rest) ∧
      rule' = rule ++ chars.map .char
  | 0, _, _, _, h => by cases h
  | _ + 1, [], _, _, h => by cases h
  | fuel + 1, c :: pos, rule, acc, h => by
    rw [parseLiteral] at h
    rw [Gbnf.readLiteral]
    split_ifs at h ⊢
    · cases h
      exact ⟨[], rfl, (List.append_nil _).symm⟩
    · obtain ⟨⟨chr, pos'⟩, hchar, h⟩ := Except.bind_eq_ok.1 h
      obtain ⟨chars, hread, rfl⟩ := parseLiteral_reads (chr :: acc) h
      refine ⟨chr :: chars, ?_, by simp⟩
      rw [toOption_of_ok hchar]
      simpa using hread

theorem means_literal (p : GbnfParser) : ∀ chars : List UInt32,
    p.Denotes [symbols (chars.reverse.map .char)] (Gbnf.literal chars)
  | [] => fun _ _ _ => .empty
  | c :: chars => fun rules names hfinal => by
    have hinner : GrammarPos.Inner (chars.reverse.map GrammarElement.char) := fun e he => by
      obtain ⟨d, -, rfl⟩ := List.mem_map.1 he
      rfl
    rw [List.reverse_cons, List.map_append, GrammarPos.symbols_append hinner fun _ h => by
      cases h; rfl]
    exact .seq (means_literal p chars rules names hfinal) (.char fun _ => Iff.rfl)

theorem segment_literal (chars : List UInt32) : Segment (chars.map .char) where
  starts e he := by
    cases chars with
    | nil => cases he
    | cons c chars =>
      cases he
      rfl
  inner e he := by
    obtain ⟨d, -, rfl⟩ := List.mem_map.1 he
    rfl

theorem withoutEmpty_literal : ∀ chars, Gbnf.withoutEmpty (Gbnf.literal chars) = Gbnf.literal chars
  | [] => rfl
  | c :: chars => congrArg (Ebnf.Expr.seq · (Gbnf.literalChar c)) (withoutEmpty_literal chars)

/-- The elements of the ranges of a class that come behind the first. -/
inductive LaterRanges : List (UInt32 × UInt32) → List GrammarElement → Prop
  | nil : LaterRanges [] []
  | single {rs es} (c : UInt32) : LaterRanges rs es →
      LaterRanges ((c, c) :: rs) (.charAlt c :: es)
  | range {rs es} (c hi : UInt32) : LaterRanges rs es →
      LaterRanges ((c, hi) :: rs) (.charAlt c :: .charRngUpper hi :: es)

theorem LaterRanges.spec (h : LaterRanges ranges els) : GrammarPos.altRanges els = ranges ∧
    symbols els = [] ∧ GrammarPos.Inner els ∧ ∀ c, GrammarPos.rangeFrom c els = (c, c) := by
  induction h with
  | nil => exact ⟨rfl, rfl, GrammarPos.inner_nil, fun _ => rfl⟩
  | single c _ ih =>
    obtain ⟨halt, hsym, hinner, hrange⟩ := ih
    refine ⟨by simp [halt, hrange], by simp [symbols, hsym], ?_, fun _ => rfl⟩
    exact List.forall_mem_cons.2 ⟨rfl, hinner⟩
  | range c hi _ ih =>
    obtain ⟨halt, hsym, hinner, -⟩ := ih
    refine ⟨by simp [halt], by simp [symbols, hsym], ?_, fun _ => rfl⟩
    exact List.forall_mem_cons.2 ⟨rfl, List.forall_mem_cons.2 ⟨rfl, hinner⟩⟩

/-- The elements of a class that is empty or has the ranges. -/
def ClassElements (start : UInt32 → GrammarElement) (ranges : List (UInt32 × UInt32))
    (els : List GrammarElement) : Prop :=
  ranges = [] ∧ els = [] ∨ ∃ c els', els = start c :: els' ∧ LaterRanges ranges (.charAlt c :: els')

theorem classElements_charAlt (h : ClassElements .charAlt ranges els) : LaterRanges ranges els := by
  obtain ⟨rfl, rfl⟩ | ⟨c, els', rfl, h⟩ := h
  · exact .nil
  · exact h

theorem parseRanges_reads {start : UInt32 → GrammarElement} {n : Nat} : ∀ {fuel : Nat}
    {pos : Text} {rule : GrammarRule}, n ≤ rule.length →
    parseRanges start n fuel pos rule = .ok (rest, rule') →
    ∃ ranges els, Gbnf.readRanges fuel pos = some (ranges, rest) ∧ rule' = rule ++ els ∧
      ClassElements (if n < rule.length then .charAlt else start) ranges els
  | 0, _, _, _, h => by cases h
  | _ + 1, [], _, _, h => by cases h
  | fuel + 1, c :: pos, rule, hn, h => by
    rw [parseRanges] at h
    rw [Gbnf.readRanges]
    by_cases hclose : c = ascii ']'
    · rw [if_pos hclose] at h ⊢
      cases h
      exact ⟨[], [], rfl, (List.append_nil _).symm, .inl ⟨rfl, rfl⟩⟩
    rw [if_neg hclose] at h ⊢
    obtain ⟨⟨chr, pos'⟩, hchar, h⟩ := Except.bind_eq_ok.1 h
    rw [toOption_of_ok hchar]
    have hel : (if n < rule.length then GrammarElement.charAlt chr else start chr) =
        (if n < rule.length then .charAlt else start) chr := by
      split_ifs <;> rfl
    have hlater : ∀ {pos : Text} (els : List GrammarElement),
        parseRanges start n fuel pos (rule ++ [(if n < rule.length then .charAlt else start) chr] ++
          els) = .ok (rest, rule') → ∃ ranges els',
        Gbnf.readRanges fuel pos = some (ranges, rest) ∧ LaterRanges ranges els' ∧
          rule' = rule ++ (if n < rule.length then .charAlt else start) chr :: (els ++ els') := by
      intro pos els h
      have hlt : n < (rule ++ [(if n < rule.length then .charAlt else start) chr] ++
          els).length := by
        simp only [List.length_append, List.length_singleton]
        omega
      obtain ⟨ranges, els', hread, rfl, hels⟩ := parseRanges_reads (Nat.le_of_lt hlt) h
      rw [if_pos hlt] at hels
      exact ⟨ranges, els', hread, classElements_charAlt hels, by simp⟩
    simp only [Option.bind_eq_bind, Option.bind_some] at h ⊢
    rw [hel] at h
    cases pos' with
    | nil =>
      obtain ⟨ranges, els', hread, hels, rfl⟩ := hlater [] (by rwa [List.append_nil])
      exact ⟨(chr, chr) :: ranges, _, by simp [hread], rfl, .inr ⟨chr, els', rfl, .single chr hels⟩⟩
    | cons d end_ =>
      dsimp only at h ⊢
      by_cases hrange : d = ascii '-' ∧ end_.head? ≠ some (ascii ']')
      · rw [if_pos hrange] at h ⊢
        obtain ⟨⟨hi, pos⟩, hchar, h⟩ := Except.bind_eq_ok.1 h
        rw [toOption_of_ok hchar, Option.bind_some]
        obtain ⟨ranges, els', hread, hels, rfl⟩ := hlater _ h
        exact ⟨(chr, hi) :: ranges, _, by simp [hread], rfl,
          .inr ⟨chr, _, rfl, .range chr hi hels⟩⟩
      · rw [if_neg hrange] at h ⊢
        obtain ⟨ranges, els', hread, hels, rfl⟩ := hlater [] (by rwa [List.append_nil])
        exact ⟨(chr, chr) :: ranges, _, by simp [hread], rfl,
          .inr ⟨chr, els', rfl, .single chr hels⟩⟩

/-- The elements of a class are the class without being one if it is empty. -/
theorem ClassElements.means (negated : Bool)
    (h : ClassElements (if negated then .charNot else .char) ranges els) : Segment els ∧
    p.Means [symbols els] (.char (.cls ⟨negated, ranges⟩)) := by
  obtain ⟨rfl, rfl⟩ | ⟨c, els', rfl, h⟩ := h
  · exact ⟨GrammarPos.segment_nil, fun _ _ _ _ => .empty⟩
  · obtain ⟨halt, -, hinner, -⟩ := h.spec
    have hinner' : GrammarPos.Inner els' := fun e he => hinner e (List.mem_cons_of_mem _ he)
    have hsym : symbols els' = [] := h.spec.2.1
    have hranges : GrammarPos.rangeFrom c els' :: GrammarPos.altRanges els' = ranges := halt
    cases ranges with
    | nil => cases h
    | cons r ranges =>
      refine ⟨⟨fun e he => ?_, List.forall_mem_cons.2 ⟨?_, hinner'⟩⟩, fun _ _ _ _ => ?_⟩
      · cases he
        cases negated <;> rfl
      · cases negated <;> rfl
      · have hform : symbols ((if negated then GrammarElement.charNot else .char) c :: els') =
            [.char ⟨negated, r :: ranges⟩] := by
          cases negated <;> simp [symbols, hranges, hsym]
        rw [hform]
        exact .char fun _ => Iff.rfl

theorem stoulInt_eq (digits : Text) : stoulInt digits =
    if Gbnf.number digits < 2 ^ 64 then .ok (Int.bmod (Gbnf.number digits) (2 ^ 32))
    else .error .outOfRange := rfl

theorem stoulInt_number {digits : Text} {m : Int} (h : stoulInt digits = .ok m)
    (hlt : Gbnf.number digits < 2 ^ 31) : m = Gbnf.number digits := by
  rw [stoulInt_eq, if_pos (by omega)] at h
  obtain rfl := Except.ok.inj h
  exact Int.bmod_eq_of_le (by omega) (by omega)

theorem parseBounds_reads {isNested : Bool} {minTimes maxTimes : Int}
    (h : parseBounds isNested pos = .ok (minTimes, maxTimes, rest)) :
    ∃ lo hi, Gbnf.readBounds isNested pos = some (lo, hi, rest) ∧
      BoundsAs lo hi minTimes maxTimes := by
  unfold parseBounds at h
  unfold Gbnf.readBounds
  generalize pos.span isDigitChar = r at h ⊢
  obtain ⟨digits, after⟩ := r
  dsimp only at h ⊢
  by_cases hdigits : digits = []
  · rw [if_pos hdigits] at h
    cases h
  rw [if_neg hdigits] at h ⊢
  obtain ⟨m, hm, h⟩ := Except.bind_eq_ok.1 h
  generalize parseSpace isNested after = pos' at h ⊢
  cases pos' with
  | nil => cases h
  | cons c pos' =>
    dsimp only at h ⊢
    by_cases hclose : c = ascii '}'
    · rw [if_pos hclose] at h ⊢
      cases h
      refine ⟨_, _, rfl, fun hlo _ => ?_⟩
      rw [stoulInt_number hm hlo]
      exact ⟨rfl, rfl⟩
    rw [if_neg hclose] at h ⊢
    by_cases hcomma : c = ascii ','
    · rw [if_pos hcomma] at h ⊢
      generalize (parseSpace isNested pos').span isDigitChar = r at h ⊢
      obtain ⟨digits', after'⟩ := r
      -- what is left is the same whether there is an upper bound or not
      have hclose : ∀ {n : Int} {hi : Option Nat} {pos : Text},
          (if pos.head? = some (ascii '}') then
            (pure (m, n, parseSpace isNested pos.tail) : Except GbnfError (Int × Int × Text))
          else .error (.expectingClosingBrace pos)) = .ok (minTimes, maxTimes, rest) →
          ((∀ k ∈ hi, k < 2 ^ 31) → n = (hi.map Int.ofNat).getD (-1)) →
          ∃ lo hi', (if pos.head? = some (ascii '}') then
              some (Gbnf.number digits, hi, parseSpace isNested pos.tail) else none) =
            some (lo, hi', rest) ∧ BoundsAs lo hi' minTimes maxTimes := by
        intro n hi pos h hn
        by_cases hend : pos.head? = some (ascii '}')
        · rw [if_pos hend] at h ⊢
          cases h
          exact ⟨_, _, rfl, fun hlo hhi => ⟨stoulInt_number hm hlo, hn fun k hk => (hhi k hk).2⟩⟩
        · rw [if_neg hend] at h
          cases h
      dsimp only at h ⊢
      by_cases hdigits' : digits' = []
      · simp only [if_pos hdigits'] at h ⊢
        exact hclose h fun _ => rfl
      · simp only [if_neg hdigits'] at h ⊢
        obtain ⟨n, hn, h⟩ := Except.bind_eq_ok.1 h
        exact hclose h fun hlt => stoulInt_number hn (hlt _ rfl)
    · rw [if_neg hcomma] at h
      cases h

end Lexical

end GbnfParser

end LamaServer
