import LamaServer.Proofs.GbnfRules
import LamaServer.Proofs.GrammarSampler

/-!
# The parser preserves the language

What the parser compiles derives the words that the text describes, if every class has a character
and the bounds of each repetition are in order and fit an `int`. An empty class is compiled to
nothing, which is the empty string. The bounds are converted to `int`, and a lower bound above the
upper one counts.
-/

namespace LamaServer

/-! ## Characters -/

section Char

open Utf8 (Pending)

theorem run_nil_eq {x : UInt32} {bytes : Text} {q : Pending}
    (h : Pending.run ⟨x, 0⟩ bytes = some ([], q)) (hq : q.remaining = 0) : bytes = [] := by
  cases bytes with
  | nil => rfl
  | cons b bytes =>
    obtain ⟨_, _, _, -, hw, -⟩ := Pending.run_char h hq
    cases hw

/-- The rest of a character is read up to its end. -/
theorem decodeTail_of_run (rest : Text) : ∀ {n : Nat} {x v : UInt32} {bytes : Text},
    Pending.run ⟨x, n + 1⟩ bytes = some ([v], ⟨v, 0⟩) →
    decodeTail (n + 1) x (bytes ++ rest) = (v, rest)
  | 0, x, v, bytes, h => by
    obtain ⟨b, bytes, w, rfl, -, hrun, hw⟩ := Pending.run_inside_last h rfl
    obtain ⟨rfl, rfl⟩ := List.cons.inj hw
    rw [run_nil_eq hrun rfl, List.singleton_append, decodeTail, extend_eq, decodeTail]
    simp
  | n + 1, x, v, bytes, h => by
    obtain ⟨b, bytes, rfl, -, hrun⟩ := Pending.run_inside_more h rfl
    rw [List.cons_append, decodeTail, extend_eq]
    exact decodeTail_of_run rest hrun

theorem decodeUtf8Char_lead {b : UInt8} {q : Pending} {w v : List UInt32} {bytes : Text} {c : Char}
    (hlead : Pending.lead b = some (w, q)) (hrun : q.run bytes = some (v, ⟨c.val, 0⟩))
    (hw : w ++ v = [c.val]) (rest : Text) :
    decodeUtf8Char b (bytes ++ rest) = (c.val, rest) := by
  have hlt : ∀ n : UInt8, b < n ↔ b.toNat < n.toNat := fun n => UInt8.lt_iff_toNat_lt
  have hC0 : (0xC0 : UInt8).toNat = 0xC0 := rfl
  have hE0 : (0xE0 : UInt8).toNat = 0xE0 := rfl
  have hF0 : (0xF0 : UInt8).toNat = 0xF0 := rfl
  unfold decodeUtf8Char utf8Length
  simp only [hlt, hC0, hE0, hF0]
  obtain ⟨hone, rfl, rfl⟩ | ⟨hlo, hhi, rfl, rfl⟩ | ⟨hlo, hhi, rfl, rfl⟩ | ⟨hlo, hhi, rfl, rfl⟩ :=
    Pending.lead_cases hlead
  · obtain ⟨hc, rfl⟩ := List.cons.inj hw
    obtain rfl := run_nil_eq hrun rfl
    rw [if_pos (by omega), Utf8.mask_eq (k := 7) (by decide),
      show b.toNat % 2 ^ 7 = b.toNat by omega, hc]
    rfl
  · rw [List.nil_append] at hw
    subst hw
    rw [if_neg (by omega), if_pos (by omega), Utf8.mask_eq (k := 6) (by decide),
      show b.toNat % 2 ^ 6 = b.toNat % 32 by omega]
    exact decodeTail_of_run rest hrun
  · rw [List.nil_append] at hw
    subst hw
    rw [if_neg (by omega), if_neg (by omega), if_pos (by omega), Utf8.mask_eq (k := 5) (by decide),
      show b.toNat % 2 ^ 5 = b.toNat % 16 by omega]
    exact decodeTail_of_run rest hrun
  · rw [List.nil_append] at hw
    subst hw
    rw [if_neg (by omega), if_neg (by omega), if_neg (by omega), Utf8.mask_eq (k := 4) (by decide),
      show b.toNat % 2 ^ 4 = b.toNat % 8 by omega]
    exact decodeTail_of_run rest hrun

/-- A character that is not a backslash stands for itself. -/
theorem parseChar_encode (c : Char) (hc : c ≠ '\\') (rest : Text) :
    parseChar (String.utf8EncodeChar c ++ rest) = .ok (c.val, rest) := by
  have hrun := Pending.run_encodeChar c 0
  generalize String.utf8EncodeChar c = bytes at hrun
  cases bytes with
  | nil => cases hrun
  | cons b bytes =>
    obtain ⟨w, q, v, hlead, hrun, hw⟩ := Pending.run_cons.1 hrun
    have hb : b ≠ ascii '\\' := by
      rintro rfl
      obtain ⟨rfl, rfl⟩ := Prod.mk.inj (Option.some.inj
        ((show Pending.lead (ascii '\\') = some ([92], ⟨92, 0⟩) from rfl).symm.trans hlead))
      exact hc (Char.ext (List.cons.inj hw).1)
    rw [List.cons_append]
    unfold parseChar
    dsimp only
    rw [if_neg hb, decodeUtf8Char_lead hlead hrun hw.symm]

end Char

namespace GbnfParser

open GrammarPos (Segment symbols)

variable {p q r : GbnfParser} {name : Text} {id : Nat} {rule rule' : GrammarRule}

/-! ## Sequences and alternatives -/

section Sequence

variable {pre body : List GrammarElement} {items : List Gbnf.Expr} {last : Nat} {pos rest : Text}

/-- The rule behind `pre` is what is compiled of the symbols; the last one starts at `last`. -/
def InSequence (p : GbnfParser) (pre rule : GrammarRule) (last : Nat) : List Gbnf.Expr → Prop
  | [] => rule = pre ∧ last = pre.length
  | e :: items => ∃ b s, rule = pre ++ b ++ s ∧ last = (pre ++ b).length ∧ Segment b ∧ Segment s ∧
      p.Means [symbols b] (.seqs items) ∧ p.Means [symbols s] e

theorem InSequence.whole (h : p.InSequence pre rule last items) :
    ∃ body, rule = pre ++ body ∧ Segment body ∧ p.Means [symbols body] (.seqs items) := by
  cases items with
  | nil =>
    obtain ⟨rfl, -⟩ := h
    exact ⟨[], (List.append_nil _).symm, GrammarPos.segment_nil, fun _ _ _ _ => .empty⟩
  | cons e items =>
    obtain ⟨b, s, rfl, -, hb, hs, hmeans, he⟩ := h
    exact ⟨b ++ s, List.append_assoc _ _ _, hb.append hs, hmeans.seq he hb hs⟩

/-- A symbol is added. -/
theorem InSequence.push {s : List GrammarElement} {e : Gbnf.Expr}
    (h : p.InSequence pre rule last items) (hgrows : p.Grows q) (hs : Segment s)
    (he : q.Means [symbols s] e) :
    q.InSequence pre (rule ++ s) rule.length (e :: items) := by
  obtain ⟨body, rfl, hbody, hmeans⟩ := h.whole
  exact ⟨body, s, rfl, rfl, hbody, hs, hmeans.mono hgrows, he⟩

/-- The last symbol is repeated. -/
theorem InSequence.repeat (h : p.InSequence pre rule last items) (hp : p.Tidy)
    {name : Text} {minTimes maxTimes : Int}
    (hok : p.handleRepetitions pos name rule last minTimes maxTimes = .ok (q, rule')) :
    p.Grows q ∧ ∀ lo hi, BoundsAs lo hi minTimes maxTimes →
      ∃ items', Gbnf.repeatLast lo hi items = some items' ∧
        q.InSequence pre rule' last items' := by
  cases items with
  | nil =>
    obtain ⟨rfl, rfl⟩ := h
    rw [GbnfParser.handleRepetitions, if_pos rfl] at hok
    cases hok
  | cons e items =>
    obtain ⟨b, s, rfl, rfl, hb, hs, hmeans, he⟩ := h
    obtain ⟨hgrows, s', rfl, hs', hrep⟩ := handleRepetitions_means hp hs he hok
    exact ⟨hgrows, fun lo hi hbounds => ⟨_, rfl, b, s', rfl, rfl, hb, hs', hmeans.mono hgrows,
      hrep lo hi hbounds⟩⟩

theorem boundsAs_star : BoundsAs 0 none 0 (-1) := fun _ _ => ⟨rfl, rfl⟩

theorem boundsAs_plus : BoundsAs 1 none 1 (-1) := fun _ _ => ⟨rfl, rfl⟩

theorem boundsAs_optional : BoundsAs 0 (some 1) 0 1 := fun _ _ => ⟨rfl, rfl⟩

/-- A name that is read has no underscore. -/
theorem parseName_ok {src : Text} (h : parseName src = .ok (name, rest)) : ascii '_' ∉ name :=
  ((parseName_parses src).of_ok h).1

/-- The alternatives behind the first one, each behind its bar. -/
def Later (p : GbnfParser) (segs : List (List GrammarElement)) (es : List Gbnf.Expr) : Prop :=
  List.Forall₂ (fun s e => Segment s ∧ p.Means [symbols s] e) segs es

theorem Later.inner {segs : List (List GrammarElement)} {es : List Gbnf.Expr}
    (h : p.Later segs es) : ∀ s ∈ segs, GrammarPos.Inner s := by
  induction h with
  | nil => exact fun _ h => by cases h
  | cons hs _ ih => exact List.forall_mem_cons.2 ⟨hs.1.inner, ih⟩

theorem Later.means {segs : List (List GrammarElement)} {es : List Gbnf.Expr}
    (h : p.Later segs es) : ∀ {s : List GrammarElement} {e : Gbnf.Expr}, p.Means [symbols s] e →
      p.Means (symbols s :: segs.map symbols) (.alts e es) := by
  induction h with
  | nil => exact fun he => he
  | cons hs _ ih =>
    intro s e he hbound rules names hfinal
    exact .alt (he hbound.1 rules names hfinal) (ih hs.2 hbound.2 rules names hfinal)

/-- The rule of some alternatives. -/
theorem Later.forms {segs : List (List GrammarElement)} {es : List Gbnf.Expr} {e : Gbnf.Expr}
    (h : p.Later segs es) (hbody : Segment body) (he : p.Means [symbols body] e) :
    p.Means (GrammarRule.forms (body ++ segs.flatMap (.alt :: ·) ++ [.endRule])) (.alts e es) := by
  rw [GrammarRule.forms_segments hbody.inner h.inner]
  exact h.means he

/-- The rule of a group is added. -/
theorem Grows.addGroup (h : p.Grows q) (h' : q.Grows r) (hid : q.IsHelper id)
    (hnew : id = p.symbolIds.length) (hempty : q.rules.getD id [] = []) (hne : rule ≠ [])
    {e : Gbnf.Expr} (he : r.Means rule.forms e) :
    p.Grows (r.addRule id rule) ∧ (r.addRule id rule).Means [symbols [.ruleRef id]] e := by
  have hid' := hid.mono h'.known
  have hempty' : r.rules.getD id [] = [] := by
    obtain ⟨name, hx, -⟩ := hid
    rw [h'.old id (h'.start.lt hx), hempty]
  have hmeans : (r.addRule id rule).Means rule.forms e := fun hb rules names hfinal =>
    he hb rules names (hfinal.of_addRule fun _ => hempty')
  have hget : (r.addRule id rule).rules.getD id [] = rule := by
    rw [getD_addRule, if_pos rfl]
  exact ⟨(h.trans h').addRule hid' hnew.ge rule, hmeans.group hid' hget hne⟩

/-- What `parse_alternates` reads with so much fuel, and what it makes of it. -/
def AlternatesRead (fuel : Nat) : Prop :=
  ∀ ⦃p q : GbnfParser⦄ ⦃src name rest : Text⦄ ⦃id : Nat⦄ ⦃isNested : Bool⦄, p.Tidy →
    parseAlternates fuel p src name id isNested = .ok (q, rest) → ∃ r rule e,
      p.Grows r ∧ q = r.addRule id rule ∧ rule ≠ [] ∧
      Gbnf.readAlternates fuel src isNested = some (e, rest) ∧ r.Means rule.forms e

def LaterRead (fuel : Nat) : Prop :=
  ∀ ⦃p q : GbnfParser⦄ ⦃pos name rest : Text⦄ ⦃isNested : Bool⦄ ⦃rule rule' : GrammarRule⦄,
    p.Tidy → parseLater fuel p pos name isNested rule = .ok (q, rest, rule') → ∃ segs es,
      p.Grows q ∧ Gbnf.readLater fuel pos isNested = some (es, rest) ∧
      rule' = rule ++ segs.flatMap (.alt :: ·) ∧ q.Later segs es

def SequenceRead (fuel : Nat) : Prop :=
  ∀ ⦃p q : GbnfParser⦄ ⦃pos name rest : Text⦄ ⦃isNested : Bool⦄ ⦃pre rule rule' : GrammarRule⦄
    ⦃last : Nat⦄ ⦃items : List Gbnf.Expr⦄, p.Tidy → p.InSequence pre rule last items →
    parseSequence fuel p pos name isNested rule last = .ok (q, rest, rule') → ∃ body items',
      p.Grows q ∧ Gbnf.readSequence fuel pos isNested items = some (items', rest) ∧
      rule' = pre ++ body ∧ Segment body ∧ q.Means [symbols body] (.seqs items')

section Step

variable {fuel : Nat} (ihAlternates : AlternatesRead fuel) (ihLater : LaterRead fuel)
  (ihSequence : SequenceRead fuel)

include ihLater ihSequence in
theorem AlternatesRead.succ : AlternatesRead (fuel + 1) := by
  intro p q src name rest id isNested hp h
  rw [parseAlternates] at h
  obtain ⟨⟨p₁, pos₁, rule₁⟩, h₁, h⟩ := Except.bind_eq_ok.1 h
  obtain ⟨⟨p₂, pos₂, rule₂⟩, h₂, h⟩ := Except.bind_eq_ok.1 h
  obtain ⟨rfl, rfl⟩ := Prod.mk.inj (Except.ok.inj h)
  obtain ⟨body, items, hgrows₁, hread₁, rfl, hbody, hmeans⟩ :=
    ihSequence hp (show p.InSequence [] [] 0 [] from ⟨rfl, rfl⟩) h₁
  obtain ⟨segs, es, hgrows₂, hread₂, rfl, hlater⟩ := ihLater hgrows₁.tidy h₂
  refine ⟨p₂, _, .alts (.seqs items) es, hgrows₁.trans hgrows₂, rfl, by simp, ?_,
    hlater.forms hbody (hmeans.mono hgrows₂)⟩
  simp [Gbnf.readAlternates, hread₁, hread₂]

include ihLater ihSequence in
theorem LaterRead.succ : LaterRead (fuel + 1) := by
  intro p q pos name rest isNested rule rule' hp h
  rw [parseLater] at h
  rw [Gbnf.readLater]
  by_cases hbar : pos.head? = some (ascii '|')
  · rw [if_pos hbar] at h ⊢
    obtain ⟨⟨p₁, pos₁, rule₁⟩, h₁, h₂⟩ := Except.bind_eq_ok.1 h
    obtain ⟨body, items, hgrows₁, hread₁, rfl, hbody, hmeans⟩ :=
      ihSequence hp (show p.InSequence (rule ++ [.alt]) _ _ [] from ⟨rfl, rfl⟩) h₁
    obtain ⟨segs, es, hgrows₂, hread₂, rfl, hlater⟩ := ihLater hgrows₁.tidy h₂
    refine ⟨body :: segs, .seqs items :: es, hgrows₁.trans hgrows₂, ?_, by simp,
      .cons ⟨hbody, hmeans.mono hgrows₂⟩ hlater⟩
    simp [hread₁, hread₂]
  · rw [if_neg hbar] at h ⊢
    cases h
    exact ⟨[], [], hp.grows, rfl, by simp, .nil⟩

/-- What is made of a sequence, behind the elements in front of it. -/
def Completes (p q : GbnfParser) (pre rule' : GrammarRule) (rest : Text)
    (read : Option (List Gbnf.Expr × Text)) : Prop :=
  ∃ body items, p.Grows q ∧ read = some (items, rest) ∧ rule' = pre ++ body ∧ Segment body ∧
    q.Means [symbols body] (.seqs items)

section Sequence

variable {p p' q : GbnfParser} {pos name rest : Text} {isNested : Bool}
  {pre rule rule' : GrammarRule} {last : Nat} {items : List Gbnf.Expr}

theorem InSequence.completes (hp : p.Tidy) (hrule : p.InSequence pre rule last items) :
    p.Completes p pre rule rest (some (items, rest)) := by
  obtain ⟨body, rfl, hbody, hmeans⟩ := hrule.whole
  exact ⟨body, items, hp.grows, rfl, rfl, hbody, hmeans⟩

include ihSequence in
/-- The rest of the sequence is read behind a symbol. -/
theorem SequenceRead.behind (hgrows : p.Grows p') (hrule : p'.InSequence pre rule last items)
    (h : parseSequence fuel p' pos name isNested rule last = .ok (q, rest, rule')) :
    p.Completes q pre rule' rest (Gbnf.readSequence fuel pos isNested items) := by
  obtain ⟨body, items', hgrows', hread, hbody⟩ := ihSequence hgrows.tidy hrule h
  exact ⟨body, items', hgrows.trans hgrows', hread, hbody⟩

include ihSequence in
/-- The rest of the sequence is read behind a repetition. -/
theorem SequenceRead.behind_repeat (hp : p.Tidy) (hrule : p.InSequence pre rule last items)
    {lo : Nat} {hi : Option Nat} {minTimes maxTimes : Int}
    (hbounds : BoundsAs lo hi minTimes maxTimes)
    (h : (p.handleRepetitions pos name rule last minTimes maxTimes >>= fun r =>
      parseSequence fuel r.1 pos name isNested r.2 last) = .ok (q, rest, rule')) :
    p.Completes q pre rule' rest (Gbnf.repeatLast lo hi items >>= fun items' =>
      Gbnf.readSequence fuel pos isNested items') := by
  obtain ⟨⟨p', rule₁⟩, hrep, h⟩ := Except.bind_eq_ok.1 h
  obtain ⟨hgrows, hitems⟩ := hrule.repeat hp hrep
  obtain ⟨items', hitems, hrule'⟩ := hitems lo hi hbounds
  rw [hitems]
  exact SequenceRead.behind ihSequence hgrows hrule' h

end Sequence

include ihAlternates ihSequence in
theorem SequenceRead.succ : SequenceRead (fuel + 1) := by
  intro p q pos name rest isNested pre rule rule' last items hp hrule h
  cases pos with
  | nil =>
    cases h
    exact hrule.completes hp
  | cons c pos =>
    change p.Completes q pre rule' rest (Gbnf.readSequence (fuel + 1) (c :: pos) isNested items)
    rw [parseSequence] at h
    rw [Gbnf.readSequence]
    by_cases hquote : c = ascii '"'
    · rw [if_pos hquote] at h ⊢
      obtain ⟨⟨pos', rule₁⟩, hlit, h⟩ := Except.bind_eq_ok.1 h
      obtain ⟨chars, hread, rfl⟩ := parseLiteral_reads [] hlit
      rw [List.append_nil] at hread
      rw [hread]
      refine SequenceRead.behind ihSequence hp.grows (hrule.push hp.grows (segment_literal chars) fun _ => ?_) h
      rw [withoutEmpty_literal]
      simpa using means_literal p chars.reverse
    rw [if_neg hquote] at h ⊢
    by_cases hbracket : c = ascii '['
    · rw [if_pos hbracket] at h ⊢
      obtain ⟨⟨pos', rule₁⟩, hranges, h⟩ := Except.bind_eq_ok.1 h
      obtain ⟨ranges, els, hread, rfl, hels⟩ := parseRanges_reads (Nat.le_refl _) hranges
      rw [if_neg (Nat.lt_irrefl _)] at hels
      obtain ⟨hsegment, hmeans⟩ :=
        ClassElements.means (p := p) (pos.head? = some (ascii '^')) (by simpa using hels)
      dsimp only
      rw [hread]
      exact SequenceRead.behind ihSequence hp.grows (hrule.push hp.grows hsegment hmeans) h
    rw [if_neg hbracket] at h ⊢
    by_cases hword : isWordChar c = true
    · rw [if_pos hword] at h ⊢
      obtain ⟨⟨name', pos'⟩, hname, h⟩ := Except.bind_eq_ok.1 h
      obtain ⟨hgrows, hmem⟩ := hp.getSymbolId (parseName_ok hname)
      rw [toOption_of_ok hname]
      exact SequenceRead.behind ihSequence hgrows (hrule.push hgrows (GrammarPos.segment_ruleRef _)
        (means_ruleRef hmem (parseName_ok hname))) h
    rw [if_neg hword] at h ⊢
    by_cases hparen : c = ascii '('
    · rw [if_pos hparen] at h ⊢
      obtain ⟨hgrows, hhelper, hnew, hempty⟩ := hp.generateSymbolId name
      generalize p.generateSymbolId name = r at h hgrows hhelper hnew hempty
      obtain ⟨id, p₁⟩ := r
      obtain ⟨⟨p₃, pos'⟩, hnested, h⟩ := Except.bind_eq_ok.1 h
      obtain ⟨p₂, rule₁, e, hgrows₂, rfl, hne, hread, hmeans⟩ := ihAlternates hgrows.tidy hnested
      obtain ⟨hall, hgroup⟩ := hgrows.addGroup hgrows₂ hhelper hnew hempty hne hmeans
      dsimp only at h ⊢
      rw [hread]
      simp only [Option.bind_eq_bind, Option.bind_some]
      by_cases hclose : pos'.head? = some (ascii ')')
      · rw [if_pos hclose] at h ⊢
        exact SequenceRead.behind ihSequence hall (hrule.push hall (GrammarPos.segment_ruleRef id) hgroup) h
      · rw [if_neg hclose] at h
        cases h
    rw [if_neg hparen] at h ⊢
    by_cases hdot : c = ascii '.'
    · rw [if_pos hdot] at h ⊢
      exact SequenceRead.behind ihSequence hp.grows (hrule.push hp.grows (GrammarPos.segment_single rfl rfl) means_any) h
    rw [if_neg hdot] at h ⊢
    by_cases hstar : c = ascii '*'
    · rw [if_pos hstar] at h ⊢
      exact SequenceRead.behind_repeat ihSequence hp hrule boundsAs_star h
    rw [if_neg hstar] at h ⊢
    by_cases hplus : c = ascii '+'
    · rw [if_pos hplus] at h ⊢
      exact SequenceRead.behind_repeat ihSequence hp hrule boundsAs_plus h
    rw [if_neg hplus] at h ⊢
    by_cases hmark : c = ascii '?'
    · rw [if_pos hmark] at h ⊢
      exact SequenceRead.behind_repeat ihSequence hp hrule boundsAs_optional h
    rw [if_neg hmark] at h ⊢
    by_cases hbrace : c = ascii '{'
    · rw [if_pos hbrace] at h ⊢
      obtain ⟨⟨minTimes, maxTimes, pos'⟩, hbounds, h⟩ := Except.bind_eq_ok.1 h
      obtain ⟨lo, hi, hread, hbounds⟩ := parseBounds_reads hbounds
      rw [hread]
      exact SequenceRead.behind_repeat ihSequence hp hrule hbounds h
    · rw [if_neg hbrace] at h ⊢
      cases h
      exact hrule.completes hp

end Step

theorem parse_reads (fuel : Nat) : AlternatesRead fuel ∧ LaterRead fuel ∧ SequenceRead fuel := by
  induction fuel with
  | zero =>
    refine ⟨fun _ _ _ _ _ _ _ _ h => ?_, fun _ _ _ _ _ _ _ _ _ h => ?_,
      fun _ _ _ _ _ _ _ _ _ _ _ _ _ h => ?_⟩
    · cases h
    · cases h
    · cases h
  | succ fuel ih =>
    obtain ⟨ihAlternates, ihLater, ihSequence⟩ := ih
    exact ⟨AlternatesRead.succ ihLater ihSequence, LaterRead.succ ihLater ihSequence,
      SequenceRead.succ ihAlternates ihSequence⟩

end Sequence

/-! ## Grammars -/

section Grammar

variable {defs : List (Text × Gbnf.Expr)} {e : Gbnf.Expr} {src rest : Text}

theorem body_snoc (defs : List (Text × Gbnf.Expr)) (d : Text × Gbnf.Expr) (name : Text) :
    (Gbnf.grammar (defs ++ [d])).body name =
      if d.1 = name then some d.2 else (Gbnf.grammar defs).body name := by
  simp only [Gbnf.grammar, List.reverse_append, List.reverse_singleton, List.singleton_append,
    List.find?_cons]
  by_cases hd : d.1 = name
  · simp [hd]
  · simp [hd]

theorem mem_of_body (h : (Gbnf.grammar defs).body name = some e) : (name, e) ∈ defs := by
  obtain ⟨d, hfind, rfl⟩ := Option.map_eq_some_iff.1 h
  obtain rfl : d.1 = name := by simpa using List.find?_some hfind
  exact List.mem_reverse.1 (List.mem_of_find?_eq_some hfind)

theorem body_eq_none (h : ∀ d ∈ defs, d.1 ≠ name) : (Gbnf.grammar defs).body name = none := by
  rw [Gbnf.grammar, Option.map_eq_none_iff, List.find?_eq_none]
  simpa using fun d e hd => h (d, e) hd

theorem body_withoutEmpty (defs : List (Text × Gbnf.Expr)) (name : Text) :
    (Gbnf.grammar (Gbnf.defsWithoutEmpty defs)).body name =
      ((Gbnf.grammar defs).body name).map Gbnf.withoutEmpty := by
  unfold Gbnf.defsWithoutEmpty
  induction defs using List.reverseRecOn with
  | nil => rfl
  | append_singleton defs d ih =>
    rw [List.map_append, List.map_singleton, body_snoc, body_snoc]
    by_cases hd : d.1 = name
    · simp [hd]
    · simpa [hd] using ih

/-- Each name of the text has the rule of its last definition, if it has one. -/
structure Defined (p : GbnfParser) (defs : List (Text × Gbnf.Expr)) : Prop where
  tidy : p.Tidy
  known : ∀ d ∈ defs, ∃ id, (d.1, id) ∈ p.symbolIds
  undefined : ∀ name id, (name, id) ∈ p.symbolIds → ascii '_' ∉ name →
    (Gbnf.grammar defs).body name = none → p.rules.getD id [] = []
  defined : ∀ name id, (name, id) ∈ p.symbolIds → ascii '_' ∉ name →
    ∀ e, (Gbnf.grammar defs).body name = some e →
      p.rules.getD id [] ≠ [] ∧ p.Means (GrammarRule.forms (p.rules.getD id [])) e

theorem defined_nil : Defined {} [] where
  tidy := ⟨fun _ h => (by cases h), List.nodup_nil, rfl, Nat.le_refl 0⟩
  known _ h := by cases h
  undefined _ _ h := by cases h
  defined _ _ h := by cases h

/-- In the middle of a rule the definitions stay. -/
theorem Defined.grows (h : p.Defined defs) (hgrows : p.Grows q) : q.Defined defs where
  tidy := hgrows.tidy
  known d hd := (h.known d hd).imp fun _ hx => hgrows.known hx
  undefined name id hx hname hbody := by
    rcases Nat.lt_or_ge id p.symbolIds.length with hlt | hge
    · rw [hgrows.old id hlt]
      exact h.undefined name id (hgrows.mem hx hlt) hname hbody
    · exact hgrows.new name id hx hname hge
  defined name id hx hname e hbody := by
    obtain ⟨id', hx'⟩ := h.known _ (mem_of_body hbody)
    obtain rfl := hgrows.tidy.id_unique hx (hgrows.known hx')
    rw [hgrows.old id (h.tidy.lt hx')]
    exact (h.defined name id hx' hname e hbody).imp_right fun hmeans => hmeans.mono hgrows

/-- The rule of a name is added. -/
theorem Defined.addRule (h : p.Defined defs) (hx : (name, id) ∈ p.symbolIds)
    (hname : ascii '_' ∉ name) (hne : rule ≠ []) (he : p.Means rule.forms e) :
    (p.addRule id rule).Defined (defs ++ [(name, e)]) := by
  have hhelper := h.tidy.not_isHelper hx hname
  have hmono : ∀ {ps : List (Cfg.Form Nat CharClass)} {e : Gbnf.Expr}, p.Means ps e →
      (p.addRule id rule).Means ps e := fun hmeans hb rules names hfinal =>
    hmeans hb rules names (hfinal.of_addRule fun hid => absurd hid hhelper)
  -- another name has another id
  have hother : ∀ {name' : Text} {id' : Nat}, (name', id') ∈ p.symbolIds → name ≠ name' →
      (p.addRule id rule).rules.getD id' [] = p.rules.getD id' [] := by
    intro name' id' hx' hne
    rw [getD_addRule, if_neg]
    rintro rfl
    exact hne (h.tidy.name_unique hx hx')
  refine ⟨h.tidy.addRule (h.tidy.lt hx) rule, fun d hd => ?_, fun name' id' hx' hname' hbody => ?_,
    fun name' id' hx' hname' e' hbody => ?_⟩
  · rcases List.mem_append.1 hd with hd | hd
    · exact h.known d hd
    · obtain rfl := List.mem_singleton.1 hd
      exact ⟨id, hx⟩
  · rw [body_snoc] at hbody
    by_cases heq : name = name'
    · rw [if_pos heq] at hbody
      cases hbody
    · rw [if_neg heq] at hbody
      rw [hother hx' heq]
      exact h.undefined name' id' hx' hname' hbody
  · rw [body_snoc] at hbody
    by_cases heq : name = name'
    · subst heq
      rw [if_pos rfl] at hbody
      cases hbody
      obtain rfl := h.tidy.id_unique hx hx'
      rw [getD_addRule, if_pos rfl]
      exact ⟨hne, hmono he⟩
    · rw [if_neg heq] at hbody
      rw [hother hx' heq]
      exact (h.defined name' id' hx' hname' e' hbody).imp_right hmono

theorem parseRule_reads (hp : p.Defined defs) (h : p.parseRule src = .ok (q, rest)) :
    ∃ d, Gbnf.readRule src = some (d, rest) ∧ q.Defined (defs ++ [d]) := by
  unfold parseRule at h
  unfold Gbnf.readRule
  obtain ⟨⟨name, after⟩, hname, h⟩ := Except.bind_eq_ok.1 h
  rw [toOption_of_ok hname]
  simp only [Option.bind_eq_bind, Option.bind_some]
  obtain ⟨hgrows, hmem⟩ := hp.tidy.getSymbolId (parseName_ok hname)
  dsimp only at h
  generalize p.getSymbolId name = r at h hgrows hmem
  obtain ⟨id, p₁⟩ := r
  dsimp only at h hgrows hmem
  by_cases hassign : (parseSpace false after).take 3 = [ascii ':', ascii ':', ascii '=']
  · rw [if_pos hassign] at h ⊢
    obtain ⟨⟨p₃, pos⟩, halternates, h⟩ := Except.bind_eq_ok.1 h
    obtain ⟨p₂, rule, e, hgrows₂, rfl, hne, hread, hmeans⟩ :=
      (parse_reads _).1 hgrows.tidy halternates
    have hdefined := ((hp.grows hgrows).grows hgrows₂).addRule (hgrows₂.known hmem)
      (parseName_ok hname) hne hmeans
    rw [hread]
    cases pos with
    | nil =>
      cases h
      exact ⟨(name, e), rfl, hdefined⟩
    | cons c pos =>
      simp only [Option.bind_some] at h ⊢
      by_cases hreturn : c = ascii '\r'
      · rw [if_pos hreturn] at h ⊢
        cases h
        exact ⟨(name, e), rfl, hdefined⟩
      rw [if_neg hreturn] at h ⊢
      by_cases hnewline : c = ascii '\n'
      · rw [if_pos hnewline] at h ⊢
        cases h
        exact ⟨(name, e), rfl, hdefined⟩
      · rw [if_neg hnewline] at h
        cases h
  · rw [if_neg hassign] at h
    cases h

theorem parseRules_reads : ∀ {fuel : Nat} {p : GbnfParser} {src : Text}
    {defs : List (Text × Gbnf.Expr)}, p.Defined defs → parseRules fuel p src = .ok q →
    ∃ ds, Gbnf.readRules fuel src = some ds ∧ q.Defined (defs ++ ds)
  | 0, _, _, _, _, h => by cases h
  | _ + 1, _, [], defs, hp, h => by
    cases h
    exact ⟨[], rfl, by rwa [List.append_nil]⟩
  | fuel + 1, p, c :: src, defs, hp, h => by
    obtain ⟨⟨p₁, pos⟩, hrule, h⟩ := Except.bind_eq_ok.1 h
    obtain ⟨d, hread, hdefined⟩ := parseRule_reads hp hrule
    obtain ⟨ds, hreads, hdefined'⟩ := parseRules_reads hdefined h
    rw [List.append_assoc] at hdefined'
    exact ⟨d :: ds, by simp [Gbnf.readRules, hread, hreads], hdefined'⟩

theorem parse_defined (h : parse src = .ok p) :
    ∃ defs, Gbnf.read src = some defs ∧ p.Defined defs := by
  obtain ⟨q, hrules, h⟩ := Except.bind_eq_ok.1 h
  obtain ⟨_, -, h⟩ := Except.bind_eq_ok.1 h
  obtain rfl := Except.pure_eq_ok.1 h
  obtain ⟨ds, hread, hdefined⟩ := parseRules_reads defined_nil hrules
  exact ⟨ds, hread, hdefined⟩

/-- With bounds that are right, the rules compile the text without its empty classes. -/
theorem Defined.defines (h : p.Defined defs) (hrules : ∀ rule ∈ p.rules, rule ≠ [])
    (hbounded : ∀ d ∈ defs, Gbnf.Bounded d.2) :
    Ebnf.Defines (Gbnf.grammar (Gbnf.defsWithoutEmpty defs)) (grammarOf p.rules)
      (NamedIn p.symbolIds) := by
  rintro name id ⟨hx, hname⟩
  rw [body_withoutEmpty]
  rcases hbody : (Gbnf.grammar defs).body name with _ | e
  · have hempty := h.undefined name id hx hname hbody
    refine .inr ⟨rfl, ?_⟩
    rcases hget : p.rules[id]? with _ | rule
    · simp [grammarOf, hget]
    · rw [List.getD_eq_getElem?_getD, hget, Option.getD_some] at hempty
      exact absurd hempty (hrules rule (List.mem_of_getElem? hget))
  · obtain ⟨hne, hmeans⟩ := h.defined name id hx hname e hbody
    refine .inl ⟨_, rfl, ?_⟩
    rw [alts_eq rfl hne]
    exact hmeans (hbounded _ (mem_of_body hbody)) p.rules p.symbolIds
      ⟨fun _ hx => hx, fun _ _ _ => rfl⟩

/-- The words of a name of the text, with bounds that are right. -/
theorem Defined.derives_iff (h : p.Defined defs) (hrules : ∀ rule ∈ p.rules, rule ≠ [])
    (hbounded : ∀ d ∈ defs, Gbnf.Bounded d.2) (hx : (name, id) ∈ p.symbolIds)
    (hname : ascii '_' ∉ name) (w : List UInt32) : (grammarOf p.rules).Derives [.rule id] w ↔
      (Gbnf.grammar (Gbnf.defsWithoutEmpty defs)).Matches (.rule name) w :=
  (h.defines hrules hbounded).derives_iff ⟨hx, hname⟩

theorem parse_nonempty (h : parse src = .ok p) : ∀ rule ∈ p.rules, rule ≠ [] := by
  intro rule hrule
  obtain ⟨body, rfl, -⟩ := (parse_complete src).of_ok h rule hrule
  simp

end Grammar

end GbnfParser

/-! ## The language of a text -/

/-- `root`. -/
def rootName : Text := "root".toList.map ascii

/-- The bounds of the text are right, and the rules derive from the root what the text describes. -/
def Preserves (p : GbnfParser) (defs : List (Text × Gbnf.Expr)) : Prop :=
  (∀ d ∈ defs, Gbnf.Bounded d.2) ∧ ∀ id, (rootName, id) ∈ p.symbolIds → ∀ w,
    (grammarOf p.rules).Derives [.rule id] w ↔ (Gbnf.grammar defs).Matches (.rule rootName) w

/-- Texts that are accepted have a meaning, which parsing preserves. -/
def ParsingLaw : Prop := ∀ (src : Text) (p : GbnfParser), GbnfParser.parse src = .ok p →
  ∃ defs, Gbnf.read src = some defs ∧ Preserves p defs

theorem not_matches_undefined {defs : List (Text × Gbnf.Expr)} {name : Text} {w : List UInt32}
    (h : (Gbnf.grammar defs).body name = none) : ¬ (Gbnf.grammar defs).Matches (.rule name) w := by
  intro hw
  cases hw with
  | rule he _ => cases h.symm.trans he

theorem parse_preserves_iff (src : Text) (p : GbnfParser) (h : GbnfParser.parse src = .ok p) :
    ∃ defs, Gbnf.read src = some defs ∧ (Preserves p defs ↔
      (∀ d ∈ defs, Gbnf.Bounded d.2) ∧ ∀ w,
        (Gbnf.grammar (Gbnf.defsWithoutEmpty defs)).Matches (.rule rootName) w ↔
          (Gbnf.grammar defs).Matches (.rule rootName) w) := by
  obtain ⟨defs, hread, hdefined⟩ := GbnfParser.parse_defined h
  refine ⟨defs, hread, and_congr_right fun hbounded => ?_⟩
  have hroot : ascii '_' ∉ rootName := by decide
  have hderives := fun id (hx : (rootName, id) ∈ p.symbolIds) =>
    hdefined.derives_iff (GbnfParser.parse_nonempty h) hbounded hx hroot
  constructor
  · intro hpreserves w
    by_cases hx : ∃ id, (rootName, id) ∈ p.symbolIds
    · obtain ⟨id, hx⟩ := hx
      exact (hderives id hx w).symm.trans (hpreserves id hx w)
    · -- a root that is not there has no words
      have hnone : (Gbnf.grammar defs).body rootName = none :=
        GbnfParser.body_eq_none fun d hd heq => hx (heq ▸ hdefined.known d hd)
      have hnone' : (Gbnf.grammar (Gbnf.defsWithoutEmpty defs)).body rootName = none := by
        rw [GbnfParser.body_withoutEmpty, hnone, Option.map_none]
      exact iff_of_false (not_matches_undefined hnone') (not_matches_undefined hnone)
  · intro hsame id hx w
    exact (hderives id hx w).trans (hsame w)

/-- `root ::= [a-z]{1,2}` -/
def rangeText : Text := "root ::= [a-z]{1,2}".toList.map ascii

def rangeParser : GbnfParser where
  symbolIds := [(rootName, 0), (rootName ++ "_1".toList.map ascii, 1)]
  rules := [[.char 97, .charRngUpper 122, .ruleRef 1, .endRule],
    [.char 97, .charRngUpper 122, .alt, .endRule]]

def rangeDefs : List (Text × Gbnf.Expr) :=
  [(rootName, .seq .empty (.rep (.char (.cls ⟨false, [(97, 122)]⟩)) 1 (some 2)))]

theorem parse_preserves_iff_range : Preserves rangeParser rangeDefs := by
  obtain ⟨defs, hread, hiff⟩ := parse_preserves_iff rangeText rangeParser (by decide +kernel)
  obtain rfl : rangeDefs = defs :=
    Option.some.inj ((show Gbnf.read rangeText = some rangeDefs by decide +kernel).symm.trans hread)
  refine hiff.2 ⟨fun d hd => ?_, fun w => Iff.rfl⟩
  obtain rfl := List.mem_singleton.1 hd
  simp [Gbnf.Bounded]

/-- `root ::= "a"{3,2}` is accepted. -/
theorem not_parsingLaw : ¬ ParsingLaw := by
  intro h
  obtain ⟨defs, hread, hbounded, -⟩ := h ("root ::= \"a\"{3,2}".toList.map ascii)
    ⟨[(rootName, 0)], [[.char 97, .char 97, .char 97, .endRule]]⟩ (by decide +kernel)
  have hread' : Gbnf.read ("root ::= \"a\"{3,2}".toList.map ascii) =
      some [(rootName, .seq .empty (.rep (Gbnf.literal [97]) 3 (some 2)))] := by decide +kernel
  obtain rfl := Option.some.inj (hread'.symm.trans hread)
  have hbound := hbounded _ (List.mem_singleton_self _)
  simp [Gbnf.Bounded] at hbound

end LamaServer
