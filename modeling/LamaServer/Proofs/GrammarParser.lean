import LamaServer.GrammarParser
import LamaServer.Proofs.Grammar

/-!
# What the parser compiles

Every rule of a grammar that is accepted is valid: its classes are whole, it has one end, and the
rules it refers to are defined. The parser makes sure of the last by looking for the name of a
missing rule, so every rule that is referred to must keep its name. And the parser comes to an end
on every text.
-/

namespace LamaServer

open GrammarElement (mayFollow)

/-! ## Names -/

theorem toNat_of_isDigit {c : Char} (h : c.isDigit = true) :
    c.toUInt8.toNat = c.toNat ∧ c.toNat ≤ 57 := by
  simp only [Char.isDigit, Bool.and_eq_true, decide_eq_true_eq, UInt32.le_iff_toNat_le] at h
  have hle : c.toNat ≤ 57 := h.2
  refine ⟨?_, hle⟩
  change c.val.toNat % 256 = c.val.toNat
  exact Nat.mod_eq_of_lt (by change c.val.toNat ≤ 57 at hle; omega)

theorem underscore_notMem_digits (n : Nat) :
    ascii '_' ∉ (Nat.toDigits 10 n).map Char.toUInt8 := by
  intro h
  obtain ⟨c, hc, heq⟩ := List.mem_map.1 h
  obtain ⟨hnat, hle⟩ := toNat_of_isDigit (Nat.isDigit_of_mem_toDigits (by decide) (by decide) hc)
  have h95 : c.toUInt8.toNat = 95 := congrArg UInt8.toNat heq
  omega

theorem digits_inj {n m : Nat}
    (h : (Nat.toDigits 10 n).map Char.toUInt8 = (Nat.toDigits 10 m).map Char.toUInt8) : n = m := by
  have hback : ∀ n, ((Nat.toDigits 10 n).map Char.toUInt8).map (fun b => Char.ofNat b.toNat) =
      Nat.toDigits 10 n := fun n => by
    rw [List.map_map]
    refine (List.map_congr_left fun c hc => ?_).trans (List.map_id _)
    have hdigit := toNat_of_isDigit (Nat.isDigit_of_mem_toDigits (by decide) (by decide) hc)
    rw [Function.comp_apply, hdigit.1, Char.ofNat_toNat, id]
  have hdigits : Nat.toDigits 10 n = Nat.toDigits 10 m := by rw [← hback n, h, hback]
  simpa only [Nat.ofDigitChars_ten_toDigits] using congrArg (Nat.ofDigitChars 10 · 0) hdigits

/-- What follows the last occurrence of a letter. -/
theorem append_cons_inj {α : Type} {x : α} {d d' : List α} (hd : x ∉ d) (hd' : x ∉ d') :
    ∀ {b b' : List α}, b ++ x :: d = b' ++ x :: d' → d = d'
  | [], [], h => (List.cons.inj h).2
  | [], _ :: _, h =>
    absurd ((List.cons.inj h).2 ▸ List.mem_append_right _ (List.mem_cons_self ..)) hd
  | _ :: _, [], h =>
    absurd ((List.cons.inj h).2 ▸ List.mem_append_right _ (List.mem_cons_self ..)) hd'
  | _ :: _, _ :: _, h => append_cons_inj hd hd' (List.cons.inj h).2

namespace GbnfParser

theorem generatedName_inj {b b' : Text} {n m : Nat} (h : generatedName b n = generatedName b' m) :
    n = m :=
  digits_inj (append_cons_inj (underscore_notMem_digits n) (underscore_notMem_digits m) h)

variable {p q : GbnfParser} {rule rule' body : GrammarRule} {name : Text} {id n : Nat}

/-- A symbol has the id. -/
def Known (p : GbnfParser) (id : Nat) : Prop := ∃ name, (name, id) ∈ p.symbolIds

/-- The symbols of rules that are compiled, up to their end. -/
structure Body (p : GbnfParser) (body : GrammarRule) : Prop where
  chain : body.IsChain fun e e' => mayFollow e e'
  first : ∀ e ∈ body.head?, mayFollow .endRule e
  noEnd : .endRule ∉ body
  refs : ∀ i, .ruleRef i ∈ body → p.Known i

/-- Names are numbered, and those that are generated end in their number. -/
structure Good (p : GbnfParser) : Prop where
  ids : ∀ x ∈ p.symbolIds, x.2 < p.symbolIds.length ∧
    (ascii '_' ∉ x.1 ∨ ∃ base, x.1 = generatedName base x.2)
  rules : ∀ rule ∈ p.rules, rule = [] ∨ ∃ body, rule = body ++ [.endRule] ∧ p.Body body

/-- The parser goes on from one state to another, in which no name is lost. -/
structure Extends (p q : GbnfParser) : Prop where
  good : q.Good
  names : p.symbolIds ⊆ q.symbolIds

theorem Known.mono (h : p.Known id) (hsub : p.symbolIds ⊆ q.symbolIds) : q.Known id :=
  h.imp fun _ hname => hsub hname

theorem Good.extends (h : p.Good) : p.Extends p := ⟨h, fun _ hx => hx⟩

theorem Extends.trans {r : GbnfParser} (h : p.Extends q) (h' : q.Extends r) : p.Extends r :=
  ⟨h'.good, fun _ hx => h'.names (h.names hx)⟩

theorem Body.mono (h : p.Body body) (hsub : p.symbolIds ⊆ q.symbolIds) : q.Body body where
  chain := h.chain
  first := h.first
  noEnd := h.noEnd
  refs i hi := (h.refs i hi).mono hsub

/-! ## Rules -/

/-- An element with which a symbol starts may follow every element. -/
theorem mayFollow_of_first {e : GrammarElement} (h : mayFollow .endRule e = true)
    (prev : GrammarElement) : mayFollow prev e = true := by
  cases e <;> first | rfl | cases h

theorem body_nil (p : GbnfParser) : p.Body [] where
  chain := .nil
  first _ h := by cases h
  noEnd h := by cases h
  refs _ h := by cases h

theorem body_single {e : GrammarElement} (hfirst : mayFollow .endRule e = true)
    (hend : e ≠ .endRule) (hrefs : ∀ i, e = .ruleRef i → p.Known i) : p.Body [e] where
  chain := .singleton e
  first _ h := by
    cases h
    exact hfirst
  noEnd h := hend (List.mem_singleton.1 h).symm
  refs i hi := hrefs i (List.mem_singleton.1 hi).symm

theorem body_ruleRef (h : p.Known id) : p.Body [.ruleRef id] :=
  body_single rfl (by simp) fun i hi => by
    cases hi
    exact h

theorem Body.append (h : p.Body rule) (h' : p.Body rule') : p.Body (rule ++ rule') where
  chain := h.chain.append h'.chain fun e _ e' he' => mayFollow_of_first (h'.first e' he') e
  first e he := by
    cases rule with
    | nil => exact h'.first e he
    | cons d rule => exact h.first e he
  noEnd hend := (List.mem_append.1 hend).elim h.noEnd h'.noEnd
  refs i hi := (List.mem_append.1 hi).elim (h.refs i) (h'.refs i)

theorem Body.flatten_replicate (h : p.Body rule) : ∀ n, p.Body (List.replicate n rule).flatten
  | 0 => body_nil p
  | n + 1 => h.append (h.flatten_replicate n)

/-- A rule whose last symbol starts at a position. -/
def SymbolStart (p : GbnfParser) (rule : GrammarRule) (lastSymStart : Nat) : Prop :=
  ∃ base sym, rule = base ++ sym ∧ base.length = lastSymStart ∧ p.Body base ∧ p.Body sym

theorem SymbolStart.whole (h : p.SymbolStart rule n) : p.Body rule := by
  obtain ⟨base, sym, rfl, -, hbase, hsym⟩ := h
  exact hbase.append hsym

theorem SymbolStart.le (h : p.SymbolStart rule n) : n ≤ rule.length := by
  obtain ⟨base, sym, rfl, rfl, -⟩ := h
  rw [List.length_append]
  exact Nat.le_add_right _ _

theorem SymbolStart.mono (h : p.SymbolStart rule n) (hsub : p.symbolIds ⊆ q.symbolIds) :
    q.SymbolStart rule n := by
  obtain ⟨base, sym, rfl, hlen, hbase, hsym⟩ := h
  exact ⟨base, sym, rfl, hlen, hbase.mono hsub, hsym.mono hsub⟩

theorem Body.symbolStart (h : p.Body rule) (h' : p.Body rule') :
    p.SymbolStart (rule ++ rule') rule.length := ⟨rule, rule', rfl, rfl, h, h'⟩

theorem Good.addRule (h : p.Good) (id : Nat) (hbody : p.Body body) :
    p.Extends (p.addRule id (body ++ [.endRule])) := by
  refine ⟨⟨h.ids, fun rule hrule => ?_⟩, fun _ hx => hx⟩
  obtain hrule | rfl := List.mem_or_eq_of_mem_set hrule
  · obtain hrule | hrule := List.mem_append.1 hrule
    · obtain rfl | ⟨body, rfl, hold⟩ := h.rules rule hrule
      · exact .inl rfl
      · exact .inr ⟨body, rfl, hold.mono fun _ h => h⟩
    · exact .inl (List.eq_of_mem_replicate hrule)
  · exact .inr ⟨body, rfl, hbody.mono fun _ h => h⟩

/-! ## Symbols -/

theorem Good.addSymbol (h : p.Good)
    (hname : ascii '_' ∉ name ∨ ∃ base, name = generatedName base p.symbolIds.length) :
    p.Extends { p with symbolIds := p.symbolIds ++ [(name, p.symbolIds.length)] } where
  good :=
    { ids := fun x hx => by
        rw [List.length_append]
        obtain hx | hx := List.mem_append.1 hx
        · exact (h.ids x hx).imp (fun hlt => by omega) id
        · obtain rfl := List.mem_singleton.1 hx
          exact ⟨by simp, hname⟩
      rules := fun rule hrule => by
        obtain rfl | ⟨body, rfl, hold⟩ := h.rules rule hrule
        · exact .inl rfl
        · exact .inr ⟨body, rfl, hold.mono (List.subset_append_left _ _)⟩ }
  names := List.subset_append_left _ _

theorem Good.getSymbolId (h : p.Good) (hname : ascii '_' ∉ name) :
    p.Extends (p.getSymbolId name).2 ∧ (p.getSymbolId name).2.Known (p.getSymbolId name).1 := by
  unfold GbnfParser.getSymbolId
  cases hfind : p.symbolIds.find? (·.1 = name) with
  | some x =>
    obtain ⟨key, id⟩ := x
    exact ⟨h.extends, key, List.mem_of_find?_eq_some hfind⟩
  | none => exact ⟨h.addSymbol (.inl hname), name, by simp⟩

/-- Names are numbered, and those that are generated end in their number. -/
def Numbered (p : GbnfParser) : Prop := ∀ x ∈ p.symbolIds, x.2 < p.symbolIds.length ∧
  (ascii '_' ∉ x.1 ∨ ∃ base, x.1 = generatedName base x.2)

/-- A name that is generated is new. -/
theorem Numbered.generatedName_new (h : p.Numbered) (base : Text) :
    ∀ x ∈ p.symbolIds, x.1 ≠ generatedName base p.symbolIds.length := by
  intro x hx heq
  obtain ⟨hlt, hname | ⟨base', hbase⟩⟩ := h x hx
  · rw [heq] at hname
    exact hname (by simp [generatedName])
  · have := generatedName_inj (hbase.symm.trans heq)
    omega

theorem Numbered.generateSymbolId (h : p.Numbered) (base : Text) :
    p.generateSymbolId base = (p.symbolIds.length, { p with
      symbolIds := p.symbolIds ++
        [(generatedName base p.symbolIds.length, p.symbolIds.length)] }) := by
  have hfilter : p.symbolIds.filter (·.1 ≠ generatedName base p.symbolIds.length) =
      p.symbolIds :=
    List.filter_eq_self.2 fun x hx => decide_eq_true (h.generatedName_new base x hx)
  unfold GbnfParser.generateSymbolId
  dsimp only
  rw [hfilter]

theorem Good.generateSymbolId (h : p.Good) (base : Text) :
    p.Extends (p.generateSymbolId base).2 ∧
      (p.generateSymbolId base).2.Known (p.generateSymbolId base).1 := by
  rw [Numbered.generateSymbolId h.ids]
  exact ⟨h.addSymbol (.inr ⟨base, rfl⟩), generatedName base p.symbolIds.length, by simp⟩

/-! ## Repetitions -/

theorem body_next {next : Option Nat} (h : ∀ id ∈ next, p.Known id) :
    p.Body (next.map GrammarElement.ruleRef).toList := by
  cases next with
  | none => exact body_nil p
  | some id => exact body_ruleRef (h id rfl)

theorem body_alt (p : GbnfParser) : p.Body [.alt] := body_single rfl (by simp) fun _ h => by cases h

theorem addRepetitions_extends (name : Text) (unbounded : Bool) : ∀ (n : Nat) {p : GbnfParser}
    {last : Option Nat}, p.Good → p.Body rule → (∀ id ∈ last, p.Known id) →
    p.Extends (addRepetitions name rule unbounded n p last).1 ∧
      ∀ id ∈ (addRepetitions name rule unbounded n p last).2,
        (addRepetitions name rule unbounded n p last).1.Known id
  | 0, _, _, h, _, hlast => ⟨h.extends, hlast⟩
  | n + 1, p, last, h, hrule, hlast => by
    obtain ⟨hnew, hid⟩ := h.generateSymbolId name
    rw [addRepetitions]
    generalize p.generateSymbolId name = r at hnew hid
    obtain ⟨id, p₁⟩ := r
    dsimp only at hnew hid ⊢
    have hnext : ∀ i ∈ (if unbounded then some id else last), p₁.Known i := by
      intro i hi
      split_ifs at hi with hunbounded
      · cases hi
        exact hid
      · exact (hlast i hi).mono hnew.names
    have hbody := ((hrule.mono hnew.names).append (body_next hnext)).append (body_alt p₁)
    have hadd := hnew.good.addRule id hbody
    have hlast : ∀ i ∈ some id, (p₁.addRule id _).Known i := fun i hi => by
      cases hi
      exact hid.mono hadd.names
    obtain ⟨hext, hknown⟩ := addRepetitions_extends name unbounded n hadd.good
      ((hrule.mono hnew.names).mono hadd.names) hlast
    rw [List.append_assoc] at hadd hext hknown
    exact ⟨(hnew.trans hadd).trans hext, hknown⟩

/-- What a part of the parser throws is an error of the text. -/
abbrev Parses {α : Type} (Q : α → Prop) (x : Except GbnfError α) : Prop :=
  x.Ends (· ≠ .outOfFuel) Q

theorem handleRepetitions_parses (h : p.Good) {last : Nat} (hrule : p.SymbolStart rule last)
    (pos name : Text) (minTimes maxTimes : Int) :
    Parses (fun r => p.Extends r.1 ∧ r.1.SymbolStart r.2 last)
      (p.handleRepetitions pos name rule last minTimes maxTimes) := by
  unfold GbnfParser.handleRepetitions
  by_cases hempty : last = rule.length
  · rw [if_pos hempty]
    exact GbnfError.noConfusion
  · rw [if_neg hempty]
    obtain ⟨base, sym, rfl, rfl, hbase, hsym⟩ := hrule
    have hkept : ∃ sym', (if minTimes = 0 then (base ++ sym).take base.length
        else base ++ sym ++ (List.replicate (minTimes - 1).toNat sym).flatten) = base ++ sym' ∧
        p.Body sym' := by
      split_ifs
      · exact ⟨[], by simp, body_nil p⟩
      · exact ⟨_, List.append_assoc _ _ _, hsym.append (hsym.flatten_replicate _)⟩
    obtain ⟨sym', heq, hsym'⟩ := hkept
    dsimp only
    rw [List.drop_left, heq]
    obtain ⟨hext, hknown⟩ := addRepetitions_extends name (decide (maxTimes < 0))
      (if maxTimes < 0 then (1 : Int) else maxTimes - minTimes).toNat h hsym
      (show ∀ id ∈ none, p.Known id from fun _ hid => by cases hid)
    refine ⟨hext, base, _, List.append_assoc _ _ _, rfl, hbase.mono hext.names, ?_⟩
    exact (hsym'.mono hext.names).append (body_next hknown)

/-! ## Texts -/

theorem length_skipSpace (newlineOk : Bool) : ∀ (inComment : Bool) (pos : Text),
    (skipSpace newlineOk inComment pos).length ≤ pos.length
  | _, [] => Nat.le_refl _
  | inComment, c :: pos => by
    have ih := fun inComment => length_skipSpace newlineOk inComment pos
    unfold skipSpace
    split_ifs <;> first | exact Nat.le_refl _ | exact Nat.le_succ_of_le (ih _)

theorem length_parseSpace (newlineOk : Bool) (pos : Text) :
    (parseSpace newlineOk pos).length ≤ pos.length := length_skipSpace newlineOk false pos

theorem length_decodeTail : ∀ (n : Nat) (value : UInt32) (pos : Text),
    (decodeTail n value pos).2.length ≤ pos.length
  | 0, _, _ => Nat.le_refl _
  | _ + 1, _, [] => Nat.le_refl _
  | n + 1, _, _ :: pos => Nat.le_succ_of_le (length_decodeTail n _ pos)

theorem parseHex_parses (src : Text) (size : Nat) : ∀ (n : Nat) (value : UInt32) (pos : Text),
    Parses (fun r => r.2.length ≤ pos.length) (parseHex src size n value pos)
  | 0, _, _ => Nat.le_refl _
  | _ + 1, _, [] => GbnfError.noConfusion
  | n + 1, value, c :: pos => by
    unfold parseHex
    cases hexValue c with
    | none => exact GbnfError.noConfusion
    | some d => exact (parseHex_parses src size n _ pos).mono fun _ h => Nat.le_succ_of_le h

theorem parseChar_parses (c : UInt8) (pos : Text) :
    Parses (fun r => r.2.length ≤ pos.length) (parseChar (c :: pos)) := by
  unfold parseChar
  refine .ite (fun _ => ?_) fun _ => ?_
  · cases pos with
    | nil => exact GbnfError.noConfusion
    | cons e pos =>
      have hhex : ∀ n, Parses (fun r => r.2.length ≤ (e :: pos).length) (parseHex pos n n 0 pos) :=
        fun n => (parseHex_parses pos n n 0 pos).mono fun _ h => Nat.le_succ_of_le h
      dsimp only
      refine .ite (fun _ => hhex 2) fun _ => .ite (fun _ => hhex 4) fun _ =>
        .ite (fun _ => hhex 8) fun _ => ?_
      refine .ite (fun _ => Nat.le_succ _) fun _ => .ite (fun _ => Nat.le_succ _) fun _ =>
        .ite (fun _ => Nat.le_succ _) fun _ => .ite (fun _ => Nat.le_succ _) fun _ => ?_
      exact GbnfError.noConfusion
  · exact length_decodeTail _ _ pos

theorem stoulInt_parses (digits : Text) : Parses (fun _ => True) (stoulInt digits) := by
  unfold stoulInt
  dsimp only
  split_ifs
  · trivial
  · exact GbnfError.noConfusion

theorem length_span_le (f : UInt8 → Bool) (pos : Text) : (pos.span f).2.length ≤ pos.length := by
  rw [List.span_eq_takeWhile_dropWhile]
  exact (List.dropWhile_sublist f).length_le

theorem parseName_parses (src : Text) :
    Parses (fun r => ascii '_' ∉ r.1 ∧ r.2.length < src.length) (parseName src) := by
  unfold parseName
  rw [List.span_eq_takeWhile_dropWhile]
  cases hname : src.takeWhile isWordChar with
  | nil => exact GbnfError.noConfusion
  | cons c name =>
    refine ⟨fun hmem => ?_, ?_⟩
    · rw [← hname] at hmem
      have hword := List.all_takeWhile (p := isWordChar) (l := src)
      exact absurd (List.all_eq_true.1 hword _ hmem) (by decide)
    · have hlen := congrArg List.length
        (List.takeWhile_append_dropWhile (p := isWordChar) (l := src))
      rw [hname] at hlen
      simp only [List.length_append, List.length_cons] at hlen
      dsimp only
      omega

theorem parseBounds_parses (isNested : Bool) (pos : Text) :
    Parses (fun r => r.2.2.length ≤ pos.length) (parseBounds isNested pos) := by
  unfold parseBounds
  dsimp only
  have hspan := length_span_le isDigitChar pos
  split
  · exact GbnfError.noConfusion
  · refine (stoulInt_parses _).bind fun minTimes _ => ?_
    have hspace := length_parseSpace isNested (pos.span isDigitChar).2
    generalize parseSpace isNested (pos.span isDigitChar).2 = rest at hspace
    cases rest with
    | nil => exact GbnfError.noConfusion
    | cons c rest =>
      rw [List.length_cons] at hspace
      have hrest := length_parseSpace isNested rest
      dsimp only
      split
      · exact Nat.le_trans hrest (by omega)
      · split
        · have hspan' := length_span_le isDigitChar (parseSpace isNested rest)
          generalize (parseSpace isNested rest).span isDigitChar = r at hspan'
          have hend : (if r.1 = [] then r.2 else parseSpace isNested r.2).length ≤ r.2.length := by
            split
            · exact Nat.le_refl _
            · exact length_parseSpace isNested r.2
          generalize (if r.1 = [] then r.2 else parseSpace isNested r.2) = pos' at hend
          have hclose : ∀ maxTimes : Int, Parses (fun r => r.2.2.length ≤ pos.length)
              (if pos'.head? = some (ascii '}') then
                .ok (minTimes, maxTimes, parseSpace isNested pos'.tail)
              else .error (.expectingClosingBrace pos')) := by
            intro maxTimes
            split
            · have htail := length_parseSpace isNested pos'.tail
              rw [List.length_tail] at htail
              exact Nat.le_trans htail (by omega)
            · exact GbnfError.noConfusion
          split
          · exact hclose (-1)
          · exact (stoulInt_parses _).bind fun maxTimes _ => hclose maxTimes
        · exact GbnfError.noConfusion

/-! ## Sequences and alternatives -/

/-- An element is added to the last symbol, or starts it. -/
theorem SymbolStart.push {e : GrammarElement} (h : p.SymbolStart rule n) (hend : e ≠ .endRule)
    (href : ∀ i, e ≠ .ruleRef i) (hfirst : rule.length ≤ n → mayFollow .endRule e = true)
    (hnext : n < rule.length → ∀ e' ∈ rule.getLast?, mayFollow e' e = true) :
    p.SymbolStart (rule ++ [e]) n := by
  obtain ⟨base, sym, rfl, rfl, hbase, hsym⟩ := h
  rw [List.append_assoc]
  refine ⟨base, _, rfl, rfl, hbase, ?_⟩
  cases sym with
  | nil => exact body_single (hfirst (by simp)) hend fun i hi => absurd hi (href i)
  | cons d sym =>
    rw [List.getLast?_append_cons] at hnext
    exact
      { chain := hsym.chain.append (.singleton e) fun e' he' _ he => by
          cases he
          exact hnext (by simp) e' he'
        first := hsym.first
        noEnd := fun hmem => (List.mem_append.1 hmem).elim hsym.noEnd fun hmem =>
          hend (List.mem_singleton.1 hmem).symm
        refs := fun i hi => (List.mem_append.1 hi).elim (hsym.refs i) fun hi =>
          absurd (List.mem_singleton.1 hi).symm (href i) }

theorem parseLiteral_parses : ∀ {fuel : Nat} {pos : Text} {rule : GrammarRule},
    pos.length < fuel → p.SymbolStart rule n →
    Parses (fun r => r.1.length ≤ pos.length ∧ p.SymbolStart r.2 n) (parseLiteral fuel pos rule)
  | 0, _, _, hfuel, _ => absurd hfuel (Nat.not_lt_zero _)
  | _ + 1, [], _, _, _ => GbnfError.noConfusion
  | fuel + 1, c :: pos, rule, hfuel, h => by
    rw [List.length_cons] at hfuel
    unfold parseLiteral
    split
    · exact ⟨Nat.le_succ _, h⟩
    · refine (parseChar_parses c pos).bind fun r hr => ?_
      refine (parseLiteral_parses (show r.2.length < fuel by omega)
        (h.push (by simp) (by simp) (fun _ => rfl) fun _ _ _ => rfl)).mono fun r' hr' => ?_
      exact ⟨Nat.le_trans hr'.1 (Nat.le_succ_of_le hr), hr'.2⟩

/-- The last symbol is a class of characters, if there is one. -/
def InClass (rule : GrammarRule) (n : Nat) : Prop :=
  n < rule.length → ∀ e ∈ rule.getLast?, e.inClass = true

theorem parseRanges_parses {startType : UInt32 → GrammarElement}
    (hstart : startType = .char ∨ startType = .charNot) : ∀ {fuel : Nat} {pos : Text}
    {rule : GrammarRule}, pos.length < fuel → p.SymbolStart rule n → InClass rule n →
    Parses (fun r => r.1.length ≤ pos.length ∧ p.SymbolStart r.2 n)
      (parseRanges startType n fuel pos rule)
  | 0, _, _, hfuel, _, _ => absurd hfuel (Nat.not_lt_zero _)
  | _ + 1, [], _, _, _, _ => GbnfError.noConfusion
  | fuel + 1, c :: pos, rule, hfuel, h, hclass => by
    rw [List.length_cons] at hfuel
    have hopens : ∀ chr, (if n < rule.length then GrammarElement.charAlt chr
        else startType chr).opensRange = true := by
      intro chr
      obtain rfl | rfl := hstart <;> split <;> rfl
    have hpush : ∀ chr, p.SymbolStart
        (rule ++ [if n < rule.length then .charAlt chr else startType chr]) n := by
      intro chr
      split
      · rename_i hlt
        exact h.push (by simp) (by simp) (fun hle => absurd hlt (Nat.not_lt.2 hle))
          fun _ => hclass hlt
      · rename_i hlt
        obtain rfl | rfl := hstart
        · exact h.push (by simp) (by simp) (fun _ => rfl) fun h => absurd h hlt
        · exact h.push (by simp) (by simp) (fun _ => rfl) fun h => absurd h hlt
    unfold parseRanges
    split
    · exact ⟨Nat.le_succ _, h⟩
    · refine (parseChar_parses c pos).bind fun r hr => ?_
      obtain ⟨chr, pos'⟩ := r
      specialize hopens chr
      specialize hpush chr
      dsimp only at hr ⊢
      generalize (if n < rule.length then GrammarElement.charAlt chr else startType chr) = e
        at hopens hpush
      have hclass' : InClass (rule ++ [e]) n := fun _ e' he' => by
        obtain rfl : e = e' := by simpa using he'
        cases e <;> first | rfl | cases hopens
      have hgo : ∀ {pos'' : Text} {rule' : GrammarRule}, pos''.length ≤ pos.length →
          p.SymbolStart rule' n → InClass rule' n →
          Parses (fun r => r.1.length ≤ (c :: pos).length ∧ p.SymbolStart r.2 n)
            (parseRanges startType n fuel pos'' rule') := fun hlen h hclass =>
        (parseRanges_parses hstart (by omega) h hclass).mono fun r hr =>
          ⟨Nat.le_trans hr.1 (Nat.le_succ_of_le hlen), hr.2⟩
      cases pos' with
      | nil => exact hgo hr hpush hclass'
      | cons d rest =>
        rw [List.length_cons] at hr
        dsimp only
        split
        · cases rest with
          | nil => exact GbnfError.noConfusion
          | cons d' rest =>
            rw [List.length_cons] at hr
            refine (parseChar_parses d' rest).bind fun r hr' => hgo (by omega) ?_ ?_
            · refine hpush.push (by simp) (by simp) (fun hle => absurd h.le ?_) fun _ e' he' => ?_
              · rw [List.length_append, List.length_singleton] at hle
                omega
              · obtain rfl : e = e' := by simpa using he'
                exact hopens
            · intro _ e' he'
              obtain rfl : GrammarElement.charRngUpper r.1 = e' := by simpa using he'
              rfl
        · exact hgo (by rw [List.length_cons]; omega) hpush hclass'

/-- What `parse_alternates` does with so much fuel. -/
def AlternatesParse (fuel : Nat) : Prop :=
  ∀ ⦃p : GbnfParser⦄ ⦃src name : Text⦄ ⦃id : Nat⦄ ⦃isNested : Bool⦄, p.Good →
    2 * src.length + 1 < fuel → Parses (fun r => p.Extends r.1 ∧ r.2.length ≤ src.length)
      (parseAlternates fuel p src name id isNested)

def LaterParse (fuel : Nat) : Prop :=
  ∀ ⦃p : GbnfParser⦄ ⦃pos name : Text⦄ ⦃isNested : Bool⦄ ⦃rule : GrammarRule⦄, p.Good →
    p.Body rule → 2 * pos.length < fuel →
    Parses (fun r => p.Extends r.1 ∧ r.2.1.length ≤ pos.length ∧ r.1.Body r.2.2)
      (parseLater fuel p pos name isNested rule)

def SequenceParse (fuel : Nat) : Prop :=
  ∀ ⦃p : GbnfParser⦄ ⦃pos name : Text⦄ ⦃isNested : Bool⦄ ⦃rule : GrammarRule⦄ ⦃last : Nat⦄,
    p.Good → p.SymbolStart rule last → 2 * pos.length < fuel →
    Parses (fun r => p.Extends r.1 ∧ r.2.1.length ≤ pos.length ∧ r.1.Body r.2.2)
      (parseSequence fuel p pos name isNested rule last)

section Step

variable {fuel : Nat} (ihAlternates : AlternatesParse fuel) (ihLater : LaterParse fuel)
  (ihSequence : SequenceParse fuel)

include ihLater ihSequence in
theorem AlternatesParse.succ : AlternatesParse (fuel + 1) := by
  intro p src name id isNested hp hfuel
  rw [parseAlternates]
  refine (ihSequence hp ⟨[], [], rfl, rfl, body_nil p, body_nil p⟩ (by omega)).bind
    fun r hr => ?_
  obtain ⟨p₁, pos₁, rule₁⟩ := r
  obtain ⟨hext₁, hlen₁, hbody₁⟩ := hr
  dsimp only at hext₁ hlen₁ hbody₁ ⊢
  refine (ihLater hext₁.good hbody₁ (by omega)).bind fun r hr => ?_
  obtain ⟨p₂, pos₂, rule₂⟩ := r
  obtain ⟨hext₂, hlen₂, hbody₂⟩ := hr
  exact ⟨(hext₁.trans hext₂).trans (hext₂.good.addRule _ hbody₂), Nat.le_trans hlen₂ hlen₁⟩

include ihLater ihSequence in
theorem LaterParse.succ : LaterParse (fuel + 1) := by
  intro p pos name isNested rule hp hrule hfuel
  rw [parseLater]
  refine .ite (fun hbar => ?_) fun _ => ?_
  · have htail := length_parseSpace true pos.tail
    have hpos : pos.tail.length + 1 ≤ pos.length := by
      cases pos with
      | nil => cases hbar
      | cons c pos => exact Nat.le_refl _
    have hstart : p.SymbolStart (rule ++ [GrammarElement.alt])
        (rule ++ [GrammarElement.alt]).length := by
      simpa using (hrule.append (body_alt p)).symbolStart (body_nil p)
    refine (ihSequence hp hstart (by omega)).bind fun r hr => ?_
    obtain ⟨p₁, pos₁, rule₁⟩ := r
    obtain ⟨hext₁, hlen₁, hbody₁⟩ := hr
    dsimp only at hext₁ hlen₁ hbody₁ ⊢
    refine (ihLater hext₁.good hbody₁ (by omega)).mono fun r hr => ?_
    exact ⟨hext₁.trans hr.1, by have := hr.2.1; omega, hr.2.2⟩
  · exact ⟨hp.extends, Nat.le_refl _, hrule⟩

include ihAlternates ihSequence in
theorem SequenceParse.succ : SequenceParse (fuel + 1) := by
  intro p pos name isNested rule last hp hrule hfuel
  cases pos with
  | nil =>
    rw [parseSequence]
    exact ⟨hp.extends, Nat.le_refl _, hrule.whole⟩
  | cons c pos =>
    rw [List.length_cons] at hfuel
    -- the rest of the sequence, behind a symbol
    have hgo : ∀ {q : GbnfParser} {pos' : Text} {rule' : GrammarRule} {last' : Nat},
        p.Extends q → q.SymbolStart rule' last' → pos'.length ≤ pos.length →
        Parses (fun r => p.Extends r.1 ∧ r.2.1.length ≤ (c :: pos).length ∧ r.1.Body r.2.2)
          (parseSequence fuel q pos' name isNested rule' last') := fun hext hrule hlen =>
      (ihSequence hext.good hrule (by omega)).mono fun r hr =>
        ⟨hext.trans hr.1, Nat.le_trans hr.2.1 (Nat.le_succ_of_le hlen), hr.2.2⟩
    have hbody := hrule.whole
    have hempty : p.SymbolStart rule rule.length := by
      simpa using hbody.symbolStart (body_nil p)
    have hrepeat : ∀ (pos' : Text) (minTimes maxTimes : Int), pos'.length ≤ pos.length →
        Parses (fun r => p.Extends r.1 ∧ r.2.1.length ≤ (c :: pos).length ∧ r.1.Body r.2.2)
          (p.handleRepetitions pos' name rule last minTimes maxTimes >>= fun r =>
            parseSequence fuel r.1 pos' name isNested r.2 last) :=
      fun pos' minTimes maxTimes hlen =>
        (handleRepetitions_parses hp hrule pos' name minTimes maxTimes).bind fun r hr =>
          hgo hr.1 hr.2 hlen
    rw [parseSequence]
    refine .ite (fun _ => ?_) fun _ => ?_
    · refine (parseLiteral_parses (Nat.lt_succ_self _) hempty).bind fun r hr => ?_
      exact hgo hp.extends hr.2 (Nat.le_trans (length_parseSpace _ _) hr.1)
    refine .ite (fun _ => ?_) fun _ => ?_
    · have hpos : (if pos.head? = some (ascii '^') then pos.tail else pos).length ≤
          pos.length := by
        split
        · rw [List.length_tail]
          exact Nat.sub_le _ _
        · exact Nat.le_refl _
      refine (parseRanges_parses ?_ (Nat.lt_succ_self _) hempty fun h =>
        absurd h (Nat.lt_irrefl _)).bind fun r hr => ?_
      · split
        · exact .inr rfl
        · exact .inl rfl
      · exact hgo hp.extends hr.2
          (Nat.le_trans (length_parseSpace _ _) (Nat.le_trans hr.1 hpos))
    refine .ite (fun _ => ?_) fun _ => ?_
    · refine (parseName_parses (c :: pos)).bind fun r hr => ?_
      obtain ⟨hext, hknown⟩ := hp.getSymbolId hr.1
      refine hgo hext ((hbody.mono hext.names).symbolStart (body_ruleRef hknown)) ?_
      exact Nat.le_trans (length_parseSpace _ _) (Nat.le_of_lt_succ hr.2)
    refine .ite (fun _ => ?_) fun _ => ?_
    · obtain ⟨hext, hknown⟩ := hp.generateSymbolId name
      have hspace := length_parseSpace true pos
      refine (ihAlternates hext.good (by omega)).bind fun r hr => ?_
      have hall := hext.trans hr.1
      dsimp only
      split
      · refine hgo hall ((hbody.mono hall.names).symbolStart
          (body_ruleRef (hknown.mono hr.1.names))) ?_
        have htail := length_parseSpace isNested r.2.tail
        rw [List.length_tail] at htail
        have := hr.2
        omega
      · exact GbnfError.noConfusion
    refine .ite (fun _ => ?_) fun _ => ?_
    · exact hgo hp.extends (hbody.symbolStart (body_single rfl (by simp) (by simp)))
        (length_parseSpace _ _)
    refine .ite (fun _ => ?_) fun _ => ?_
    · exact hrepeat _ _ _ (length_parseSpace _ _)
    refine .ite (fun _ => ?_) fun _ => ?_
    · exact hrepeat _ _ _ (length_parseSpace _ _)
    refine .ite (fun _ => ?_) fun _ => ?_
    · exact hrepeat _ _ _ (length_parseSpace _ _)
    refine .ite (fun _ => ?_) fun _ => ?_
    · refine (parseBounds_parses isNested _).bind fun r hr => ?_
      exact hrepeat _ _ _ (Nat.le_trans hr (length_parseSpace _ _))
    · exact ⟨hp.extends, Nat.le_refl _, hbody⟩

end Step

/-- The three parts of the parser that call each other, with fuel for each byte of the text. -/
theorem parse_parses (fuel : Nat) :
    AlternatesParse fuel ∧ LaterParse fuel ∧ SequenceParse fuel := by
  induction fuel with
  | zero => exact ⟨fun _ h => by omega, fun _ _ h => by omega, fun _ _ h => by omega⟩
  | succ fuel ih =>
    obtain ⟨ihAlternates, ihLater, ihSequence⟩ := ih
    exact ⟨AlternatesParse.succ ihLater ihSequence, LaterParse.succ ihLater ihSequence,
      SequenceParse.succ ihAlternates ihSequence⟩

/-! ## Grammars -/

theorem parseRule_parses (hp : p.Good) (src : Text) :
    Parses (fun r => p.Extends r.1 ∧ r.2.length < src.length) (p.parseRule src) := by
  unfold parseRule
  refine (parseName_parses src).bind fun r hr => ?_
  obtain ⟨name, rest⟩ := r
  obtain ⟨hname, hrest⟩ := hr
  obtain ⟨hext, -⟩ := hp.getSymbolId hname
  have hspace := length_parseSpace false rest
  dsimp only at hrest ⊢
  split
  · have hdrop := length_parseSpace true ((parseSpace false rest).drop 3)
    rw [List.length_drop] at hdrop
    refine ((parse_parses _).1 hext.good (by omega)).bind fun r hr => ?_
    obtain ⟨q, pos⟩ := r
    obtain ⟨hext', hpos⟩ := hr
    have hall := hext.trans hext'
    dsimp only at hpos ⊢
    cases pos with
    | nil => exact ⟨hall, Nat.lt_of_le_of_lt (Nat.zero_le _) hrest⟩
    | cons c pos =>
      rw [List.length_cons] at hpos
      dsimp only
      split
      · refine ⟨hall, ?_⟩
        have hnewline : (if pos.head? = some (ascii '\n') then pos.tail else pos).length ≤
            pos.length := by
          split
          · rw [List.length_tail]
            exact Nat.sub_le _ _
          · exact Nat.le_refl _
        have := length_parseSpace true
          (if pos.head? = some (ascii '\n') then pos.tail else pos)
        dsimp only
        omega
      · split
        · have := length_parseSpace true pos
          exact ⟨hall, by dsimp only; omega⟩
        · exact GbnfError.noConfusion
  · exact GbnfError.noConfusion

theorem parseRules_parses : ∀ {fuel : Nat} {p : GbnfParser} {src : Text}, p.Good →
    src.length < fuel → Parses (fun q => q.Good) (parseRules fuel p src)
  | 0, _, _, _, hfuel => absurd hfuel (Nat.not_lt_zero _)
  | _ + 1, _, [], hp, _ => hp
  | fuel + 1, p, c :: src, hp, hfuel => by
    rw [List.length_cons] at hfuel
    unfold parseRules
    refine (parseRule_parses hp (c :: src)).bind fun r hr => parseRules_parses hr.1.good ?_
    have := hr.2
    rw [List.length_cons] at this
    omega

theorem checkElement_parses (p : GbnfParser) (e : GrammarElement) :
    Parses (fun _ => ∀ i, e = .ruleRef i → p.Known i → i < p.rules.length) (p.checkElement e) := by
  cases e with
  | ruleRef i =>
    unfold checkElement
    dsimp only
    split
    · cases hfind : p.symbolIds.find? (·.2 = i) with
      | some x => exact GbnfError.noConfusion
      | none =>
        rintro _ ⟨⟩ ⟨name, hname⟩
        simpa using List.find?_eq_none.1 hfind _ hname
    · rename_i hrule
      rintro _ ⟨⟩ -
      by_contra hlt
      exact hrule (by rw [List.getD_eq_getElem?_getD,
        List.getElem?_eq_none (Nat.le_of_not_lt hlt), Option.getD_none])
  | _ => exact fun _ h => by cases h

/-- A rule with one end, whose references are defined. -/
def Complete (n : Nat) (rule : GrammarRule) : Prop :=
  ∃ body, rule = body ++ [.endRule] ∧ .endRule ∉ body ∧ GrammarPos.Valid n rule

theorem Body.complete (h : p.Body body) (hrefs : ∀ i, .ruleRef i ∈ body → i < n) :
    Complete n (body ++ [.endRule]) := by
  refine ⟨body, rfl, h.noEnd, ⟨⟨?_, by simp, fun i hi => ?_⟩, fun e he => ?_⟩⟩
  · exact h.chain.append (.singleton _) fun e _ e' he' => by
      cases he'
      rfl
  · obtain hi | hi := List.mem_append.1 hi
    · exact hrefs i hi
    · cases List.mem_singleton.1 hi
  · cases body with
    | nil =>
      cases he
      rfl
    | cons d body => exact h.first e he

/-- A grammar is read to its end or not, and then every rule is complete. -/
theorem parse_complete (src : Text) :
    Parses (fun p => ∀ rule ∈ p.rules, Complete p.rules.length rule) (parse src) := by
  have hempty : Good {} := ⟨fun _ h => (by cases h), fun _ h => (by cases h)⟩
  unfold parse
  refine (parseRules_parses hempty (Nat.lt_succ_self _)).bind fun p hp => ?_
  have hcheck : Parses (fun _ => ∀ rule ∈ p.rules, rule ≠ [] ∧ ∀ e ∈ rule, ∀ i,
      e = .ruleRef i → p.Known i → i < p.rules.length) p.checkRules := by
    refine Except.Ends.forM (fun rule => ?_) p.rules
    split
    · exact GbnfError.noConfusion
    · rename_i hne
      exact (Except.Ends.forM p.checkElement_parses rule).mono fun _ h => ⟨hne, h⟩
  refine hcheck.bind fun _ hrules rule hrule => ?_
  obtain ⟨hne, hrefs⟩ := hrules rule hrule
  obtain rfl | ⟨body, rfl, hbody⟩ := hp.rules rule hrule
  · exact absurd rfl hne
  · exact hbody.complete fun i hi =>
      hrefs _ (List.mem_append_left _ hi) i rfl (hbody.refs i hi)

end GbnfParser

/-- The parser does not run out of fuel. -/
theorem parse_ne_outOfFuel (src : Text) : GbnfParser.parse src ≠ .error .outOfFuel := fun h =>
  (GbnfParser.parse_complete src).of_error h rfl

theorem copy_complete {n : Nat} {rule : GrammarRule} (h : GbnfParser.Complete n rule) :
    rule.takeWhile (· ≠ .endRule) ++ [.endRule] = rule := by
  obtain ⟨body, rfl, hend, -⟩ := h
  have hbody : ∀ e ∈ body, decide (e ≠ .endRule) = true := by
    intro e he
    refine decide_eq_true ?_
    rintro rfl
    exact hend he
  rw [List.takeWhile_append_of_pos hbody]
  simp

/-- The rules of a grammar that is accepted are valid, and have been checked. -/
theorem acceptGrammar_valid {src root : Text} {rules : List GrammarRule} {start : Nat}
    (h : acceptGrammar src root = some (rules, start)) :
    RulesValid rules ∧ isLeftRecursive rules = .ok false := by
  unfold acceptGrammar at h
  cases hparse : GbnfParser.parse src with
  | error => rw [hparse] at h; cases h
  | ok p =>
    have hcomplete := (GbnfParser.parse_complete src).of_ok hparse
    have hcopy : p.rules.map (fun rule => rule.takeWhile (· ≠ .endRule) ++ [.endRule]) =
        p.rules :=
      (List.map_congr_left fun rule hrule => copy_complete (hcomplete rule hrule)).trans
        (List.map_id _)
    rw [hparse] at h
    dsimp only at h
    rw [hcopy] at h
    split_ifs at h
    split at h
    · rename_i hchecked
      cases h
      refine ⟨fun rule hrule => ?_, hchecked⟩
      obtain ⟨-, -, -, hvalid⟩ := hcomplete rule hrule
      exact hvalid
    · cases h

end LamaServer
