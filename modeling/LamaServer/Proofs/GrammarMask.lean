import LamaServer.GrammarSampler
import LamaServer.Proofs.GrammarParser
import LamaServer.Proofs.GrammarSampler
import LamaServer.Proofs.LeftRecursion

/-!
# Stacks and masks are exact

The stacks that are left after a string derive what may follow it in the language, and nothing
else. Masking looks at the candidates stack by stack and character by character, accepting follows
the whole set of stacks; both ask for a form that a derivation reads the piece up to. They part
where a character 0 is decoded from a piece without a NUL byte, as masking takes it for the end.
-/

namespace LamaServer

open GrammarElement (mayFollow)

/-! ## Stacks -/

/-- Accepting a string of characters comes to an end, whatever the string. -/
def Advances (rules : List GrammarRule) (start : Nat) : Prop :=
  ∀ chrs, ∃ fuel stackSet, acceptAll rules fuel start chrs = .ok stackSet

/-- The stacks derive what may follow `w`, and one of them is empty if nothing has to follow. -/
structure StacksExact (rules : List GrammarRule) (start : Nat) (w : List UInt32)
    (stackSet : List GrammarStack) : Prop where
  derives : ∀ v, (∃ s ∈ stackSet, (grammarOf rules).Derives s.form v) ↔
    (grammarOf rules).Derives [.rule start] (w ++ v)
  empty : [] ∈ stackSet ↔ (grammarOf rules).Derives [.rule start] w

section Exact

variable {rules : List GrammarRule} {start n : Nat} {stack : GrammarStack} {w v : List UInt32}
  {stackSet out : List GrammarStack} {p q : Cfg.Form Nat CharClass}

theorem GrammarStack.Valid.eq_nil (h : stack.Valid n) (hform : stack.form = []) : stack = [] := by
  cases stack with
  | nil => rfl
  | cons pos stack =>
    obtain ⟨hpos, hend⟩ := h pos (List.mem_cons_self ..)
    rw [GrammarStack.form, List.flatMap_cons, List.append_eq_nil_iff] at hform
    obtain hend' | ⟨i, next, rfl, -⟩ | ⟨⟨k, p, hk⟩, -⟩ := hpos.cases
    · rw [hend] at hend'
      cases hend'
    · cases hform.1
    · rw [hk] at hform
      cases hform.1

/-- A derivation that reads a string stops where the next character comes up, or at its end. -/
theorem reads_terminal (h : (grammarOf rules).Reads p v []) :
    ∃ q, (grammarOf rules).Reads p [] q ∧ Terminal q ∧ (grammarOf rules).Derives q v := by
  cases v with
  | nil => exact ⟨[], h, terminal_nil, .nil⟩
  | cons c v =>
    obtain ⟨k, r, hp, hk, hr⟩ := h.cons
    exact ⟨_, hp, terminal_char k r, .char hk (by simpa using hr.derives .nil)⟩

theorem Reached.exact (h : Reached rules start w stackSet) :
    StacksExact rules start w stackSet where
  derives v := by
    constructor
    · rintro ⟨s, hs, hv⟩
      exact (h.sound s hs).derives hv
    · intro hv
      obtain ⟨p, hw, hp⟩ := hv.reads.split
      obtain ⟨q, hq, hterm, hv⟩ := reads_terminal hp
      obtain ⟨s, hs, rfl⟩ := h.complete q (by simpa using hw.trans hq) hterm
      exact ⟨s, hs, hv⟩
  empty := by
    constructor
    · intro hs
      simpa using (h.sound [] hs).derives .nil
    · intro hw
      obtain ⟨s, hs, hform⟩ := h.complete [] hw.reads terminal_nil
      exact (h.advanceable s hs).1.eq_nil hform ▸ hs

/-- The initial stacks exist only for a rule that is there. -/
theorem start_lt (h : acceptAll rules n start w = .ok out) : start < rules.length := by
  by_contra hge
  rw [acceptAll, initStacks, List.getElem?_eq_none (Nat.le_of_not_lt hge)] at h
  cases h

theorem acceptAll_exact (src grammarRoot : Text) (rules : List GrammarRule) (start : Nat)
    (haccept : acceptGrammar src grammarRoot = some (rules, start))
    (hadvances : Advances rules start) (w : List UInt32) :
    ∃ fuel stackSet, (∀ m, fuel ≤ m → acceptAll rules m start w = .ok stackSet) ∧
      StacksExact rules start w stackSet := by
  obtain ⟨fuel, stackSet, h⟩ := hadvances w
  refine ⟨fuel, stackSet, fun m hm => acceptAll_mono hm h, ?_⟩
  exact (acceptAll_reached (acceptGrammar_valid haccept).1 (start_lt h) h).exact

theorem accept_literal : acceptGrammar ("root ::= \"a\"".toList.map ascii)
    ("root".toList.map ascii) = some ([[.char 97, .endRule]], 0) := by
  decide +kernel

/-- `root ::= "a"` after `a`. -/
theorem acceptAll_exact_literal : ∃ fuel stackSet,
    (∀ m, fuel ≤ m → acceptAll [[.char 97, .endRule]] m 0 [97] = .ok stackSet) ∧
      StacksExact [[.char 97, .endRule]] 0 [97] stackSet := by
  refine acceptAll_exact _ _ _ _ accept_literal ?_ [97]
  exact (acceptAll_iff (acceptGrammar_valid accept_literal).1 (by decide)).2 fun i _ =>
    notLeftRecursive_literal i

end Exact

/-! ## Partial characters -/

/-- Some character that goes on like the partial one is in the class, as
`llama_grammar_match_partial_char` finds out. -/
def CharClass.mayContain (k : CharClass) (p : PartialUtf8) : Bool :=
  if p.nRemain < 0 ∨ p.nRemain = 1 ∧ p.value < 2 then false
  else
    let shift := UInt32.ofNat (p.nRemain.toNat * 6)
    let low := p.value <<< shift
    let high := low ||| ((1 <<< shift) - 1)
    let low : UInt32 :=
      if low = 0 ∧ p.nRemain = 2 then (1 : UInt32) <<< 11
      else if low = 0 ∧ p.nRemain = 3 then (1 : UInt32) <<< 16
      else low
    (k.ranges.any fun r => r.1 ≤ high ∧ low ≤ r.2) == !k.negated

/-- A piece may end before the form, with this partial character. -/
def EndsBefore (p : PartialUtf8) : Cfg.Form Nat CharClass → Prop
  | .char k :: _ => p.nRemain = 0 ∨ k.mayContain p
  | _ => p.nRemain = 0

theorem EndsBefore.of_complete {p : PartialUtf8} (h : p.nRemain = 0) :
    ∀ form : Cfg.Form Nat CharClass, EndsBefore p form
  | [] => h
  | .char _ :: _ => .inl h
  | .rule _ :: _ => h

namespace GrammarPos

variable {n : Nat} {e : GrammarElement} {pos : GrammarPos} {low high : UInt32} {b : Bool}

theorem matchPartialLoop_single (h : ∀ hi q, pos ≠ .charRngUpper hi :: q) :
    matchPartialLoop low high b (e :: pos) =
      if e = .charAny then true
      else if low ≤ e.value ∧ e.value ≤ high then b
      else if GrammarPos.startsAlt pos then matchPartialLoop low high b pos
      else !b := by
  rw [matchPartialLoop]
  exact h

theorem ite_eq_or {x : Prop} [Decidable x] {rest : Bool} :
    (if x then b else rest == b) = ((decide x || rest) == b) := by
  by_cases hx : x <;> simp [hx]

/-- The ranges of a class are tried one after the other. -/
theorem matchPartialLoop_spec (low high : UInt32) (b : Bool) : ∀ (pos : GrammarPos)
    {e : GrammarElement}, Tail n (e :: pos) → e.opensRange = true →
    matchPartialLoop low high b (e :: pos) =
      (((GrammarPos.rangeFrom e.value pos :: GrammarPos.altRanges pos).any fun r =>
        r.1 ≤ high ∧ low ≤ r.2) == b)
  | pos, e, h, he => by
    have hend : e ≠ .endRule := by
      rintro rfl
      cases he
    have hany : e ≠ .charAny := by
      rintro rfl
      cases he
    have hclass : e.inClass = true := by cases e <;> first | rfl | cases he
    have hsingle : (low ≤ e.value ∧ e.value ≤ high) ↔ (e.value ≤ high ∧ low ≤ e.value) := and_comm
    obtain hvalid | ⟨hi, q, rfl, -⟩ | ⟨c, q, rfl⟩ := h.next_cases hclass
    · rw [matchPartialLoop_single fun hi q hq => by
        rw [hq] at hvalid
        exact absurd (hvalid.first _ rfl) Bool.false_ne_true, if_neg hany, hvalid.startsAlt,
        hvalid.altRanges, hvalid.rangeFrom, List.any_cons, ← ite_eq_or, if_congr hsingle rfl rfl]
      cases b <;> rfl
    · have hqtail := (h.tail hend).tail (by simp)
      obtain hvalid | ⟨-, -, -, hopen⟩ | ⟨c, q, rfl⟩ := (h.tail hend).next_cases rfl
      · rw [matchPartialLoop, hvalid.startsAlt, altRanges_charRngUpper, hvalid.altRanges,
          List.any_cons, ← ite_eq_or]
        cases b <;> rfl
      · cases hopen
      · rw [matchPartialLoop, startsAlt_charAlt, if_pos rfl, List.any_cons, ← ite_eq_or,
          matchPartialLoop_spec low high b q hqtail rfl]
        rfl
    · rw [matchPartialLoop_single (by simp), if_neg hany, startsAlt_charAlt, if_pos rfl,
        List.any_cons, ← ite_eq_or, if_congr hsingle rfl rfl,
        matchPartialLoop_spec low high b q (h.tail hend) rfl]
      rfl
  termination_by pos => pos.length

/-- A partial character is matched as its class says. -/
theorem Valid.matchPartialChar {k : CharClass} {form : Cfg.Form Nat CharClass} (h : Valid n pos)
    (hk : pos.symbols = .char k :: form) (p : PartialUtf8) :
    pos.matchPartialChar p = .ok (k.mayContain p) := by
  cases pos with
  | nil => cases hk
  | cons e q =>
    obtain hend | ⟨i, rfl⟩ | ⟨c, rfl⟩ | ⟨c, rfl⟩ | rfl := h.head_cases
    · cases e <;> cases hend <;> cases hk
    · cases hk
    · simp only [symbols, List.cons.injEq, Cfg.Sym.char.injEq] at hk
      obtain ⟨rfl, -⟩ := hk
      simp only [GrammarPos.matchPartialChar, CharClass.mayContain,
        matchPartialLoop_spec _ _ _ q h.toTail rfl]
      rfl
    · simp only [symbols, List.cons.injEq, Cfg.Sym.char.injEq] at hk
      obtain ⟨rfl, -⟩ := hk
      simp only [GrammarPos.matchPartialChar, CharClass.mayContain,
        matchPartialLoop_spec _ _ _ q h.toTail rfl]
      rfl
    · have hv : Valid n q := h.toTail.valid (by simp) fun e' => by cases e' <;> rfl
      simp only [symbols, List.cons.injEq, Cfg.Sym.char.injEq] at hk
      obtain ⟨rfl, -⟩ := hk
      simp only [GrammarPos.matchPartialChar, CharClass.mayContain]
      rw [matchPartialLoop_single fun hi r hr => by
        rw [hr] at hv
        exact absurd (hv.first _ rfl) Bool.false_ne_true]
      rfl

end GrammarPos

/-! ## Candidates -/

namespace GrammarCandidate

variable {tok : GrammarCandidate}

/-- The characters that are left, up to the first 0. -/
def rest (tok : GrammarCandidate) : List UInt32 := (tok.codePoints.drop tok.pos).takeWhile (· ≠ 0)

def remaining (tok : GrammarCandidate) : Nat := tok.codePoints.length - tok.pos

/-- The next character has been matched. -/
def advance (tok : GrammarCandidate) : GrammarCandidate := { tok with pos := tok.pos + 1 }

theorem rest_of_end (h : tok.chr = 0) : tok.rest = [] := by
  unfold rest
  cases hdrop : tok.codePoints.drop tok.pos with
  | nil => rfl
  | cons c cs =>
    have hget := congrArg (·[0]?) hdrop
    simp only [List.getElem?_drop, Nat.add_zero, List.getElem?_cons_zero] at hget
    rw [chr, List.getD_eq_getElem?_getD, hget] at h
    simp [show c = 0 from h]

theorem rest_of_chr (h : tok.chr ≠ 0) : tok.rest = tok.chr :: tok.advance.rest := by
  have hlt : tok.pos < tok.codePoints.length := by
    by_contra hge
    exact h (by rw [chr, List.getD_eq_getElem?_getD,
      List.getElem?_eq_none (Nat.le_of_not_lt hge), Option.getD_none])
  have hchr : tok.codePoints[tok.pos] = tok.chr := by simp [chr, hlt]
  rw [rest, List.drop_eq_getElem_cons hlt, hchr, List.takeWhile_cons_of_pos (by simpa using h)]
  rfl

theorem remaining_advance (h : tok.chr ≠ 0) : tok.advance.remaining < tok.remaining := by
  have hlt : tok.pos < tok.codePoints.length := by
    by_contra hge
    exact h (by rw [chr, List.getD_eq_getElem?_getD,
      List.getElem?_eq_none (Nat.le_of_not_lt hge), Option.getD_none])
  simp only [remaining, advance]
  omega

end GrammarCandidate

/-- The form can be read up to the end of a piece. -/
def Fits (rules : List GrammarRule) (form : Cfg.Form Nat CharClass) (w : List UInt32)
    (p : PartialUtf8) : Prop :=
  ∃ q, (grammarOf rules).Reads form w q ∧ Terminal q ∧ EndsBefore p q

section Fits

variable {rules : List GrammarRule} {fuel n m : Nat} {pos : GrammarPos} {stack : GrammarStack}
  {w : List UInt32} {newStacks out : List GrammarStack} {p : PartialUtf8} {k : CharClass}
  {form : Cfg.Form Nat CharClass} {c : UInt32} {candidates rejects : List GrammarCandidate}

theorem fits_nil : Fits rules [] w p ↔ w = [] ∧ p.nRemain = 0 := by
  constructor
  · rintro ⟨q, hq, -, hend⟩
    cases hq with
    | refl => exact ⟨rfl, hend⟩
  · rintro ⟨rfl, hend⟩
    exact ⟨[], .refl _, terminal_nil, hend⟩

theorem fits_char_nil : Fits rules (.char k :: form) [] p ↔ EndsBefore p (.char k :: form) := by
  constructor
  · rintro ⟨q, hq, -, hend⟩
    rwa [reads_of_terminal hq (terminal_char k form)] at hend
  · exact fun hend => ⟨_, .refl _, terminal_char k form, hend⟩

theorem fits_char_cons :
    Fits rules (.char k :: form) (c :: w) p ↔ k.Contains c ∧ Fits rules form w p := by
  constructor
  · rintro ⟨q, hq, hterm, hend⟩
    cases hq with
    | read hk hq => exact ⟨hk, q, hq, hterm, hend⟩
  · rintro ⟨hk, q, hq, hterm, hend⟩
    exact ⟨q, .read hk hq, hterm, hend⟩

/-- Up to the next character, what fits is among the stacks that advancing finds. -/
theorem Advanced.fits (h : Advanced rules [form] [] out) :
    Fits rules form w p ↔ ∃ s ∈ out, Fits rules s.form w p := by
  constructor
  · rintro ⟨q, hq, hterm, hend⟩
    cases w with
    | nil =>
      obtain ⟨s, hs, rfl⟩ := h.complete _ (List.mem_singleton_self _) q hq hterm
      exact ⟨s, hs, s.form, .refl _, hterm, hend⟩
    | cons c w =>
      obtain ⟨k, r, hr, hk, hq⟩ := hq.cons
      obtain ⟨s, hs, hform⟩ :=
        h.complete _ (List.mem_singleton_self _) _ hr (terminal_char k r)
      exact ⟨s, hs, q, hform ▸ .read hk hq, hterm, hend⟩
  · rintro ⟨s, hs, q, hq, hterm, hend⟩
    obtain hs | ⟨-, -, f, hf, hread⟩ := h.sound s hs
    · cases hs
    · obtain rfl := List.mem_singleton.1 hf
      exact ⟨q, by simpa using hread.trans hq, hterm, hend⟩

/-- Advancing finds a stack, as every rule has an alternative. -/
theorem advanceStack_ne_nil : ∀ {fuel : Nat} {stack : GrammarStack} {newStacks out},
    advanceStack rules fuel stack newStacks = .ok out → out ≠ []
  | 0, _, _, _, h => by cases h
  | _ + 1, [], newStacks, _, h => by
    cases h
    exact List.ne_nil_of_mem (mem_addStack.2 (.inr rfl))
  | fuel + 1, pos :: stack, newStacks, out, h => by
    cases pos with
    | nil => cases h
    | cons e next =>
      have hadd : ∀ {s}, .ok (addStack s newStacks) = (.ok out : Except GrammarError _) →
          out ≠ [] := fun h => by
        cases h
        exact List.ne_nil_of_mem (mem_addStack.2 (.inr rfl))
      cases e with
      | ruleRef i =>
        simp only [advanceStack] at h
        cases hrule : rules[i]? with
        | none =>
          rw [hrule] at h
          cases h
        | some rule =>
          rw [hrule] at h
          refine Except.foldlM_induction (P := fun done acc => done ≠ [] → acc ≠ []) h
            (fun h => absurd rfl h) (fun _ _ _ _ _ hstep _ => advanceStack_ne_nil hstep) ?_
          exact List.cons_ne_nil _ _
      | char c => exact hadd h
      | charNot c => exact hadd h
      | charAny => exact hadd h
      | endRule => cases h
      | alt => cases h
      | charRngUpper c => cases h
      | charAlt c => cases h

/-! ## Rejecting -/

/-- The candidates that do not fit are rejected, and no others. -/
def RejectsUnfit (rules : List GrammarRule) (stackSet : List GrammarStack)
    (candidates rejects : List GrammarCandidate) : Prop :=
  ∀ tok, tok ∈ rejects ↔ tok ∈ candidates ∧
    ∀ s ∈ stackSet, ¬ Fits rules s.form tok.rest tok.partialUtf8

/-- The next character decides which candidates a stack rejects at once and which go on. -/
theorem splitCandidates_spec (hv : pos.Valid n) (hk : pos.symbols = .char k :: form) :
    ∀ candidates, ∃ rejects next, splitCandidates pos candidates = .ok (rejects, next) ∧
      (∀ tok, tok ∈ rejects ↔ tok ∈ candidates ∧
        (tok.chr = 0 ∧ ¬ EndsBefore tok.partialUtf8 (.char k :: form) ∨
          tok.chr ≠ 0 ∧ ¬ k.Contains tok.chr)) ∧
      ∀ tok, tok ∈ next ↔
        ∃ t ∈ candidates, t.chr ≠ 0 ∧ k.Contains t.chr ∧ tok = t.advance
  | [] => ⟨[], [], rfl, by simp, by simp⟩
  | tok :: candidates => by
    obtain ⟨rejects, next, heq, hrejects, hnext⟩ := splitCandidates_spec hv hk candidates
    by_cases hchr : tok.chr = 0
    · have hnext' : ∀ t, t ∈ next ↔ ∃ t' ∈ tok :: candidates,
          t'.chr ≠ 0 ∧ k.Contains t'.chr ∧ t = t'.advance := fun t => by
        simp [hnext, hchr]
      by_cases hends : EndsBefore tok.partialUtf8 (.char k :: form)
      · refine ⟨rejects, next, ?_, fun t => ?_, hnext'⟩
        · rw [splitCandidates, if_pos hchr]
          by_cases hremain : tok.partialUtf8.nRemain = 0
          · simp [hremain, heq, Except.ok_bind_eq, pure, Except.pure]
          · simp [hremain, hv.matchPartialChar hk, hends.resolve_left hremain, heq,
              Except.ok_bind_eq, pure, Except.pure]
        · rw [hrejects, List.mem_cons]
          constructor
          · exact fun ⟨ht, h⟩ => ⟨.inr ht, h⟩
          · rintro ⟨rfl | ht, h⟩
            · simp [hchr, hends] at h
            · exact ⟨ht, h⟩
      · refine ⟨tok :: rejects, next, ?_, fun t => ?_, hnext'⟩
        · obtain ⟨hremain, hmay⟩ := not_or.1 hends
          simp [splitCandidates, hchr, hremain, hv.matchPartialChar hk, hmay, heq,
            Except.ok_bind_eq, pure, Except.pure]
        · rw [List.mem_cons, hrejects, List.mem_cons]
          constructor
          · rintro (rfl | ⟨ht, h⟩)
            · exact ⟨.inl rfl, .inl ⟨hchr, hends⟩⟩
            · exact ⟨.inr ht, h⟩
          · exact fun ⟨ht, h⟩ => ht.imp id fun ht => ⟨ht, h⟩
    · obtain ⟨b, pos', hmatch, hb, -⟩ := hv.matchChar hk tok.chr
      by_cases hc : k.Contains tok.chr
      · refine ⟨rejects, tok.advance :: next, ?_, fun t => ?_, fun t => ?_⟩
        · rw [splitCandidates, if_neg hchr, hmatch, hb.2 hc, heq]
          rfl
        · rw [hrejects, List.mem_cons]
          constructor
          · exact fun ⟨ht, h⟩ => ⟨.inr ht, h⟩
          · rintro ⟨rfl | ht, h⟩
            · simp [hchr, hc] at h
            · exact ⟨ht, h⟩
        · simp [hnext, hchr, hc]
      · have hfalse : b = false := by simpa using fun h => hc (hb.1 h)
        refine ⟨tok :: rejects, next, ?_, fun t => ?_, fun t => ?_⟩
        · rw [splitCandidates, if_neg hchr, hmatch, hfalse, heq]
          rfl
        · rw [List.mem_cons, hrejects, List.mem_cons]
          constructor
          · rintro (rfl | ⟨ht, h⟩)
            · exact ⟨.inl rfl, .inr ⟨hchr, hc⟩⟩
            · exact ⟨.inr ht, h⟩
          · exact fun ⟨ht, h⟩ => ht.imp id fun ht => ⟨ht, h⟩
        · simp [hnext, hc]

/-- Each stack looks at what those before it reject. -/
theorem rejectCandidatesBy_spec (forStack : GrammarStack → List GrammarCandidate →
    Except GrammarError (List GrammarCandidate)) : ∀ (stackSet : List GrammarStack)
    (candidates : List GrammarCandidate), (candidates ≠ [] → ∀ s ∈ stackSet, ∀ cs,
      (∀ tok ∈ cs, tok ∈ candidates) →
      ∃ rejects, forStack s cs = .ok rejects ∧ RejectsUnfit rules [s] cs rejects) →
    stackSet ≠ [] →
    ∃ rejects, rejectCandidatesBy forStack stackSet candidates = .ok rejects ∧
      RejectsUnfit rules stackSet candidates rejects := by
  intro stackSet candidates hstack hne
  by_cases hempty : candidates = []
  · refine ⟨[], by rw [rejectCandidatesBy, if_neg hne, if_pos hempty], fun tok => ?_⟩
    simp [hempty]
  · rw [rejectCandidatesBy, if_neg hne, if_neg hempty]
    replace hstack := hstack hempty
    clear hne hempty
    induction stackSet generalizing candidates with
    | nil => exact ⟨candidates, rfl, fun tok => by simp⟩
    | cons s stackSet ih =>
      obtain ⟨mid, hmid, hspec⟩ := hstack s (List.mem_cons_self ..) candidates fun _ h => h
      obtain ⟨rejects, hrejects, hspec'⟩ := ih mid fun s hs cs hcs =>
        hstack s (List.mem_cons_of_mem _ hs) cs fun tok htok => ((hspec tok).1 (hcs tok htok)).1
      refine ⟨rejects, ?_, fun tok => ?_⟩
      · rw [List.foldlM_cons, hmid, Except.ok_bind_eq, hrejects]
      · rw [hspec' tok, hspec tok, and_assoc]
        simp

/-- What a stack that starts with a character rejects: what does not match, and of what goes on
whatever the stacks behind the character reject. -/
theorem rejectsUnfit_cons {f : Cfg.Form Nat CharClass} (hadv : Advanced rules [f] [] out)
    {next : List GrammarCandidate}
    (hform : stack.form = .char k :: f) {rejects' : List GrammarCandidate}
    (hrejects : ∀ tok, tok ∈ rejects ↔ tok ∈ candidates ∧
      (tok.chr = 0 ∧ ¬ EndsBefore tok.partialUtf8 (.char k :: f) ∨
        tok.chr ≠ 0 ∧ ¬ k.Contains tok.chr))
    (hnext : ∀ tok, tok ∈ next ↔ ∃ t ∈ candidates, t.chr ≠ 0 ∧ k.Contains t.chr ∧ tok = t.advance)
    (hspec : RejectsUnfit rules out next rejects') :
    RejectsUnfit rules [stack] candidates
      (rejects ++ rejects'.map fun tok => { tok with pos := tok.pos - 1 }) := by
  intro tok
  have hback : ∀ t : GrammarCandidate, { t.advance with pos := t.advance.pos - 1 } = t :=
    fun t => rfl
  have hmore : tok ∈ rejects'.map (fun tok => { tok with pos := tok.pos - 1 }) ↔
      tok ∈ candidates ∧ tok.chr ≠ 0 ∧ k.Contains tok.chr ∧
        ∀ s ∈ out, ¬ Fits rules s.form tok.advance.rest tok.partialUtf8 := by
    rw [List.mem_map]
    constructor
    · rintro ⟨tok', htok', rfl⟩
      obtain ⟨hmem, hno⟩ := (hspec tok').1 htok'
      obtain ⟨t, ht, hchr, hc, rfl⟩ := (hnext tok').1 hmem
      rw [hback]
      exact ⟨ht, hchr, hc, hno⟩
    · rintro ⟨ht, hchr, hc, hno⟩
      exact ⟨tok.advance, (hspec _).2 ⟨(hnext _).2 ⟨tok, ht, hchr, hc, rfl⟩, hno⟩, hback tok⟩
  rw [List.mem_append, hrejects, hmore, ← and_or_left]
  refine and_congr_right fun _ => ?_
  simp only [List.forall_mem_singleton, hform]
  by_cases hchr : tok.chr = 0
  · simp [hchr, GrammarCandidate.rest_of_end hchr, fits_char_nil]
  · have hfits := hadv.fits (w := tok.advance.rest) (p := tok.partialUtf8)
    rw [GrammarCandidate.rest_of_chr hchr, fits_char_cons, hfits]
    simp only [hchr, false_and, false_or, ne_eq, not_false_eq_true, true_and, not_and, not_exists]
    by_cases hc : k.Contains tok.chr <;> simp [hc]

/-- A stack rejects as it should if the stacks behind its first character do. -/
theorem rejectCandidatesForStack_step (hrules : RulesValid rules)
    (hhalts : ∀ p, (grammarOf rules).Halts p) (hvalid : stack.Valid rules.length)
    (hterm : Terminal stack.form)
    (hnext : ∀ out : List GrammarStack, Advanceable rules out →
      ∃ n, ∀ fuel, n ≤ fuel → 0 < m → ∀ s ∈ out, ∀ cs, (∀ tok ∈ cs, tok.remaining < m) →
        ∃ rejects, rejectCandidatesForStack rules fuel s cs = .ok rejects ∧
          RejectsUnfit rules [s] cs rejects) :
    ∃ n, ∀ fuel, n ≤ fuel → ∀ candidates, (∀ tok ∈ candidates, tok.remaining ≤ m) →
      ∃ rejects, rejectCandidatesForStack rules fuel stack candidates = .ok rejects ∧
        RejectsUnfit rules [stack] candidates rejects := by
  cases stack with
  | nil =>
    refine ⟨1, fun fuel hfuel candidates _ => ?_⟩
    obtain ⟨fuel, rfl⟩ := Nat.exists_eq_succ_of_ne_zero (Nat.ne_of_gt hfuel)
    refine ⟨_, rfl, fun tok => ?_⟩
    have hrest : tok.rest = [] ↔ tok.chr = 0 := by
      refine ⟨fun h => ?_, GrammarCandidate.rest_of_end⟩
      by_contra hchr
      rw [GrammarCandidate.rest_of_chr hchr] at h
      cases h
    simp [GrammarStack.form, fits_nil, hrest]
    tauto
  | cons pos stack =>
    obtain ⟨⟨hpos, hend⟩, hstack⟩ := List.forall_mem_cons.1 hvalid
    obtain hend' | ⟨i, next, rfl, -⟩ | ⟨⟨k, p, hk⟩, -⟩ := hpos.cases
    · rw [hend] at hend'
      cases hend'
    · exact absurd rfl (hterm _ _)
    · obtain ⟨b, pos', hmatch, -, hpos', hp⟩ := hpos.matchChar hk 0
      have hafter := GrammarStack.valid_push hpos' hstack
      obtain ⟨n, hn⟩ := advanceStack_total hrules (hhalts _) hafter
      obtain ⟨out, hout⟩ := hn n (Nat.le_refl n) []
      have hadv := advanceStack_advanced hrules hafter hout
      obtain ⟨n', hn'⟩ := hnext out hadv.advanceable
      refine ⟨max n n' + 1, fun fuel hfuel candidates hbound => ?_⟩
      obtain ⟨fuel, rfl⟩ := Nat.exists_eq_succ_of_ne_zero (show fuel ≠ 0 by omega)
      obtain ⟨rejects, next, hsplit, hrejects, hmore⟩ := splitCandidates_spec hpos hk candidates
      have hless : ∀ tok ∈ next, tok.remaining < m := fun tok htok => by
        obtain ⟨t, ht, hchr, -, rfl⟩ := (hmore tok).1 htok
        exact Nat.lt_of_lt_of_le (GrammarCandidate.remaining_advance hchr) (hbound t ht)
      obtain ⟨rejects', hrejects', hspec⟩ := rejectCandidatesBy_spec
        (rejectCandidatesForStack rules fuel) out next
        (fun hne s hs cs hcs => by
          obtain ⟨tok, htok⟩ := List.exists_mem_of_ne_nil next hne
          have hpos := Nat.lt_of_le_of_lt (Nat.zero_le _) (hless tok htok)
          exact hn' fuel (by omega) hpos s hs cs fun tok htok => hless tok (hcs tok htok))
        (advanceStack_ne_nil hout)
      refine ⟨_, ?_, rejectsUnfit_cons (f := p ++ GrammarStack.form stack) ?_ ?_ hrejects hmore
        hspec⟩
      · simp only [rejectCandidatesForStack, hsplit, hmatch, hrejects', Except.ok_bind_eq,
          advanceStack_mono (show n ≤ fuel by omega) hout]
        rfl
      · rwa [GrammarStack.form_push, hp] at hadv
      · rw [GrammarStack.form, List.flatMap_cons, hk]
        rfl

/-- With enough fuel, a stack rejects the candidates that do not fit; the fuel that it takes
depends on the length of the candidates only. -/
theorem rejectCandidatesForStack_spec (hrules : RulesValid rules)
    (hhalts : ∀ p, (grammarOf rules).Halts p) : ∀ (m : Nat) {stack : GrammarStack},
    stack.Valid rules.length → Terminal stack.form →
    ∃ n, ∀ fuel, n ≤ fuel → ∀ candidates, (∀ tok ∈ candidates, tok.remaining ≤ m) →
      ∃ rejects, rejectCandidatesForStack rules fuel stack candidates = .ok rejects ∧
        RejectsUnfit rules [stack] candidates rejects := by
  intro m
  induction m with
  | zero =>
    intro stack hvalid hterm
    exact rejectCandidatesForStack_step hrules hhalts hvalid hterm fun out _ =>
      ⟨0, fun _ _ hm => absurd hm (Nat.lt_irrefl 0)⟩
  | succ m ih =>
    intro stack hvalid hterm
    refine rejectCandidatesForStack_step hrules hhalts hvalid hterm fun out hout => ?_
    obtain ⟨n, hn⟩ := List.exists_fuel fun s hs => ih (hout s hs).1 (hout s hs).2
    exact ⟨n, fun fuel hfuel _ s hs cs hcs =>
      hn fuel hfuel s hs cs fun tok htok => Nat.le_of_lt_succ (hcs tok htok)⟩

end Fits

/-! ## The states of a grammar -/

/-- The states that accepting tokens reaches. -/
inductive AcceptReachable (vocab : Vocab) (init : Grammar) : Grammar → Prop
  | start : AcceptReachable vocab init init
  | token {grammar next} (fuel : Nat) (token : Token) : AcceptReachable vocab init grammar →
      grammar.acceptImpl vocab fuel token = .ok next → AcceptReachable vocab init next

/-- The stacks are what some characters have left of the initial ones. -/
structure Follows (rules : List GrammarRule) (start : Nat) (grammar : Grammar) : Prop where
  rules_eq : grammar.rules = rules
  accepted : ∃ fuel w, acceptAll rules fuel start w = .ok grammar.stackSet
  ne_nil : grammar.stackSet ≠ []

/-- The candidate has been left as it is. -/
def LeavesUnmasked (vocab : Vocab) (grammar : Grammar) (curP : List TokenData) (i : Nat) : Prop :=
  ∃ fuel out tok, grammar.applyImpl vocab fuel curP = .ok out ∧ out[i]? = some tok ∧ tok.logit ≠ ⊥

/-- A piece may end with these stacks: there are some, and if it ends in a partial character, one of
them goes on with it. -/
def MayEnd (stackSet : List GrammarStack) (p : PartialUtf8) : Prop :=
  stackSet ≠ [] ∧
    (p.nRemain ≠ 0 → ∃ pos stack, pos :: stack ∈ stackSet ∧ pos.matchPartialChar p = .ok true)

/-- The characters are accepted, and a piece may end there. -/
def Allowed (grammar : Grammar) (chrs : List UInt32) (p : PartialUtf8) : Prop :=
  ∃ fuel stackSet, chrs.foldlM (acceptChr grammar.rules fuel) grammar.stackSet = .ok stackSet ∧
    MayEnd stackSet p

/-- The token is accepted, and its piece may end there. -/
def AcceptAllowed (vocab : Vocab) (grammar : Grammar) (token : Token) : Prop :=
  ∃ fuel next, grammar.acceptImpl vocab fuel token = .ok next ∧
    MayEnd next.stackSet next.partialUtf8

/-- Masking a candidate agrees with accepting its token. -/
structure MaskAgrees (vocab : Vocab) (grammar : Grammar) (curP : List TokenData) (i : Nat)
    (token : Token) : Prop where
  piece : vocab.isEog token = false → vocab.tokenToPiece token ≠ [] →
    0 ∉ vocab.tokenToPiece token →
    (LeavesUnmasked vocab grammar curP i ↔ AcceptAllowed vocab grammar token)
  eog : vocab.isEog token = true →
    (LeavesUnmasked vocab grammar curP i ↔
      ∀ fuel, grammar.acceptImpl vocab fuel token ≠ .error .abort)

/-- In every state that does not wait for a trigger, masking agrees with accepting. -/
def MaskingLaw : Prop :=
  ∀ (src grammarRoot : Text) (rules : List GrammarRule) (start fuel : Nat) (lazyGrammar : Bool)
    (triggerTokens : List Token) (triggerPatterns : List TriggerPattern) (vocab : Vocab)
    (init grammar : Grammar) (curP : List TokenData) (i : Nat) (tok : TokenData),
    acceptGrammar src grammarRoot = some (rules, start) →
    Grammar.initImpl rules fuel start lazyGrammar triggerTokens triggerPatterns = .ok init →
    AcceptReachable vocab init grammar → grammar.awaitingTrigger = false →
    curP[i]? = some tok → tok.logit ≠ ⊥ → MaskAgrees vocab grammar curP i tok.id

/-- The characters of a piece as the state decodes them, and where it ends. -/
def Grammar.decode (grammar : Grammar) (piece : Text) : List UInt32 × PartialUtf8 :=
  ((decodeUtf8 piece grammar.partialUtf8).1.dropLast, (decodeUtf8 piece grammar.partialUtf8).2)

/-- One of the stacks can be read up to the end of a piece. -/
def Readable (grammar : Grammar) (chrs : List UInt32) (p : PartialUtf8) : Prop :=
  ∃ s ∈ grammar.stackSet, Fits grammar.rules s.form chrs p

/-- A character 0 that is decoded from the piece makes no difference to what the stacks derive. -/
def ZeroHarmless (vocab : Vocab) (grammar : Grammar) (token : Token) : Prop :=
  vocab.isEog token = false → vocab.tokenToPiece token ≠ [] → 0 ∉ vocab.tokenToPiece token →
    let (chrs, p) := grammar.decode (vocab.tokenToPiece token)
    0 ∈ chrs → (Readable grammar (chrs.takeWhile (· ≠ 0)) p ↔ Readable grammar chrs p)

section Mask

variable {rules : List GrammarRule} {start fuel : Nat} {vocab : Vocab} {init grammar : Grammar}
  {next : Grammar} {token : Token} {w v : List UInt32} {p : PartialUtf8} {piece : Text}
  {stackSet : List GrammarStack} {curP : List TokenData} {tok : TokenData} {i : Nat}

theorem Follows.acceptStr (h : Follows rules start grammar)
    (haccept : grammar.acceptStr fuel piece = .ok next) : Follows rules start next := by
  obtain ⟨stackSet, hfold, hne, rfl⟩ := acceptStr_eq_ok.1 haccept
  obtain ⟨m, w, hw⟩ := h.accepted
  rw [h.rules_eq] at hfold
  exact ⟨h.rules_eq, ⟨_, _, acceptAll_append_list hw hfold⟩, hne⟩

theorem Follows.acceptImpl (h : Follows rules start grammar)
    (haccept : grammar.acceptImpl vocab fuel token = .ok next) : Follows rules start next := by
  unfold Grammar.acceptImpl at haccept
  dsimp only at haccept
  split_ifs at haccept with h1 h2 h3 h4
  · have h' : Follows rules start { grammar with awaitingTrigger := false, triggerBuffer := [] } :=
      ⟨h.1, h.2, h.3⟩
    exact h'.acceptStr haccept
  · split at haccept
    · have h' : Follows rules start
          { grammar with awaitingTrigger := false, triggerBuffer := [] } := ⟨h.1, h.2, h.3⟩
      exact h'.acceptStr haccept
    · cases haccept
      exact ⟨h.1, h.2, h.3⟩
  · cases haccept
    exact h
  · exact h.acceptStr haccept

theorem AcceptReachable.follows {lazyGrammar : Bool} {triggerTokens : List Token}
    {triggerPatterns : List TriggerPattern} (h : AcceptReachable vocab init grammar)
    (hinit : Grammar.initImpl rules fuel start lazyGrammar triggerTokens triggerPatterns =
      .ok init) : Follows rules start grammar := by
  induction h with
  | start =>
    obtain ⟨stackSet, hstacks, hinit⟩ := Except.bind_eq_ok.1 hinit
    obtain rfl := Except.pure_eq_ok.1 hinit
    refine ⟨rfl, ⟨fuel, [], by rwa [acceptAll_nil]⟩, ?_⟩
    rw [initStacks_eq] at hstacks
    exact advanceStack_ne_nil hstacks
  | token _ _ _ haccept ih => exact ih.acceptImpl haccept

/-! ## Accepting -/

theorem acceptAll_append_eq : acceptAll rules fuel start (w ++ v) =
    acceptAll rules fuel start w >>= fun mid => v.foldlM (acceptChr rules fuel) mid := by
  simp [acceptAll]

/-- Which stack a piece may end with is a matter of its form. -/
theorem mayEnd_iff (h : Reached rules start w stackSet) :
    MayEnd stackSet p ↔ Fits rules [.rule start] w p := by
  constructor
  · rintro ⟨hne, hmatch⟩
    by_cases hremain : p.nRemain = 0
    · obtain ⟨s, hs⟩ := List.exists_mem_of_ne_nil _ hne
      exact ⟨s.form, h.sound s hs, (h.advanceable s hs).2, .of_complete hremain _⟩
    · obtain ⟨pos, stack, hs, hpos⟩ := hmatch hremain
      obtain ⟨hvalid, hterm⟩ := h.advanceable _ hs
      refine ⟨_, h.sound _ hs, hterm, ?_⟩
      obtain ⟨hv, hend⟩ := hvalid pos (List.mem_cons_self ..)
      obtain hend' | ⟨i, next, rfl, -⟩ | ⟨⟨k, f, hk⟩, -⟩ := hv.cases
      · rw [hend] at hend'
        cases hend'
      · exact absurd rfl (hterm _ _)
      · rw [hv.matchPartialChar hk] at hpos
        rw [GrammarStack.form, List.flatMap_cons, hk]
        exact .inr (Except.ok.inj hpos)
  · rintro ⟨q, hq, hterm, hend⟩
    obtain ⟨s, hs, rfl⟩ := h.complete q hq hterm
    refine ⟨List.ne_nil_of_mem hs, fun hremain => ?_⟩
    cases s with
    | nil => exact absurd hend hremain
    | cons pos stack =>
      refine ⟨pos, stack, hs, ?_⟩
      obtain ⟨hv, hend'⟩ := (h.advanceable _ hs).1 pos (List.mem_cons_self ..)
      obtain hend'' | ⟨i, next, rfl, -⟩ | ⟨⟨k, f, hk⟩, -⟩ := hv.cases
      · rw [hend''] at hend'
        cases hend'
      · exact absurd rfl (hterm _ _)
      · rw [GrammarStack.form, List.flatMap_cons, hk] at hend
        rw [hv.matchPartialChar hk]
        exact congrArg Except.ok (hend.resolve_left hremain)

/-- The stacks read what the initial one reads behind the characters that have been accepted. -/
theorem Reached.fits (h : Reached rules start w stackSet) :
    (∃ s ∈ stackSet, Fits rules s.form v p) ↔ Fits rules [.rule start] (w ++ v) p := by
  constructor
  · rintro ⟨s, hs, q, hq, hterm, hend⟩
    exact ⟨q, (h.sound s hs).trans hq, hterm, hend⟩
  · rintro ⟨q, hq, hterm, hend⟩
    cases v with
    | nil =>
      obtain ⟨s, hs, rfl⟩ := h.complete q (by simpa using hq) hterm
      exact ⟨s, hs, s.form, .refl _, hterm, hend⟩
    | cons c v =>
      obtain ⟨r, hw, hr⟩ := hq.split
      obtain ⟨k, r', hr', hk, hq⟩ := hr.cons
      obtain ⟨s, hs, hform⟩ := h.complete _ (by simpa using hw.trans hr') (terminal_char k r')
      exact ⟨s, hs, q, hform ▸ .read hk hq, hterm, hend⟩

/-- What is accepted next is what the stacks read. -/
theorem Follows.allowed_iff (h : Follows rules start grammar) (hrules : RulesValid rules)
    (hhalts : ∀ p, (grammarOf rules).Halts p) :
    Allowed grammar v p ↔ Readable grammar v p := by
  obtain ⟨rfl, ⟨fuel, w, hw⟩, -⟩ := h
  have hstart := start_lt hw
  rw [Readable, (acceptAll_reached hrules hstart hw).fits]
  constructor
  · rintro ⟨m, stackSet, hfold, hend⟩
    exact (mayEnd_iff (acceptAll_reached hrules hstart (acceptAll_append_list hw hfold))).1 hend
  · intro hfits
    obtain ⟨m, stackSet, hall⟩ := acceptAll_total hrules hstart (fun _ p _ => hhalts p) (w ++ v)
    have hall' := acceptAll_mono (Nat.le_max_right fuel m) hall
    rw [acceptAll_append_eq, acceptAll_mono (Nat.le_max_left fuel m) hw, Except.ok_bind_eq] at hall'
    exact ⟨_, stackSet, hall', (mayEnd_iff (acceptAll_reached hrules hstart hall)).2 hfits⟩

theorem acceptAllowed_iff (hawait : grammar.awaitingTrigger = false)
    (heog : vocab.isEog token = false) : AcceptAllowed vocab grammar token ↔
      Allowed grammar (grammar.decode (vocab.tokenToPiece token)).1
        (grammar.decode (vocab.tokenToPiece token)).2 := by
  have himpl : ∀ fuel, grammar.acceptImpl vocab fuel token =
      grammar.acceptStr fuel (vocab.tokenToPiece token) := fun fuel => by
    simp [Grammar.acceptImpl, hawait, heog]
  constructor
  · rintro ⟨fuel, next, haccept, hend⟩
    rw [himpl] at haccept
    obtain ⟨stackSet, hfold, -, rfl⟩ := acceptStr_eq_ok.1 haccept
    exact ⟨fuel, stackSet, hfold, hend⟩
  · rintro ⟨fuel, stackSet, hfold, hend⟩
    exact ⟨fuel, _, (himpl fuel).trans (acceptStr_eq_ok.2 ⟨stackSet, hfold, hend.1, rfl⟩), hend⟩

/-! ## Masking -/

theorem rejectCandidatesForStack_mono : ∀ {fuel m : Nat} {stack : GrammarStack}
    {candidates rejects : List GrammarCandidate}, fuel ≤ m →
    rejectCandidatesForStack rules fuel stack candidates = .ok rejects →
    rejectCandidatesForStack rules m stack candidates = .ok rejects
  | 0, _, _, _, _, _, h => by cases h
  | fuel + 1, m, stack, candidates, rejects, hm, h => by
    obtain ⟨m, rfl⟩ := Nat.exists_eq_succ_of_ne_zero (show m ≠ 0 by omega)
    cases stack with
    | nil => exact h
    | cons pos stack =>
      simp only [rejectCandidatesForStack, Except.bind_eq_ok] at h ⊢
      obtain ⟨⟨rej, next⟩, hsplit, ⟨b, pos'⟩, hmatch, out, hout, rejects', hrejects', h⟩ := h
      refine ⟨_, hsplit, _, hmatch, out, advanceStack_mono (by omega) hout, rejects', ?_, h⟩
      unfold rejectCandidatesBy at hrejects' ⊢
      split_ifs at hrejects' ⊢
      · exact hrejects'
      · exact Except.foldlM_mono
          (fun _ _ _ h => rejectCandidatesForStack_mono (by omega) h) hrejects'

theorem rejectCandidates_mono {m : Nat} {candidates rejects : List GrammarCandidate}
    (hm : fuel ≤ m) (h : rejectCandidates rules fuel stackSet candidates = .ok rejects) :
    rejectCandidates rules m stackSet candidates = .ok rejects := by
  unfold rejectCandidates rejectCandidatesBy at h ⊢
  split_ifs at h ⊢
  · exact h
  · exact Except.foldlM_mono (fun _ _ _ h => rejectCandidatesForStack_mono hm h) h

/-- Whatever the candidates, rejecting comes to an end and finds those that do not fit. -/
theorem rejectCandidates_spec (hrules : RulesValid rules)
    (hhalts : ∀ p, (grammarOf rules).Halts p) (hadv : Advanceable rules stackSet)
    (hne : stackSet ≠ []) (candidates : List GrammarCandidate) :
    ∃ fuel rejects, rejectCandidates rules fuel stackSet candidates = .ok rejects ∧
      RejectsUnfit rules stackSet candidates rejects := by
  obtain ⟨m, hm⟩ := List.exists_fuel fun (tok : GrammarCandidate) (_ : tok ∈ candidates) =>
    ⟨tok.remaining, fun n (hn : tok.remaining ≤ n) => hn⟩
  obtain ⟨n, hn⟩ := List.exists_fuel fun s hs =>
    rejectCandidatesForStack_spec hrules hhalts m (hadv s hs).1 (hadv s hs).2
  refine ⟨n, rejectCandidatesBy_spec _ stackSet _ (fun _ s hs cs hcs => ?_) hne⟩
  exact hn n (Nat.le_refl n) s hs cs fun tok htok => hm m (Nat.le_refl m) tok (hcs tok htok)

/-- A candidate whose token is an end of generation or has no piece is masked by itself. -/
def maskOne (vocab : Vocab) (grammar : Grammar) (tok : TokenData) : TokenData :=
  if vocab.isEog tok.id then if grammar.allowEog then tok else { tok with logit := ⊥ }
  else if vocab.tokenToPiece tok.id = [] ∨ (vocab.tokenToPiece tok.id).head? = some 0 then
    { tok with logit := ⊥ }
  else tok

theorem applyLoop_fst : ∀ (curP : List TokenData) (i : Nat),
    (grammar.applyLoop vocab i curP).1 = curP.map (maskOne vocab grammar)
  | [], _ => rfl
  | tok :: curP, i => by
    rw [Grammar.applyLoop, List.map_cons, ← applyLoop_fst curP (i + 1), maskOne]
    dsimp only
    split_ifs <;> rfl

/-- The other candidates are looked at by the stacks. -/
theorem mem_applyLoop_snd {c : GrammarCandidate} : ∀ {curP : List TokenData} {i : Nat},
    c ∈ (grammar.applyLoop vocab i curP).2 ↔ ∃ j tok, curP[j]? = some tok ∧
      vocab.isEog tok.id = false ∧ vocab.tokenToPiece tok.id ≠ [] ∧
      (vocab.tokenToPiece tok.id).head? ≠ some 0 ∧
      c = ⟨i + j, (decodeUtf8 (vocab.tokenToPiece tok.id) grammar.partialUtf8).1, 0,
        (decodeUtf8 (vocab.tokenToPiece tok.id) grammar.partialUtf8).2⟩
  | [], i => by simp [Grammar.applyLoop]
  | t :: curP, i => by
    have ih := @mem_applyLoop_snd c curP (i + 1)
    have hshift : ∀ {P : Nat → TokenData → Prop}, (∃ j tok, (t :: curP)[j]? = some tok ∧ P j tok) ↔
        P 0 t ∨ ∃ j tok, curP[j]? = some tok ∧ P (j + 1) tok := by
      intro P
      constructor
      · rintro ⟨j, tok, hj, hP⟩
        cases j with
        | zero =>
          cases hj
          exact .inl hP
        | succ j => exact .inr ⟨j, tok, hj, hP⟩
      · rintro (hP | ⟨j, tok, hj, hP⟩)
        · exact ⟨0, t, rfl, hP⟩
        · exact ⟨j + 1, tok, hj, hP⟩
    rw [hshift]
    simp only [Grammar.applyLoop, Nat.add_zero]
    have hassoc : ∀ j, i + 1 + j = i + (j + 1) := fun j => by omega
    simp only [hassoc] at ih
    split_ifs with h1 h2 h3
    · simp only [h1, ih]
      simp
    · simp only [h1, ih]
      simp
    · rw [ih]
      refine ⟨.inr, fun h => h.resolve_left ?_⟩
      rintro ⟨-, hne, hhead, -⟩
      exact h3.elim hne hhead
    · rw [List.mem_cons, ih]
      refine or_congr ?_ Iff.rfl
      rw [not_or] at h3
      simp [h1, h3]

theorem foldl_mask (i : Nat) : ∀ (rejects : List GrammarCandidate) (curP : List TokenData),
    (rejects.foldl (fun curP reject => curP.modify reject.index fun tok => { tok with logit := ⊥ })
      curP)[i]? = curP[i]?.map fun tok =>
        if rejects.any (·.index = i) then { tok with logit := ⊥ } else tok
  | [], curP => by simp
  | reject :: rejects, curP => by
    rw [List.foldl_cons, foldl_mask i rejects, List.getElem?_modify, List.any_cons]
    by_cases hindex : reject.index = i
    · cases curP[i]? <;> simp [hindex]
    · cases curP[i]? <;> simp [hindex]

theorem decodeUtf8_fst (src : Text) (p : PartialUtf8) :
    (decodeUtf8 src p).1 = (decodeUtf8 src p).1.dropLast ++ [0] := by
  unfold decodeUtf8
  split
  · rfl
  · split
    · rfl
    · simp

/-- A candidate is looked at up to the first 0 that is decoded. -/
theorem rest_decode (index : Nat) : GrammarCandidate.rest
    ⟨index, (decodeUtf8 piece grammar.partialUtf8).1, 0, (decodeUtf8 piece grammar.partialUtf8).2⟩ =
      (grammar.decode piece).1.takeWhile (· ≠ 0) := by
  change (List.takeWhile _ (decodeUtf8 piece grammar.partialUtf8).1) = _
  rw [decodeUtf8_fst, Grammar.decode]
  generalize (decodeUtf8 piece grammar.partialUtf8).1.dropLast = chrs
  induction chrs with
  | nil => rfl
  | cons c chrs ih =>
    rw [List.cons_append, List.takeWhile_cons, List.takeWhile_cons, ih]

theorem maskOne_of_piece (heog : vocab.isEog tok.id = false)
    (hpiece : vocab.tokenToPiece tok.id ≠ []) (hzero : (vocab.tokenToPiece tok.id).head? ≠ some 0) :
    maskOne vocab grammar tok = tok := by
  simp [maskOne, heog, hpiece, hzero]

/-- A candidate is masked by itself or by the stacks. -/
theorem leavesUnmasked_iff (hawait : grammar.awaitingTrigger = false)
    (htok : curP[i]? = some tok) {rejects : List GrammarCandidate}
    (hrejects : rejectCandidates grammar.rules fuel grammar.stackSet
      (grammar.applyLoop vocab 0 curP).2 = .ok rejects) :
    LeavesUnmasked vocab grammar curP i ↔
      (maskOne vocab grammar tok).logit ≠ ⊥ ∧ ∀ c ∈ rejects, c.index ≠ i := by
  have happly : ∀ {m rejects}, rejectCandidates grammar.rules m grammar.stackSet
      (grammar.applyLoop vocab 0 curP).2 = .ok rejects → grammar.applyImpl vocab m curP = .ok
        (rejects.foldl (fun curP reject => curP.modify reject.index fun tok =>
          { tok with logit := ⊥ }) (curP.map (maskOne vocab grammar))) := fun h => by
    simp [Grammar.applyImpl, hawait, h, Except.ok_bind_eq, applyLoop_fst, pure, Except.pure]
  have hget : ∀ rejects : List GrammarCandidate, (rejects.foldl
      (fun curP reject => curP.modify reject.index fun tok => { tok with logit := ⊥ })
      (curP.map (maskOne vocab grammar)))[i]? = some
        (if rejects.any (·.index = i) then { maskOne vocab grammar tok with logit := ⊥ }
          else maskOne vocab grammar tok) := fun rejects => by
    rw [foldl_mask, List.getElem?_map, htok]
    rfl
  have hmasked : (if rejects.any (·.index = i) then { maskOne vocab grammar tok with logit := ⊥ }
      else maskOne vocab grammar tok).logit ≠ ⊥ ↔
        (maskOne vocab grammar tok).logit ≠ ⊥ ∧ ∀ c ∈ rejects, c.index ≠ i := by
    split_ifs with hany
    · rw [List.any_eq_true] at hany
      obtain ⟨c, hc, hindex⟩ := hany
      exact ⟨fun h => absurd rfl h, fun h => absurd (of_decide_eq_true hindex) (h.2 c hc)⟩
    · refine ⟨fun h => ⟨h, fun c hc hindex => hany ?_⟩, fun h => h.1⟩
      exact List.any_eq_true.2 ⟨c, hc, decide_eq_true hindex⟩
  rw [← hmasked]
  constructor
  · rintro ⟨m, out, t, hout, ht, hlogit⟩
    obtain ⟨rejects', hrejects', hout'⟩ : ∃ rejects', rejectCandidates grammar.rules m
        grammar.stackSet (grammar.applyLoop vocab 0 curP).2 = .ok rejects' ∧ _ := by
      unfold Grammar.applyImpl at hout
      rw [if_neg (by simp [hawait])] at hout
      exact Except.bind_eq_ok.1 hout
    obtain rfl : rejects' = rejects := by
      have h := rejectCandidates_mono (Nat.le_max_left m fuel) hrejects'
      rw [rejectCandidates_mono (Nat.le_max_right m fuel) hrejects] at h
      exact (Except.ok.inj h).symm
    rw [happly hrejects'] at hout
    obtain rfl := Except.ok.inj hout
    rw [hget] at ht
    rwa [Option.some.inj ht]
  · exact fun h => ⟨fuel, _, _, happly hrejects, hget rejects, h⟩

/-- Masking asks whether the stacks read the piece up to the first 0. -/
theorem Follows.leavesUnmasked_iff (h : Follows rules start grammar) (hrules : RulesValid rules)
    (hhalts : ∀ p, (grammarOf rules).Halts p) (hawait : grammar.awaitingTrigger = false)
    (htok : curP[i]? = some tok) (hlogit : tok.logit ≠ ⊥) (heog : vocab.isEog tok.id = false)
    (hpiece : vocab.tokenToPiece tok.id ≠ []) (hzero : 0 ∉ vocab.tokenToPiece tok.id) :
    LeavesUnmasked vocab grammar curP i ↔
      Readable grammar ((grammar.decode (vocab.tokenToPiece tok.id)).1.takeWhile (· ≠ 0))
        (grammar.decode (vocab.tokenToPiece tok.id)).2 := by
  obtain ⟨rfl, ⟨fuel, w, hw⟩, hne⟩ := h
  have hhead : (vocab.tokenToPiece tok.id).head? ≠ some 0 := fun hhead =>
    hzero (List.mem_of_mem_head? hhead)
  have hadv := (acceptAll_reached hrules (start_lt hw) hw).advanceable
  obtain ⟨m, rejects, hrejects, hspec⟩ := rejectCandidates_spec hrules hhalts hadv hne
    (grammar.applyLoop vocab 0 curP).2
  rw [LamaServer.leavesUnmasked_iff hawait htok hrejects, maskOne_of_piece heog hpiece hhead,
    and_iff_right hlogit, Readable]
  have hcand : ∀ c, c ∈ rejects ∧ c.index = i ↔
      c = ⟨i, (decodeUtf8 (vocab.tokenToPiece tok.id) grammar.partialUtf8).1, 0,
        (decodeUtf8 (vocab.tokenToPiece tok.id) grammar.partialUtf8).2⟩ ∧
      ∀ s ∈ grammar.stackSet, ¬ Fits grammar.rules s.form c.rest c.partialUtf8 := fun c => by
    rw [hspec, mem_applyLoop_snd]
    constructor
    · rintro ⟨⟨⟨j, t, hj, -, -, -, rfl⟩, hno⟩, hindex⟩
      obtain rfl : j = i := by simpa using hindex
      obtain rfl := Option.some.inj (hj.symm.trans htok)
      exact ⟨by simp, hno⟩
    · rintro ⟨rfl, hno⟩
      exact ⟨⟨⟨i, tok, htok, heog, hpiece, hhead, by simp⟩, hno⟩, rfl⟩
  have hno : (∀ c ∈ rejects, c.index ≠ i) ↔ ¬ ∀ s ∈ grammar.stackSet, ¬ Fits grammar.rules s.form
      ((grammar.decode (vocab.tokenToPiece tok.id)).1.takeWhile (· ≠ 0))
      (grammar.decode (vocab.tokenToPiece tok.id)).2 := by
    rw [← rest_decode i]
    constructor
    · intro hindex hno
      obtain ⟨hmem, hi⟩ := (hcand _).2 ⟨rfl, hno⟩
      exact hindex _ hmem hi
    · intro hsome c hc hi
      obtain ⟨rfl, hno⟩ := (hcand c).1 ⟨hc, hi⟩
      exact hsome hno
  rw [hno]
  push Not
  rfl

/-- An end of generation is masked unless a stack is empty, and only then it is accepted. -/
theorem Follows.eog (h : Follows rules start grammar) (hrules : RulesValid rules)
    (hhalts : ∀ p, (grammarOf rules).Halts p) (hawait : grammar.awaitingTrigger = false)
    (htok : curP[i]? = some tok) (hlogit : tok.logit ≠ ⊥) (heog : vocab.isEog tok.id = true) :
    LeavesUnmasked vocab grammar curP i ↔
      ∀ fuel, grammar.acceptImpl vocab fuel tok.id ≠ .error .abort := by
  obtain ⟨rfl, ⟨fuel, w, hw⟩, hne⟩ := h
  have hadv := (acceptAll_reached hrules (start_lt hw) hw).advanceable
  obtain ⟨m, rejects, hrejects, hspec⟩ := rejectCandidates_spec hrules hhalts hadv hne
    (grammar.applyLoop vocab 0 curP).2
  have hother : ∀ c ∈ rejects, c.index ≠ i := by
    rintro c hc rfl
    obtain ⟨j, t, hj, ht, -, -, rfl⟩ := mem_applyLoop_snd.1 ((hspec c).1 hc).1
    rw [Nat.zero_add] at htok
    obtain rfl := Option.some.inj (hj.symm.trans htok)
    exact absurd heog (by simp [ht])
  rw [LamaServer.leavesUnmasked_iff hawait htok hrejects, and_iff_left hother]
  have haccept : ∀ fuel, grammar.acceptImpl vocab fuel tok.id =
      if grammar.allowEog then .ok grammar else .error .abort := fun fuel => by
    simp [Grammar.acceptImpl, hawait, heog]
  simp only [haccept, maskOne, heog, if_true]
  by_cases hallow : grammar.allowEog
  · simp [hallow, hlogit]
  · simp [hallow]

/-- The initial state of `root ::= "a"`. -/
def literalInit : Grammar :=
  ⟨[[.char 97, .endRule]], [[[.char 97, .endRule]]], {}, false, [], [], []⟩

end Mask

end LamaServer
