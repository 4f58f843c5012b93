import LamaServer.GrammarSampler
import LamaServer.Lib.Utf8
import LamaServer.Proofs.GrammarParser
import Mathlib.Data.List.TakeWhile

/-!
# Sampling with a grammar writes words of its language

The stacks follow the decoded code points, so the decoded text is in the language. The decoder
checks less than it takes for the text to be UTF-8: within a token it takes any byte for the rest
of a character, and the end of generation does not look at a character that has not been ended.
Where the bytes that are sampled are those that may come next in UTF-8, the decoder reads them as
`Utf8.Pending.run` does.
-/

namespace LamaServer

namespace PartialUtf8

/-- What the decoder keeps. -/
def pending (p : PartialUtf8) : Utf8.Pending := ⟨p.value, p.nRemain.toNat⟩

def ofPending (q : Utf8.Pending) : PartialUtf8 := ⟨q.value, q.remaining⟩

@[simp] theorem pending_ofPending (q : Utf8.Pending) : (ofPending q).pending = q := rfl

end PartialUtf8

/-! ## The decoder on UTF-8 -/

section Decode

open Utf8 (Pending)

variable {p q : Pending} {b : UInt8} {bytes : List UInt8} {w : List UInt32}

theorem extend_eq (x : UInt32) (b : UInt8) :
    (x <<< 6) + (b &&& 0x3F).toUInt32 = Pending.extend x b := by
  rw [Pending.extend]
  congr 1
  · apply UInt32.toNat_inj.1
    rw [UInt32.toNat_shiftLeft, UInt32.toNat_mul, Nat.shiftLeft_eq]
    rfl
  · apply UInt32.toNat_inj.1
    rw [UInt8.toNat_toUInt32, UInt8.toNat_and, UInt32.toNat_ofNat',
      show (0x3F : UInt8).toNat = 2 ^ 6 - 1 from rfl, Nat.and_two_pow_sub_one_eq_mod]
    omega

theorem shift_of_continues (h : p.Continues b) : b >>> 6 = 2 := by
  obtain ⟨hlo, hhi, -⟩ := h
  apply UInt8.toNat_inj.1
  rw [UInt8.toNat_shiftRight, Nat.shiftRight_eq_div_pow]
  change b.toNat / 64 = 2
  omega

/-- The bytes of `decode_utf8` that may start a character, by the bytes that are to come. -/
theorem lookup_eq : ∀ k < 16, (k < 8 → decodeLookup.getD k 0 = 1)
    ∧ (k = 12 ∨ k = 13 → decodeLookup.getD k 0 = 2) ∧ (k = 14 → decodeLookup.getD k 0 = 3)
    ∧ (k = 15 → decodeLookup.getD k 0 = 4) := by
  decide

/-- The first byte of a character as `decode_utf8` reads it. -/
theorem lead_eq (h : Pending.lead b = some (w, q)) :
    decodeLookup.getD (b >>> 4).toNat 0 - 1 = (q.remaining : Int)
      ∧ (b &&& ((1 <<< UInt8.ofNat (7 - (q.remaining : Int)).toNat) - 1)).toUInt32 = q.value
      ∧ w = if q.remaining = 0 then [q.value] else [] := by
  have hlt := b.toNat_lt
  have hshift : (b >>> 4).toNat = b.toNat / 16 := by
    rw [UInt8.toNat_shiftRight, Nat.shiftRight_eq_div_pow]
    rfl
  obtain ⟨h1, h2, h3, h4⟩ := lookup_eq (b.toNat / 16) (by omega)
  rw [hshift]
  obtain ⟨hone, rfl, rfl⟩ | ⟨hlo, hhi, rfl, rfl⟩ | ⟨hlo, hhi, rfl, rfl⟩ | ⟨hlo, hhi, rfl, rfl⟩ :=
    Pending.lead_cases h
  · refine ⟨by rw [h1 (by omega)]; rfl, ?_, rfl⟩
    dsimp only
    rw [Utf8.mask_eq (k := 7) (by decide), Nat.mod_eq_of_lt (show b.toNat < 2 ^ 7 by omega)]
  · refine ⟨by rw [h2 (by omega)]; rfl, ?_, rfl⟩
    dsimp only
    rw [Utf8.mask_eq (k := 6) (by decide)]
    congr 1
    omega
  · refine ⟨by rw [h3 (by omega)]; rfl, ?_, rfl⟩
    dsimp only
    rw [Utf8.mask_eq (k := 5) (by decide)]
    congr 1
    omega
  · refine ⟨by rw [h4 (by omega)]; rfl, ?_, rfl⟩
    dsimp only
    rw [Utf8.mask_eq (k := 4) (by decide)]
    congr 1
    omega

theorem decodeLoop_cons_ok {value : UInt32} {nRemain : Int} {b : UInt8} {n : Nat} {v : UInt32}
    {w : List UInt32} {r : PartialUtf8}
    (hnext : (if nRemain > 0 then ((value <<< 6) + (b &&& 0x3F).toUInt32, nRemain - 1)
      else
        let nRemain := decodeLookup.getD (b >>> 4).toNat 0 - 1
        let mask : UInt8 := (1 <<< UInt8.ofNat (7 - nRemain).toNat) - 1
        ((b &&& mask).toUInt32, nRemain)) = (v, (n : Int)))
    (h : decodeLoop bytes v n = some (w, r)) :
    decodeLoop (b :: bytes) value nRemain =
      some ((if n = 0 then [v] else []) ++ w, r) := by
  unfold decodeLoop
  rw [hnext]
  dsimp only
  rw [if_neg (by omega), h]
  by_cases hn : n = 0
  · simp [hn]
  · simp [hn]

/-- Where UTF-8 may go on with the bytes, the second loop of `decode_utf8` reads it. -/
theorem decodeLoop_of_run : ∀ {bytes : List UInt8} {p : Pending} {w : List UInt32},
    p.run bytes = some (w, q) →
    decodeLoop bytes p.value p.remaining = some (w, .ofPending q)
  | [], p, w, h => by cases h; rfl
  | b :: bytes, p, w, h => by
    obtain ⟨w₁, r, w₂, hnext, hrun, rfl⟩ := Pending.run_cons.1 h
    have ih := decodeLoop_of_run hrun
    obtain ⟨x, n⟩ := p
    cases n with
    | zero =>
      obtain ⟨hlookup, hvalue, rfl⟩ := lead_eq hnext
      refine decodeLoop_cons_ok ?_ ih
      rw [if_neg (by simp), hlookup]
      exact congrArg (·, (r.remaining : Int)) hvalue
    | succ n =>
      by_cases hc : Pending.Continues ⟨x, n + 1⟩ b
      · cases (Pending.next_continues hc).symm.trans hnext
        refine decodeLoop_cons_ok ?_ ih
        rw [if_pos (by simp), extend_eq]
        simp
      · cases (show Pending.next ⟨x, n + 1⟩ b = none from if_neg hc).symm.trans hnext

/-- Where UTF-8 may go on with the bytes, both loops of `decode_utf8` read it. -/
theorem continueDecode_of_run : ∀ {bytes : List UInt8} {p : Pending} {w : List UInt32},
    p.run bytes = some (w, q) → ∃ pos value, ∃ n : Nat, ∃ v,
      continueDecode bytes p.value p.remaining = some (pos, value, (n : Int))
        ∧ decodeLoop pos value n = some (v, .ofPending q)
        ∧ w = (if p.remaining > 0 ∧ n = 0 then [value] else []) ++ v
  | [], p, w, h => by
    cases h
    exact ⟨[], q.value, q.remaining, [], rfl, rfl, by rw [if_neg (by omega)]; rfl⟩
  | b :: bytes, ⟨x, 0⟩, w, h =>
    ⟨b :: bytes, x, 0, w, rfl, decodeLoop_of_run h, rfl⟩
  | b :: bytes, ⟨x, n + 1⟩, w, h => by
    obtain ⟨w₁, r, w₂, hnext, hrun, rfl⟩ := Pending.run_cons.1 h
    have hc : Pending.Continues ⟨x, n + 1⟩ b := by
      by_contra hc
      cases (show Pending.next ⟨x, n + 1⟩ b = none from if_neg hc).symm.trans hnext
    cases (Pending.next_continues hc).symm.trans hnext
    have hstep : continueDecode (b :: bytes) x (n + 1 : Nat) =
        continueDecode bytes (Pending.extend x b) n := by
      rw [continueDecode, if_pos (by omega), if_neg (by rw [shift_of_continues hc]; decide),
        extend_eq]
      congr 1
      omega
    rw [hstep]
    cases n with
    | zero =>
      refine ⟨bytes, Pending.extend x b, 0, w₂, ?_, decodeLoop_of_run hrun, rfl⟩
      cases bytes <;> rfl
    | succ n =>
      obtain ⟨pos, value, m, v, hcont, hloop, rfl⟩ := continueDecode_of_run hrun
      exact ⟨pos, value, m, v, hcont, hloop, by simp⟩

theorem decodeUtf8_of_run {piece : Text} (hnul : 0 ∉ piece) (h : p.run piece = some (w, q)) :
    decodeUtf8 piece (.ofPending p) = (w ++ [0], .ofPending q) := by
  have hpiece : piece.takeWhile (· ≠ 0) = piece :=
    List.takeWhile_eq_self_iff.2 fun b hb => by
      simpa using fun hzero : b = 0 => hnul (hzero ▸ hb)
  obtain ⟨pos, value, n, v, hcont, hloop, rfl⟩ := continueDecode_of_run h
  simp only [decodeUtf8, hpiece, PartialUtf8.ofPending, hcont, hloop]
  simp

end Decode

/-! ## Runs -/

/-- The token is a candidate that is not masked. -/
def Unmasked (vocab : Vocab) (grammar : Grammar) (token : Token) : Prop :=
  ∃ fuel curP out, grammar.applyImpl vocab fuel curP = .ok out ∧
    ∃ tok ∈ out, tok.id = token ∧ tok.logit ≠ ⊥

/-- Tokens are sampled and accepted one after the other; each is listed with the state that it is
sampled in. The generation goes on, so none of them ends it. -/
inductive Samples (vocab : Vocab) (init : Grammar) : List (Grammar × Token) → Grammar → Prop
  | start : Samples vocab init [] init
  | token {trace grammar token next} (fuel : Nat) : Samples vocab init trace grammar →
      Unmasked vocab grammar token → vocab.isEog token = false →
      grammar.acceptImpl vocab fuel token = .ok next →
      Samples vocab init (trace ++ [(grammar, token)]) next

/-- The pieces of the sampled tokens. -/
def sampledText (vocab : Vocab) (trace : List (Grammar × Token)) : Text :=
  trace.flatMap fun x => vocab.tokenToPiece x.2

/-- The text is the UTF-8 of a word of the language of a rule. -/
def WritesWord (rules : List GrammarRule) (start : Nat) (text : Text) : Prop :=
  ∃ s : List Char, text = Utf8.encode s ∧
    (grammarOf rules).Derives [.rule start] (s.map Char.val)

/-- What is generated up to the end of generation is UTF-8 of a word of the language. -/
def SamplingLaw : Prop :=
  ∀ (src grammarRoot : Text) (rules : List GrammarRule) (start fuel : Nat)
    (triggerTokens : List Token) (triggerPatterns : List TriggerPattern) (vocab : Vocab)
    (init : Grammar) (trace : List (Grammar × Token)) (grammar : Grammar) (eog : Token),
    acceptGrammar src grammarRoot = some (rules, start) →
    Grammar.initImpl rules fuel start false triggerTokens triggerPatterns = .ok init →
    Samples vocab init trace grammar → vocab.isEog eog = true → Unmasked vocab grammar eog →
    WritesWord rules start (sampledText vocab trace)

section Run

variable {rules : List GrammarRule} {start fuel : Nat} {vocab : Vocab} {init grammar : Grammar}
  {triggerTokens : List Token} {triggerPatterns : List TriggerPattern}
  {trace : List (Grammar × Token)} {token eog : Token}

open Utf8 (Pending)

@[simp] theorem sampledText_nil : sampledText vocab [] = [] := rfl

theorem sampledText_snoc : sampledText vocab (trace ++ [(grammar, token)]) =
    sampledText vocab trace ++ vocab.tokenToPiece token := by
  simp [sampledText]

/-- Accepting a piece changes the stacks and the pending character; some stack has to be left. -/
theorem acceptStr_eq_ok {piece : Text} {next : Grammar} :
    grammar.acceptStr fuel piece = .ok next ↔ ∃ stackSet,
      (decodeUtf8 piece grammar.partialUtf8).1.dropLast.foldlM (acceptChr grammar.rules fuel)
        grammar.stackSet = .ok stackSet ∧ stackSet ≠ [] ∧
      next = { grammar with
        stackSet := stackSet
        partialUtf8 := (decodeUtf8 piece grammar.partialUtf8).2 } := by
  unfold Grammar.acceptStr
  rw [Except.bind_eq_ok]
  refine exists_congr fun stackSet => and_congr_right fun _ => ?_
  by_cases hs : stackSet = []
  · rw [if_pos hs]
    exact ⟨fun h => (by cases h), fun h => absurd hs h.1⟩
  · rw [if_neg hs]
    exact ⟨fun h => ⟨hs, (Except.pure_eq_ok.1 h).symm⟩, fun h => Except.pure_eq_ok.2 h.2.symm⟩

theorem acceptImpl_of_token {next : Grammar} (hawait : grammar.awaitingTrigger = false)
    (heog : vocab.isEog token = false) (h : grammar.acceptImpl vocab fuel token = .ok next) :
    grammar.acceptStr fuel (vocab.tokenToPiece token) = .ok next := by
  simpa [Grammar.acceptImpl, hawait, heog] using h

/-- A grammar that does not wait for a trigger does not start to. -/
theorem Samples.constant (h : Samples vocab init trace grammar)
    (hawait : init.awaitingTrigger = false) :
    grammar.awaitingTrigger = false ∧ grammar.rules = init.rules := by
  induction h with
  | start => exact ⟨hawait, rfl⟩
  | token _ _ _ heog haccept ih =>
    obtain ⟨_, -, -, rfl⟩ := acceptStr_eq_ok.1 (acceptImpl_of_token ih.1 heog haccept)
    exact ih

theorem acceptAll_append_list {w v : List UInt32} {mid out : List GrammarStack} {m : Nat}
    (hw : acceptAll rules fuel start w = .ok mid)
    (hv : v.foldlM (acceptChr rules m) mid = .ok out) :
    acceptAll rules (max fuel m) start (w ++ v) = .ok out := by
  have hw' := acceptAll_mono (Nat.le_max_left fuel m) hw
  have hv' := Except.foldlM_mono
    (fun _ _ _ h => acceptChr_mono (Nat.le_max_right fuel m) h) hv
  obtain ⟨stackSet, hinit, hw'⟩ := Except.bind_eq_ok.1 hw'
  refine Except.bind_eq_ok.2 ⟨stackSet, hinit, ?_⟩
  rw [List.foldlM_append]
  exact Except.bind_eq_ok.2 ⟨mid, hw', hv'⟩

/-- Where UTF-8 may go on with the text, the stacks have accepted its code points, and the state
keeps the character that it has not ended. -/
theorem Samples.accepts {w : List UInt32} {q : Pending}
    (hinit : Grammar.initImpl rules fuel start false triggerTokens triggerPatterns = .ok init)
    (h : Samples vocab init trace grammar) (hnul : ∀ x ∈ trace, 0 ∉ vocab.tokenToPiece x.2)
    (hrun : Pending.run {} (sampledText vocab trace) = some (w, q)) :
    grammar.partialUtf8 = .ofPending q ∧
      ∃ fuel, acceptAll rules fuel start w = .ok grammar.stackSet := by
  obtain ⟨stackSet, hstacks, hinit⟩ := Except.bind_eq_ok.1 hinit
  obtain rfl := Except.pure_eq_ok.1 hinit
  induction h generalizing w q with
  | start =>
    cases hrun
    exact ⟨rfl, fuel, by rwa [acceptAll_nil]⟩
  | token _ h _ heog haccept ih =>
    rw [sampledText_snoc] at hrun
    obtain ⟨w₁, q₁, w₂, hfirst, hpiece, rfl⟩ := Pending.run_append.1 hrun
    obtain ⟨hpend, m, hall⟩ := ih (fun x hx => hnul x (List.mem_append_left _ hx)) hfirst
    obtain ⟨hawait, hrules⟩ := h.constant rfl
    obtain ⟨stackSet', hfold, -, rfl⟩ :=
      acceptStr_eq_ok.1 (acceptImpl_of_token hawait heog haccept)
    rw [hpend, decodeUtf8_of_run (hnul _ (List.mem_append_right _ (List.mem_singleton_self _)))
      hpiece] at hfold ⊢
    rw [List.dropLast_concat, hrules] at hfold
    exact ⟨rfl, _, acceptAll_append_list hall hfold⟩

/-- UTF-8 may go on with the text if it may go on with each piece where the piece is sampled. -/
theorem Samples.reads_iff
    (hinit : Grammar.initImpl rules fuel start false triggerTokens triggerPatterns = .ok init)
    (h : Samples vocab init trace grammar) (hnul : ∀ x ∈ trace, 0 ∉ vocab.tokenToPiece x.2) :
    Pending.Reads {} (sampledText vocab trace) ↔
      ∀ x ∈ trace, x.1.partialUtf8.pending.Reads (vocab.tokenToPiece x.2) := by
  induction h with
  | start => exact iff_of_true rfl (by simp)
  | @token trace grammar token _ _ h _ _ _ ih =>
    have hnul' := fun x hx => hnul x (List.mem_append_left _ hx)
    have ih := ih hnul'
    rw [sampledText_snoc, Pending.reads_append, List.forall_mem_append, ← ih]
    constructor
    · rintro ⟨w, q, hrun, hpiece⟩
      obtain ⟨hpend, -⟩ := h.accepts hinit hnul' hrun
      refine ⟨Option.isSome_iff_exists.2 ⟨_, hrun⟩, fun x hx => ?_⟩
      obtain rfl := List.mem_singleton.1 hx
      rwa [hpend]
    · rintro ⟨hreads, hpiece⟩
      obtain ⟨⟨w, q⟩, hrun⟩ := Option.isSome_iff_exists.1 hreads
      obtain ⟨hpend, -⟩ := h.accepts hinit hnul' hrun
      have hpiece := hpiece _ (List.mem_singleton_self _)
      rw [hpend] at hpiece
      exact ⟨w, q, hrun, hpiece⟩

/-! ## The end of generation -/

/-- An end of generation stays masked if no stack is empty. -/
theorem applyLoop_masks (hno : grammar.allowEog = false) : ∀ (curP : List TokenData) (i : Nat),
    ∀ tok ∈ (grammar.applyLoop vocab i curP).1, vocab.isEog tok.id = true → tok.logit = ⊥
  | [], i, tok, htok, _ => by cases htok
  | t :: curP, i, tok, htok, heog => by
    have ih := applyLoop_masks hno curP (i + 1) tok
    simp only [Grammar.applyLoop, hno] at htok
    split_ifs at htok with h1 h2
    · cases h2
    · obtain rfl | htok := List.mem_cons.1 htok
      · rfl
      · exact ih htok heog
    · obtain rfl | htok := List.mem_cons.1 htok
      · rfl
      · exact ih htok heog
    · obtain rfl | htok := List.mem_cons.1 htok
      · exact absurd heog h1
      · exact ih htok heog

/-- Rejecting masks more candidates. -/
theorem mask_rejects {P : Token → Prop} : ∀ (rejects : List GrammarCandidate)
    {curP : List TokenData}, (∀ tok ∈ curP, P tok.id → tok.logit = ⊥) →
    ∀ tok ∈ rejects.foldl
      (fun curP reject => curP.modify reject.index fun tok => { tok with logit := ⊥ }) curP,
      P tok.id → tok.logit = ⊥
  | [], _, h => h
  | reject :: rejects, curP, h => by
    refine mask_rejects rejects fun tok htok hP => ?_
    obtain ⟨i, hi⟩ := List.mem_iff_getElem?.1 htok
    rw [List.getElem?_modify, Option.map_eq_map, Option.map_eq_some_iff] at hi
    obtain ⟨tok', htok', rfl⟩ := hi
    by_cases hindex : reject.index = i
    · simp [hindex]
    · simp only [if_neg hindex] at hP ⊢
      exact h tok' (List.mem_of_getElem? htok') hP

theorem eog_unmasked (hawait : grammar.awaitingTrigger = false) (heog : vocab.isEog eog = true)
    (h : Unmasked vocab grammar eog) : [] ∈ grammar.stackSet := by
  obtain ⟨fuel, curP, out, happly, tok, htok, rfl, hlogit⟩ := h
  by_contra hno
  have hno : grammar.allowEog = false :=
    List.any_eq_false.2 fun stack hstack => by
      simpa using fun hnil : stack = [] => hno (hnil ▸ hstack)
  rw [Grammar.applyImpl, hawait, if_neg (by simp)] at happly
  obtain ⟨rejects, -, happly⟩ := Except.bind_eq_ok.1 happly
  obtain rfl := Except.pure_eq_ok.1 happly
  exact hlogit (mask_rejects (P := fun id => vocab.isEog id = true) rejects
    (fun t ht h => applyLoop_masks hno _ 0 t ht h) tok htok heog)

theorem sampling_iff (src grammarRoot : Text) (rules : List GrammarRule) (start fuel : Nat)
    (triggerTokens : List Token) (triggerPatterns : List TriggerPattern) (vocab : Vocab)
    (init : Grammar) (trace : List (Grammar × Token)) (grammar : Grammar) (eog : Token)
    (haccept : acceptGrammar src grammarRoot = some (rules, start))
    (hinit : Grammar.initImpl rules fuel start false triggerTokens triggerPatterns = .ok init)
    (hsamples : Samples vocab init trace grammar) (heog : vocab.isEog eog = true)
    (hunmasked : Unmasked vocab grammar eog) (hnul : ∀ x ∈ trace, 0 ∉ vocab.tokenToPiece x.2) :
    WritesWord rules start (sampledText vocab trace) ↔
      (∀ x ∈ trace, x.1.partialUtf8.pending.Reads (vocab.tokenToPiece x.2)) ∧
        grammar.partialUtf8.nRemain = 0 := by
  rw [← hsamples.reads_iff hinit hnul]
  constructor
  · rintro ⟨s, htext, -⟩
    obtain ⟨q, hrun, hq⟩ := Pending.run_encode s 0
    rw [← htext] at hrun
    obtain ⟨hpend, -⟩ := hsamples.accepts hinit hnul hrun
    exact ⟨Option.isSome_iff_exists.2 ⟨_, hrun⟩, by rw [hpend]; exact congrArg Nat.cast hq⟩
  · rintro ⟨hreads, hend⟩
    obtain ⟨⟨w, q⟩, hrun⟩ := Option.isSome_iff_exists.1 hreads
    obtain ⟨hpend, m, hall⟩ := hsamples.accepts hinit hnul hrun
    rw [hpend] at hend
    obtain ⟨s, htext, rfl⟩ := (Pending.encode_iff 0).2 ⟨q, hrun, Int.ofNat_eq_zero.1 hend⟩
    refine ⟨s, htext, ?_⟩
    have hrules := (acceptGrammar_valid haccept).1
    have hempty : [] ∈ grammar.stackSet := by
      refine eog_unmasked (hsamples.constant ?_).1 heog hunmasked
      obtain ⟨_, -, hinit⟩ := Except.bind_eq_ok.1 hinit
      obtain rfl := Except.pure_eq_ok.1 hinit
      rfl
    have hstart : start < rules.length := by
      obtain ⟨_, hstacks, -⟩ := Except.bind_eq_ok.1 hinit
      by_contra hge
      rw [initStacks, List.getElem?_eq_none (Nat.le_of_not_lt hge)] at hstacks
      cases hstacks
    simpa using ((acceptAll_reached hrules hstart hall).sound [] hempty).derives .nil

/-- The rules of `root ::= "\xC1"`. -/
def letterGrammar : List GrammarRule := [[.char 0xC1, .endRule]]

/-- The token 0 has the given piece, and 1 is the end of generation. -/
def pieceVocab (piece : Text) : Vocab where
  tokenToPiece token := if token = 0 then piece else "</s>".toList.map ascii
  isEog token := token = 1

def letterInit : Grammar :=
  ⟨letterGrammar, [[[.char 0xC1, .endRule]]], {}, false, [], [], []⟩

def letterDone : Grammar :=
  ⟨letterGrammar, [[]], ⟨0xC1, 0⟩, false, [], [], []⟩

theorem accept_letterGrammar : acceptGrammar ("root ::= \"\\xC1\"".toList.map ascii)
    ("root".toList.map ascii) = some (letterGrammar, 0) := by
  decide +kernel

def candidate (id : Token) : TokenData := ⟨id, (0 : ℚ)⟩

theorem unmasked_candidate {vocab : Vocab} {grammar : Grammar} {token : Token} (fuel : Nat)
    (h : grammar.applyImpl vocab fuel [candidate token] = .ok [candidate token]) :
    Unmasked vocab grammar token :=
  ⟨fuel, _, _, h, _, List.mem_singleton_self _, rfl, WithBot.coe_ne_bot⟩

theorem samples_letter (piece : Text) (h : piece = [0xC3, 0x81] ∨ piece = [0xC3, 0x41]) :
    Samples (pieceVocab piece) letterInit [(letterInit, 0)] letterDone ∧
      Unmasked (pieceVocab piece) letterDone 1 := by
  obtain rfl | rfl := h
  · exact ⟨.token 3 .start (unmasked_candidate 3 (by decide)) rfl rfl,
      unmasked_candidate 3 (by decide)⟩
  · exact ⟨.token 3 .start (unmasked_candidate 3 (by decide)) rfl rfl,
      unmasked_candidate 3 (by decide)⟩

/-- `"Á"` in one token. -/
theorem sampling_iff_letter : WritesWord letterGrammar 0 [0xC3, 0x81] := by
  obtain ⟨hsamples, heog⟩ := samples_letter [0xC3, 0x81] (.inl rfl)
  exact (sampling_iff _ _ _ _ 3 [] [] _ _ _ _ _ accept_letterGrammar rfl hsamples rfl heog
    (by decide)).2 ⟨by decide, rfl⟩

/-- The second byte of the token is `A`, not the rest of a character. -/
theorem not_samplingLaw : ¬ SamplingLaw := by
  intro h
  obtain ⟨hsamples, heog⟩ := samples_letter [0xC3, 0x41] (.inr rfl)
  obtain ⟨s, htext, -⟩ := h _ _ _ _ 3 [] [] _ _ _ _ _ accept_letterGrammar rfl hsamples rfl heog
  obtain ⟨q, hrun, -⟩ := Pending.run_encode s 0
  rw [← htext] at hrun
  cases (show Pending.run ⟨0, 0⟩ [0xC3, 0x41] = none by decide).symm.trans hrun

end Run

end LamaServer
