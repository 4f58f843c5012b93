import LamaServer.Proofs.Tokenizer
import LamaServer.Proofs.Vocab

/-!
# SPM tokens stand for their text

A text is tokenized with U+2581 for its spaces, and each token that has a text is written with
spaces again; what has no token is written byte by byte. The space that was put in front is taken
off when the text is put together, but not behind a BOS token that is taken off as well.
-/

namespace LamaServer

open Relation Segments TokenizerSession

/-! ## Replacing a character -/

/-- A character, with another one in its place if it is `c₀`. -/
def replaceChar (c₀ c₁ c : Char) : Char := if c = c₀ then c₁ else c

section Replace

variable {c₀ c₁ c : Char} {search replace bytes rest : Text} {b : UInt8}

/-- A character starts with a byte that none of its other bytes is. -/
theorem encodeChar_cases (c : Char) : ∃ b bytes, String.utf8EncodeChar c = b :: bytes ∧
    ¬ isContinuation b ∧ ∀ c ∈ bytes, isContinuation c := by
  have hdec := (decodes_of_toUtf8 (toUtf8_val c)).1
  rcases h : String.utf8EncodeChar c with _ | ⟨b, _ | ⟨b1, _ | ⟨b2, _ | ⟨b3, _ | ⟨b4, bytes⟩⟩⟩⟩⟩ <;>
    rw [h] at hdec
  · cases hdec
  · refine ⟨b, [], rfl, ?_, List.forall_mem_nil _⟩
    rw [Decodes] at hdec
    rw [isContinuation_iff]
    omega
  · obtain ⟨hlo, hhi, h1, -⟩ := hdec
    refine ⟨b, [b1], rfl, ?_, by simp [h1]⟩
    rw [isContinuation_iff]
    omega
  · obtain ⟨hlo, hhi, h1, h2, -⟩ := hdec
    refine ⟨b, [b1, b2], rfl, ?_, by simp [h1, h2]⟩
    rw [isContinuation_iff]
    omega
  · obtain ⟨hlo, hhi, h1, h2, h3, -⟩ := hdec
    refine ⟨b, [b1, b2, b3], rfl, ?_, by simp [h1, h2, h3]⟩
    rw [isContinuation_iff]
    omega
  · cases hdec

/-- No character is the start of another one. -/
theorem encodeChar_start (h : String.utf8EncodeChar c₀ <+: String.utf8EncodeChar c ++ rest) :
    c = c₀ := by
  obtain ⟨rest', hrest'⟩ := h
  have hc := fromUtf8_of_decodes rest (decodes_of_toUtf8 (toUtf8_val c)).1
  have hc₀ := fromUtf8_of_decodes rest' (decodes_of_toUtf8 (toUtf8_val c₀)).1
  rw [hrest', hc] at hc₀
  exact Char.ext (congrArg Prod.fst (Option.some.inj hc₀))

theorem replaceAll_skip (hb : ¬ isContinuation b) : ∀ {bytes : Text},
    (∀ c ∈ bytes, isContinuation c) →
    replaceAll (b :: search) replace (bytes ++ rest) =
      bytes ++ replaceAll (b :: search) replace rest
  | [], _ => rfl
  | c :: bytes, h => by
    obtain ⟨hc, h⟩ := List.forall_mem_cons.1 h
    have hbc : ¬ (b :: search).isPrefixOf (c :: (bytes ++ rest)) := fun hstart => by
      obtain ⟨rfl, -⟩ := List.cons_prefix_cons.1 (List.isPrefixOf_iff_prefix.1 hstart)
      exact hb hc
    rw [List.cons_append, replaceAll, if_neg hbc, replaceAll_skip hb h]
    rfl

/-- A character is replaced wherever it stands. -/
theorem replaceAll_encode (s : List Char) :
    replaceAll (String.utf8EncodeChar c₀) (String.utf8EncodeChar c₁) (Utf8.encode s) =
      Utf8.encode (s.map (replaceChar c₀ c₁)) := by
  induction s with
  | nil => rw [Utf8.encode_nil, replaceAll]; rfl
  | cons c s ih =>
    obtain ⟨b, search, hc₀, hb, hsearch⟩ := encodeChar_cases c₀
    rw [List.map_cons, Utf8.encode_cons, Utf8.encode_cons, ← ih]
    by_cases hc : c = c₀
    · subst hc
      rw [replaceChar, if_pos rfl, hc₀, List.cons_append, replaceAll, if_pos]
      · simp
      · exact List.isPrefixOf_iff_prefix.2 (List.prefix_append (b :: search) _)
    · obtain ⟨b', bytes, hbytes, -, hcont⟩ := encodeChar_cases c
      have hstart : ¬ (b :: search).isPrefixOf (b' :: (bytes ++ Utf8.encode s)) := fun h => by
        rw [← hc₀, ← List.cons_append, ← hbytes] at h
        exact hc (encodeChar_start (List.isPrefixOf_iff_prefix.1 h))
      rw [replaceChar, if_neg hc, hbytes, hc₀, List.cons_append, replaceAll, if_neg hstart,
        replaceAll_skip hb hcont]
      rfl

theorem encodeChar_space : [ascii ' '] = String.utf8EncodeChar ' ' := by decide

theorem encodeChar_spaceMark : spaceMark = String.utf8EncodeChar '▁' := by decide

theorem escapeWhitespace_encode (s : List Char) :
    llamaEscapeWhitespace (Utf8.encode s) = Utf8.encode (s.map (replaceChar ' ' '▁')) := by
  rw [llamaEscapeWhitespace, encodeChar_space, encodeChar_spaceMark, replaceAll_encode]

theorem unescapeWhitespace_encode (s : List Char) :
    llamaUnescapeWhitespace (Utf8.encode s) = Utf8.encode (s.map (replaceChar '▁' ' ')) := by
  rw [llamaUnescapeWhitespace, encodeChar_space, encodeChar_spaceMark, replaceAll_encode]

end Replace

namespace VocabImpl

/-- The pieces of the tokens make up a text. -/
def Stands (v : VocabImpl) (tokens : List Token) (text : Text) : Prop :=
  ∃ pieces, (∀ special, List.Forall₂ (v.Yields special) tokens pieces) ∧ [] ∉ pieces ∧
    pieces.flatten = text

/-- An SPM vocabulary that has a token for each byte. -/
structure SpmComplete (v : VocabImpl) : Prop where
  type : v.type = .spm
  byte : ∀ b, ∃ token, v.byteToToken b = .ok token ∧ ∀ special, v.Yields special token [b]

section Words

variable {v : VocabImpl} {word text text' : Text} {tokens tokens' : List Token} {u seg : List Char}
  {st : TokenizerSession ℚ} {i stop : Nat}

theorem stands_nil : v.Stands [] [] :=
  ⟨[], fun _ => .nil, List.not_mem_nil, rfl⟩

theorem Stands.append (h : v.Stands tokens text) (h' : v.Stands tokens' text') :
    v.Stands (tokens ++ tokens') (text ++ text') := by
  obtain ⟨pieces, hyields, hne, rfl⟩ := h
  obtain ⟨pieces', hyields', hne', rfl⟩ := h'
  exact ⟨pieces ++ pieces', fun special => List.rel_append (hyields special) (hyields' special),
    by simp [hne, hne'], List.flatten_append⟩

theorem spmRule_sound : Sound v.spmRule (fun text => v.textToToken text ≠ tokenNull) word where
  key_ok l r _ := by
    simp only [spmRule]
    split_ifs with hnull
    · exact ⟨_, rfl⟩
    · exact ⟨_, rfl⟩
    · obtain ⟨data, -, -, hdata⟩ := textToToken_spec hnull
      rw [hdata]
      exact ⟨_, rfl⟩
  known l r k h := by
    simp only [spmRule] at h
    split_ifs at h with hnull hlength
    · cases h
    · cases h
    · exact hnull
  outdated l r bigram h := by
    simpa [spmRule] using h

/-- The bytes of a text, token by token. -/
theorem byteTokens_spec (hv : v.SpmComplete) (text : Text) :
    ∃ tokens, text.mapM v.byteToToken = .ok tokens ∧ v.Stands tokens text := by
  choose token htoken hyields using hv.byte
  refine ⟨text.map token, Except.mapM_of_ok fun b _ => htoken b, text.map fun b => [b],
    fun special => ?_, by simp, ?_⟩
  · exact List.forall₂_map_left_iff.2 (List.forall₂_map_right_iff.2
      (List.forall₂_same.2 fun b _ => hyields b special))
  · rw [← List.flatMap_def]
    exact List.flatMap_singleton' text

/-- The token of a text stands for it with spaces. -/
theorem stands_token (hv : v.SpmComplete) (hne : v.textToToken (Utf8.encode seg) ≠ tokenNull)
    (hplain : ∀ data ∈ v.idToToken, data.text = Utf8.encode seg → data.attr.Plain) :
    v.Stands [v.textToToken (Utf8.encode seg)]
      (Utf8.encode (seg.map (replaceChar '▁' ' '))) := by
  obtain ⟨data, hdata, htext, heq⟩ := textToToken_spec hne
  obtain ⟨hnormal, hunknown, hcontrol, huser⟩ := hplain data hdata htext
  refine ⟨[Utf8.encode (seg.map (replaceChar '▁' ' '))], fun special => ?_, ?_, by simp⟩
  · refine .cons (yields_of_pieceText heq ⟨hunknown, hcontrol⟩ ?_) .nil
    simp only [pieceText, hv.type, hnormal, hunknown, hcontrol, huser, htext,
      unescapeWhitespace_encode]
    rfl
  · have hseg : seg ≠ [] := by
      rintro rfl
      exact v.text_ne_nil data hdata htext
    obtain ⟨c, seg, rfl⟩ := List.exists_cons_of_ne_nil hseg
    obtain ⟨b, bytes, hbytes, -⟩ := encodeChar_cases (replaceChar '▁' ' ' c)
    simp [hbytes]

/-- The tokens of a text that is not joined further: its own, or those of its bytes. -/
def spmSegment (v : VocabImpl) (text : Text) : Except TokenizeError (List Token) :=
  if v.textToToken text ≠ tokenNull then .ok [v.textToToken text] else text.mapM v.byteToToken

/-- What has been joined has a token, so no symbol is taken apart again. -/
theorem resegment_eq {fuel : Nat}
    (hknown : ∀ bigram ∈ st.revMerge, v.textToToken bigram.text ≠ tokenNull) :
    v.resegment word st (fuel + 1) i = v.spmSegment (textAt word st.symbols i) := by
  rw [resegment, spmSegment]
  split_ifs with hnull
  · rfl
  · have hnone : st.revMerge.find? (·.text = textAt word st.symbols i) = none := by
      rw [List.find?_eq_none]
      intro bigram hbigram heq
      rw [decide_eq_true_eq] at heq
      exact hknown bigram hbigram (heq ▸ not_not.1 hnull)
    rw [hnone]

/-- The chain is walked from its first symbol on. -/
theorem resegmentChain_eq
    (hknown : ∀ bigram ∈ st.revMerge, v.textToToken bigram.text ≠ tokenNull) :
    ∀ {chain : List Nat} {prev : Int} {start fuel : Nat},
      LinkedFrom st.symbols stop prev start chain → chain.length < fuel →
      v.resegmentChain word st fuel (firstOf chain) =
        List.flatten <$> (chain.map (textAt word st.symbols)).mapM v.spmSegment
  | _, _, _, 0, _, hfuel => absurd hfuel (Nat.not_lt_zero _)
  | [], _, _, fuel + 1, _, _ => if_pos rfl
  | i :: chain, _, _, fuel + 1, ⟨n, _, hi, hchain⟩, hfuel => by
    have hne : (i : Int) ≠ -1 := by omega
    rw [firstOf, resegmentChain, if_neg hne, Int.toNat_natCast, hi]
    dsimp only
    rw [resegment_eq hknown, resegmentChain_eq hknown hchain (Nat.lt_of_succ_lt_succ hfuel),
      List.map_cons, List.mapM_cons]
    rcases v.spmSegment (textAt word st.symbols i) with e | tokens
    · rfl
    · rcases (chain.map (textAt word st.symbols)).mapM v.spmSegment with e | rest <;> rfl

theorem Chained.length_le {symbols : List LlmSymbol} {chain : List Nat}
    (h : Chained word symbols chain) : chain.length ≤ symbols.length := by
  have hsub : chain ⊆ List.range symbols.length := fun i hi => by
    obtain ⟨pre, post, rfl⟩ := List.append_of_mem hi
    obtain ⟨s, hs, -⟩ := h.linked.at
    exact List.mem_range.2 (List.getElem?_eq_some_iff.1 hs).1
  simpa using (List.subperm_of_subset h.nodup hsub).length_le

/-- The tokens of a text are those of the symbols that are left of it. -/
theorem spmTokenize_of_chain {chain : List Nat} (hword : word ≠ [])
    (hst : tokenizeSymbols v.spmRule word (splitSymbols 0 0 word) = .ok st)
    (h : Invariant (fun text => v.textToToken text ≠ tokenNull) word chain st)
    (hfirst : firstOf chain = firstOf (List.range (splitSymbols 0 0 word).length)) :
    v.spmTokenize word =
      List.flatten <$> (chain.map (textAt word st.symbols)).mapM v.spmSegment := by
  have hzero : firstOf chain = 0 := by
    have hlen : (splitSymbols 0 0 word).length ≠ 0 := by
      rwa [Ne, List.length_eq_zero_iff, splitSymbols_eq_nil]
    obtain ⟨n, hn⟩ := Nat.exists_eq_succ_of_ne_zero hlen
    rw [hfirst, hn, List.range_succ_eq_map]
    rfl
  rw [spmTokenize, hst, Except.ok_bind_eq, ← hzero]
  exact resegmentChain_eq h.known h.chained.linked (Nat.lt_succ_of_le (Chained.length_le h.chained))

/-- A segment has a token, or is a character that is written byte by byte. -/
theorem spmSegment_stands (hv : v.SpmComplete)
    (hplain : ∀ data ∈ v.idToToken, data.text = Utf8.encode seg → data.attr.Plain)
    (hseg : v.textToToken (Utf8.encode seg) = tokenNull → seg.map (replaceChar '▁' ' ') = seg) :
    ∃ tokens, v.spmSegment (Utf8.encode seg) = .ok tokens ∧
      v.Stands tokens (Utf8.encode (seg.map (replaceChar '▁' ' '))) := by
  rw [spmSegment]
  split_ifs with hnull
  · exact ⟨_, rfl, stands_token hv hnull hplain⟩
  · rw [hseg (not_not.1 hnull)]
    exact byteTokens_spec hv _

theorem spmSegments_stand : ∀ {segs : List (List Char)},
    (∀ seg ∈ segs, ∃ tokens, v.spmSegment (Utf8.encode seg) = .ok tokens ∧
      v.Stands tokens (Utf8.encode (seg.map (replaceChar '▁' ' ')))) →
    ∃ tokens, List.flatten <$> (segs.map Utf8.encode).mapM v.spmSegment = .ok tokens ∧
      v.Stands tokens (Utf8.encode (segs.flatten.map (replaceChar '▁' ' ')))
  | [], _ => ⟨[], rfl, stands_nil⟩
  | seg :: segs, h => by
    obtain ⟨⟨tokens, htokens, hstands⟩, h⟩ := List.forall_mem_cons.1 h
    obtain ⟨tokens', htokens', hstands'⟩ := spmSegments_stand h
    refine ⟨tokens ++ tokens', ?_, ?_⟩
    · rw [List.map_cons, List.mapM_cons, htokens, Except.ok_bind_eq]
      rcases hrest : (segs.map Utf8.encode).mapM v.spmSegment with e | rest
      · rw [hrest] at htokens'
        cases htokens'
      · rw [hrest] at htokens'
        cases htokens'
        rfl
    · rw [List.flatten_cons, List.map_append, Utf8.encode, List.flatMap_append]
      exact hstands.append hstands'

/-- The tokens that the characters of `u` may be joined to are normal ones, and if there is U+2581
it has a token. -/
structure SpmPlain (v : VocabImpl) (u : List Char) : Prop where
  plain : ∀ data ∈ v.idToToken, ∀ seg, seg <:+: u → data.text = Utf8.encode seg → data.attr.Plain
  mark : '▁' ∈ u → v.textToToken spaceMark ≠ tokenNull

/-- What has been escaped is tokenized to what stands for it with spaces. -/
theorem spmTokenize_spec (hv : v.SpmComplete) (hu : u ≠ []) (hplain : v.SpmPlain u) :
    ∃ tokens, v.spmTokenize (Utf8.encode u) = .ok tokens ∧
      v.Stands tokens (Utf8.encode (u.map (replaceChar '▁' ' '))) := by
  have hmap : (splitSymbols 0 0 (Utf8.encode u)).map (symbolText (Utf8.encode u)) =
      (u.map fun c => [c]).map (·.flatMap String.utf8EncodeChar) := by
    have hpieces : (u.map fun c => [c]).map (·.flatMap String.utf8EncodeChar) =
        u.map String.utf8EncodeChar := by
      simp
    rw [hpieces]
    refine map_splitSymbols (u.map String.utf8EncodeChar) (fun piece hpiece => ?_) ?_
    · obtain ⟨c, -, rfl⟩ := List.mem_map.1 hpiece
      rw [← utf8Of_val]
      exact isUnit_utf8Of (encodable_val c)
    · rw [List.drop_zero, Utf8.encode, List.flatMap_def]
  obtain ⟨st, chain, hst, hinv, hfirst, hjoins⟩ :=
    tokenizeSymbols_spec (v.spmRule_sound) (chained_splitSymbols (Utf8.encode u))
  rw [hmap] at hjoins
  obtain ⟨segs, hflatten, hsegs⟩ := exists_of_joins hjoins
  have hu' : (u.map fun c => [c]).flatten = u := by
    rw [← List.flatMap_def]
    exact List.flatMap_singleton' u
  rw [hu'] at hflatten
  -- a segment without a token is still a character
  have hsingle : ∀ seg ∈ segs, v.textToToken (Utf8.encode seg) = tokenNull →
      seg.map (replaceChar '▁' ' ') = seg := by
    intro seg hseg hnull
    have hmem : Utf8.encode seg ∈ chain.map (textAt (Utf8.encode u) st.symbols) := by
      rw [hsegs]
      exact List.mem_map_of_mem hseg
    obtain hold | hknown := mem_or_known_of_joins hjoins _ hmem
    · obtain ⟨seg', hseg', heq⟩ := List.mem_map.1 hold
      obtain rfl : seg' = seg := encode_inj heq
      obtain ⟨c, hc, rfl⟩ := List.mem_map.1 hseg'
      have hne : c ≠ '▁' := by
        rintro rfl
        refine hplain.mark hc ?_
        rwa [Utf8.encode_cons, Utf8.encode_nil, List.append_nil, ← encodeChar_spaceMark] at hnull
      simp [replaceChar, hne]
    · exact absurd hnull hknown
  have hne : Utf8.encode u ≠ [] := by
    obtain ⟨c, u, rfl⟩ := List.exists_cons_of_ne_nil hu
    obtain ⟨b, bytes, hbytes, -⟩ := encodeChar_cases c
    simp [hbytes]
  have hchain : chain.map (textAt (Utf8.encode u) st.symbols) = segs.map Utf8.encode := hsegs
  rw [spmTokenize_of_chain hne hst hinv hfirst, hchain, ← hflatten]
  exact spmSegments_stand fun seg hseg => spmSegment_stands hv
    (fun data hdata => hplain.plain data hdata seg (hflatten ▸ List.infix_of_mem_flatten hseg))
    (hsingle seg hseg)

end Words

/-! ## There and back -/

section RoundTrip

variable {v : VocabImpl} {env : UnicodeEnv} {text : Text} {tokens : List Token} {s : List Char}
  {addSpecial : Bool}

/-- The text that is tokenized, before it is escaped. -/
def prefixed (v : VocabImpl) (s : List Char) : List Char :=
  if v.addSpacePrefix then ' ' :: s else s

/-- BOS and EOS are tokens where they are added. -/
structure BosEos (v : VocabImpl) : Prop where
  bos : v.addBos → v.specialBosId ≠ tokenNull
  eos : v.addEos → v.specialEosId ≠ tokenNull

/-- What comes back: the space in front stays where a BOS token has been taken off. -/
def roundTrip (v : VocabImpl) (s : List Char) (addSpecial : Bool) : List Char :=
  if addSpecial ∧ v.addBos ∧ v.addSpacePrefix ∧ s ≠ [] then ' ' :: s else s

theorem map_replaceChar (h : '▁' ∉ s) :
    (s.map (replaceChar ' ' '▁')).map (replaceChar '▁' ' ') = s := by
  rw [List.map_map]
  refine (List.map_congr_left fun c hc => ?_).trans (List.map_id s)
  have hne : c ≠ '▁' := fun h' => h (h' ▸ hc)
  by_cases hspace : c = ' '
  · simp [replaceChar, hspace]
  · simp [replaceChar, hspace, hne]

/-- The tokens between BOS and EOS stand for the text with the space in front. -/
theorem spmFragments_spec (hv : v.SpmComplete) (hmark : '▁' ∉ s)
    (hfree : v.FreeOfSpecial (Utf8.encode s))
    (hplain : v.SpmPlain ((v.prefixed s).map (replaceChar ' ' '▁'))) :
    ∃ tokens, v.spmFragments true (if Utf8.encode s = [] then []
        else v.tokenizerStPartition false [.rawText (Utf8.encode s)]) = .ok tokens ∧
      v.Stands tokens (if s = [] then [] else Utf8.encode (v.prefixed s)) := by
  rcases s with _ | ⟨c, s⟩
  · exact ⟨[], rfl, stands_nil⟩
  have hne : Utf8.encode (c :: s) ≠ [] := by
    obtain ⟨b, bytes, hbytes, -⟩ := encodeChar_cases c
    simp [hbytes]
  have hstarted : (if v.addSpacePrefix = true ∧ true = true then
      ascii ' ' :: Utf8.encode (c :: s) else Utf8.encode (c :: s)) =
        Utf8.encode (v.prefixed (c :: s)) := by
    rw [prefixed]
    split_ifs with h h' h'
    · rw [Utf8.encode_cons ' ', ← encodeChar_space]
      rfl
    · exact absurd h.1 h'
    · exact absurd ⟨h', rfl⟩ h
    · rfl
  have hmark' : '▁' ∉ v.prefixed (c :: s) := by
    rw [prefixed]
    split_ifs
    · exact fun h => (List.mem_cons.1 h).elim (by decide) hmark
    · exact hmark
  have hnil : (v.prefixed (c :: s)).map (replaceChar ' ' '▁') ≠ [] := by
    rw [prefixed]
    split_ifs <;> simp
  obtain ⟨tokens, htokens, hstands⟩ := spmTokenize_spec hv hnil hplain
  rw [map_replaceChar hmark'] at hstands
  refine ⟨tokens, ?_, ?_⟩
  · rw [if_neg hne, tokenizerStPartition_of_free hfree, spmFragments, hstarted,
      escapeWhitespace_encode, htokens, Except.ok_bind_eq, spmFragments]
    simp [pure, Except.pure, bind, Except.bind]
  · rw [if_neg (List.cons_ne_nil c s)]
    exact hstands

/-- Without special tokens there is one word. -/
theorem tokenize_eq_spmTokenize (hv : v.type = .spm) {text : Text} (hfree : v.FreeOfSpecial text)
    (hne : text ≠ []) : v.tokenize env text false false = v.spmTokenize
      (llamaEscapeWhitespace (if v.addSpacePrefix then ascii ' ' :: text else text)) := by
  have hfragments : v.spmFragments true
      (if text = [] then [] else v.tokenizerStPartition false [.rawText text]) = v.spmTokenize
        (llamaEscapeWhitespace (if v.addSpacePrefix then ascii ' ' :: text else text)) := by
    rw [if_neg hne, tokenizerStPartition_of_free hfree, spmFragments]
    simp only [and_true, spmFragments]
    cases v.spmTokenize _ with
    | ok tokens => exact congrArg Except.ok (List.append_nil tokens)
    | error e => rfl
  rw [tokenize]
  simp only [hv, hfragments, Bool.false_eq_true, false_and, if_false]
  cases v.spmTokenize _ with
  | ok tokens => exact congrArg Except.ok (by simp)
  | error e => rfl

/-- BOS and EOS are added and taken off again. -/
theorem detokenize_special (hclean : v.cleanSpaces = false) {length : Int} {unparseSpecial : Bool} :
    v.detokenize ((if addSpecial ∧ v.addBos then [v.specialBosId] else []) ++ tokens ++
        if addSpecial ∧ v.addEos then [v.specialEosId] else []) length addSpecial unparseSpecial =
      do
        let (total, text) ← v.detokenizeLoop unparseSpecial tokens length
          (v.addSpacePrefix && !(addSpecial && v.addBos))
        if total > length then return (-total, [])
        return (text.length, text) := by
  rw [detokenize]
  have hbos : ∀ rest : List Token, (addSpecial && v.addBos &&
      ((if addSpecial ∧ v.addBos then [v.specialBosId] else []) ++ rest).head? =
        some v.specialBosId) = (addSpecial && v.addBos) := by
    intro rest
    rcases addSpecial with _ | _ <;> rcases v.addBos with _ | _ <;> simp
  have htail : ∀ rest : List Token, (if addSpecial && v.addBos then
      ((if addSpecial ∧ v.addBos then [v.specialBosId] else []) ++ rest).tail
        else (if addSpecial ∧ v.addBos then [v.specialBosId] else []) ++ rest) = rest := by
    intro rest
    rcases addSpecial with _ | _ <;> rcases v.addBos with _ | _ <;> simp
  have heos : (addSpecial && v.addEos && (tokens ++ if addSpecial ∧ v.addEos then
      [v.specialEosId] else []).getLast? = some v.specialEosId) = (addSpecial && v.addEos) := by
    rcases addSpecial with _ | _ <;> rcases v.addEos with _ | _ <;> simp
  have hdrop : (if addSpecial && v.addEos then (tokens ++ if addSpecial ∧ v.addEos then
      [v.specialEosId] else []).dropLast else tokens ++ if addSpecial ∧ v.addEos then
        [v.specialEosId] else []) = tokens := by
    rcases addSpecial with _ | _ <;> rcases v.addEos with _ | _ <;> simp
  simp only [List.append_assoc, hbos, htail, heos, hdrop, hclean, Bool.false_eq_true, if_false]

theorem flatten_stripFirst {pieces : List Text} (hne : [] ∉ pieces)
    (h : pieces.flatten = ascii ' ' :: text) : (stripFirst true pieces).flatten = text := by
  rcases pieces with _ | ⟨_ | ⟨b, piece⟩, pieces⟩
  · cases h
  · exact absurd List.mem_cons_self hne
  · rw [List.flatten_cons, List.cons_append] at h
    obtain ⟨rfl, rfl⟩ := List.cons_eq_cons.1 h
    rfl

/-- What the loop of `detokenize` makes of the tokens between BOS and EOS. -/
theorem flatten_pieces {pieces : List Text} (hne : [] ∉ pieces)
    (h : pieces.flatten = if s = [] then [] else Utf8.encode (v.prefixed s)) :
    (stripFirst (v.addSpacePrefix && !(addSpecial && v.addBos)) pieces).flatten =
      Utf8.encode (v.roundTrip s addSpecial) := by
  have hfalse := stripFirst_false pieces
  have hspace : Utf8.encode (' ' :: s) = ascii ' ' :: Utf8.encode s := by
    rw [Utf8.encode_cons, ← encodeChar_space]
    rfl
  by_cases hs : s = []
  · subst hs
    rw [if_pos rfl, List.flatten_eq_nil_iff] at h
    obtain rfl : pieces = [] := List.eq_nil_iff_forall_not_mem.2 fun piece hpiece =>
      hne (h piece hpiece ▸ hpiece)
    rcases v.addSpacePrefix && !(addSpecial && v.addBos) with _ | _ <;> simp [roundTrip, stripFirst]
  · rw [if_neg hs, prefixed] at h
    rw [roundTrip]
    rcases hstart : v.addSpacePrefix with _ | _
    · simpa [hstart, hfalse] using h
    · rw [hstart, if_pos rfl, hspace] at h
      rcases hbos : addSpecial && v.addBos with _ | _
      · have hno : ¬ (addSpecial ∧ v.addBos ∧ true = true ∧ s ≠ []) := by
          rintro ⟨h1, h2, -⟩
          simp [h1, h2] at hbos
        rw [if_neg hno]
        exact flatten_stripFirst hne h
      · rw [Bool.and_eq_true] at hbos
        rw [if_pos ⟨hbos.1, hbos.2, rfl, hs⟩, hspace]
        exact (congrArg List.flatten hfalse).trans h

/-- What `detokenize` makes of the tokens of a text, in a buffer that has room for it. -/
def ComesBack (v : VocabImpl) (env : UnicodeEnv) (s : List Char) (addSpecial : Bool)
    (text : Text) : Prop :=
  ∃ tokens, v.tokenize env (Utf8.encode s) addSpecial false = .ok tokens ∧
    ∀ (length : Int) unparseSpecial, text.length ≤ length →
      v.detokenize tokens length addSpecial unparseSpecial = .ok ((text.length : Int), text)

theorem spm_round_trip (hv : v.SpmComplete) (hmark : '▁' ∉ s)
    (hfree : v.FreeOfSpecial (Utf8.encode s))
    (hplain : v.SpmPlain ((v.prefixed s).map (replaceChar ' ' '▁'))) (hspecial : v.BosEos)
    (hclean : v.cleanSpaces = false) :
    v.ComesBack env s addSpecial (Utf8.encode (v.roundTrip s addSpecial)) := by
  obtain ⟨tokens, htokens, pieces, hyields, hne, hflatten⟩ :=
    spmFragments_spec hv hmark hfree hplain
  refine ⟨(if addSpecial ∧ v.addBos then [v.specialBosId] else []) ++ tokens ++
    if addSpecial ∧ v.addEos then [v.specialEosId] else [], ?_,
    fun length unparseSpecial hlength => ?_⟩
  · have hbos : ¬ (addSpecial ∧ v.addBos ∧ v.specialBosId = tokenNull) :=
      fun h => hspecial.bos h.2.1 h.2.2
    have heos : ¬ (addSpecial ∧ v.addEos ∧ v.specialEosId = tokenNull) :=
      fun h => hspecial.eos h.2.1 h.2.2
    rw [tokenize]
    simp only [hv.type, htokens, if_neg hbos, if_neg heos]
    rfl
  · rw [detokenize_special hclean]
    obtain ⟨text, htext, hroom⟩ := detokenizeLoop_spec (hyields unparseSpecial)
      (show 0 ≤ length by omega) (v.addSpacePrefix && !(addSpecial && v.addBos))
    rw [flatten_pieces hne hflatten] at htext hroom
    rw [htext, hroom hlength, Except.ok_bind_eq]
    dsimp only
    rw [if_neg (by omega)]
    rfl

end RoundTrip

/-! ## Vocabularies of words and bytes -/

theorem tokenToByte_byteText (b : UInt8) (score : ℚ) (attr : TokenAttr) :
    tokenToByte ⟨byteText b, score, attr⟩ = .ok b := by
  have hlt := b.toNat_lt
  have hdigit : ∀ n < 16, ∀ d, d = ("0123456789ABCDEF".toList.map ascii).getD n 0 →
      hexValue d = some n ∧ isSpace d = false ∧ d ≠ 43 ∧ d ≠ 45 := by
    simp only [forall_eq]
    decide
  obtain ⟨hvalue, hspace, hplus, hminus⟩ := hdigit (b.toNat / 16) (by omega) _ rfl
  have hread : stoul16 (((byteText b).drop 3).take 2) = .ok (16 * (b.toNat / 16) + b.toNat % 16) :=
    stoul16_of_values hvalue (hdigit (b.toNat % 16) (by omega) _ rfl).1 hspace hplus hminus
  rw [tokenToByte, if_neg (by simp [byteText])]
  simp only [hread, Nat.div_add_mod, UInt8.ofNat_toNat]

theorem byteText_inj {b b' : UInt8} (h : byteText b = byteText b') : b = b' := by
  have heq := tokenToByte_byteText b 0 {}
  rw [h, tokenToByte_byteText] at heq
  exact (Except.ok.inj heq).symm

/-- The tokens of the bytes. -/
def byteTokens : List VocabToken :=
  (List.range 256).map fun n => { text := byteText (UInt8.ofNat n), attr := { byte := true } }

theorem mem_byteTokens (b : UInt8) :
    { text := byteText b, attr := { byte := true } } ∈ byteTokens := by
  refine List.mem_map.2 ⟨b.toNat, List.mem_range.2 b.toNat_lt, ?_⟩
  rw [UInt8.ofNat_toNat]

theorem length_of_mem_byteTokens {data : VocabToken} (h : data ∈ byteTokens) :
    data.text.length = 6 ∧ data.attr = { byte := true } := by
  obtain ⟨n, -, rfl⟩ := List.mem_map.1 h
  exact ⟨rfl, rfl⟩

/-- A vocabulary of some words and all bytes. -/
def ofWords (words : List VocabToken) (addSpacePrefix addBos : Bool)
    (hwords : ∀ data ∈ words, data.text ≠ [] ∧ data.text.length ≠ 6)
    (hnodup : (words.map (·.text)).Nodup) : VocabImpl where
  type := .spm
  idToToken := words ++ byteTokens
  specialBosId := 0
  addSpacePrefix := addSpacePrefix
  addBos := addBos
  text_ne_nil data hdata := by
    rcases List.mem_append.1 hdata with hdata | hdata
    · exact (hwords data hdata).1
    · exact List.ne_nil_of_length_eq_add_one (length_of_mem_byteTokens hdata).1
  text_nodup := by
    rw [List.map_append]
    refine hnodup.append ?_ fun text hword hbyte => ?_
    · rw [byteTokens, List.map_map]
      refine List.nodup_range.map_on fun n hn m hm h => ?_
      rw [List.mem_range] at hn hm
      have h := congrArg UInt8.toNat (byteText_inj h)
      rwa [UInt8.toNat_ofNat', UInt8.toNat_ofNat', Nat.mod_eq_of_lt hn, Nat.mod_eq_of_lt hm] at h
    · obtain ⟨data, hdata, rfl⟩ := List.mem_map.1 hword
      obtain ⟨data', hdata', heq⟩ := List.mem_map.1 hbyte
      exact (hwords data hdata).2 (heq ▸ (length_of_mem_byteTokens hdata').1)

section OfWords

variable {words : List VocabToken} {addSpacePrefix addBos : Bool} {text : Text}
  {hwords : ∀ data ∈ words, data.text ≠ [] ∧ data.text.length ≠ 6}
  {hnodup : (words.map (·.text)).Nodup}

theorem ofWords_complete : (ofWords words addSpacePrefix addBos hwords hnodup).SpmComplete where
  type := rfl
  byte b := by
    have hmem : { text := byteText b, attr := { byte := true } } ∈
        (ofWords words addSpacePrefix addBos hwords hnodup).idToToken :=
      List.mem_append_right _ (mem_byteTokens b)
    refine ⟨_, ?_, fun special => yields_of_pieceText (getTokenData_of_mem hmem) (by simp) ?_⟩
    · rw [byteToToken]
      exact if_pos (textToToken_ne_null.2 ⟨_, hmem, rfl⟩)
    · simp only [pieceText, ofWords, tokenToByte_byteText]
      rfl

theorem ofWords_free (h : ∀ data ∈ words, data.attr.Special → ¬ data.text <:+: text) :
    (ofWords words addSpacePrefix addBos hwords hnodup).FreeOfSpecial text := by
  intro data hdata hspecial
  rcases List.mem_append.1 hdata with hdata | hdata
  · exact h data hdata hspecial
  · rw [(length_of_mem_byteTokens hdata).2] at hspecial
    simp [TokenAttr.Special] at hspecial

theorem ofWords_bosEos : (ofWords words addSpacePrefix addBos hwords hnodup).BosEos where
  bos _ := by simp [ofWords, tokenNull]
  eos h := by cases h

theorem ofWords_plain {u : List Char} (hlt : ascii '<' ∉ Utf8.encode u)
    (hplain : ∀ data ∈ words, data.attr.Plain ∨ ¬ data.text <:+: Utf8.encode u)
    (hmark : '▁' ∈ u → ∃ data ∈ words, data.text = spaceMark) :
    (ofWords words addSpacePrefix addBos hwords hnodup).SpmPlain u where
  plain data hdata seg hseg htext := by
    have hpart : data.text <:+: Utf8.encode u := by
      obtain ⟨pre, post, rfl⟩ := hseg
      rw [htext]
      exact ⟨Utf8.encode pre, Utf8.encode post, by simp [Utf8.encode]⟩
    rcases List.mem_append.1 hdata with hdata | hdata
    · exact (hplain data hdata).resolve_right (not_not.2 hpart)
    · obtain ⟨n, -, rfl⟩ := List.mem_map.1 hdata
      exact absurd (hpart.subset List.mem_cons_self) hlt
  mark h := by
    obtain ⟨data, hdata, htext⟩ := hmark h
    exact textToToken_ne_null.2 ⟨data, List.mem_append_left _ hdata, htext⟩

/-- BOS, `a`, and with a space before it. -/
def toyWords : List VocabToken :=
  { text := Utf8.encode "<s>".toList, attr := { control := true } } ::
    ["a", "▁", "▁a"].map fun word => { text := Utf8.encode word.toList }

def toyVocab : VocabImpl := ofWords toyWords true true (by decide) (by decide)

theorem spm_round_trip_toy : toyVocab.ComesBack idleEnv "a a".toList true
    (Utf8.encode (toyVocab.roundTrip "a a".toList true)) :=
  spm_round_trip ofWords_complete (by decide) (ofWords_free (by decide +kernel))
    (ofWords_plain (by decide) (by decide +kernel) fun _ => by decide)
    ofWords_bosEos rfl

/-- Every text comes back where the vocabulary is as `P` says. -/
def SpmLaw (P : VocabImpl → List Char → Bool → Prop) : Prop :=
  ∀ (v : VocabImpl) (env : UnicodeEnv) (s : List Char) (addSpecial : Bool), v.SpmComplete →
    '▁' ∉ s → v.FreeOfSpecial (Utf8.encode s) → v.BosEos → v.cleanSpaces = false →
    P v s addSpecial → v.ComesBack env s addSpecial (Utf8.encode s)

/-- A vocabulary with `a` only, which may be unused. -/
def aVocab (attr : TokenAttr) (addSpacePrefix : Bool) : VocabImpl :=
  ofWords [{ text := Utf8.encode ['a'], attr := attr }] addSpacePrefix false
    (by simp [Utf8.encode, String.utf8EncodeChar]) (List.nodup_singleton _)

/-- The space in front stays behind BOS; without a token for it U+2581 comes back; and an unused
token is lost. -/
theorem not_spmLaw :
    ¬ SpmLaw (fun v s _ => v.SpmPlain ((v.prefixed s).map (replaceChar ' ' '▁'))) ∧
      ¬ SpmLaw (fun v s addSpecial => v.roundTrip s addSpecial = s ∧
        ∀ data ∈ v.idToToken, data.text <:+: llamaEscapeWhitespace (Utf8.encode (v.prefixed s)) →
          data.attr.Plain) ∧
      ¬ SpmLaw fun v s addSpecial => v.roundTrip s addSpecial = s ∧
        (' ' ∈ v.prefixed s → v.textToToken spaceMark ≠ tokenNull) := by
  refine ⟨fun h => ?_, fun h => ?_, fun h => ?_⟩
  · have hfree : toyVocab.FreeOfSpecial (Utf8.encode ['a']) := ofWords_free (by decide +kernel)
    have hplain : toyVocab.SpmPlain ((toyVocab.prefixed ['a']).map (replaceChar ' ' '▁')) :=
      ofWords_plain (by decide) (by decide +kernel) fun _ => by decide
    obtain ⟨tokens, htokens, hback⟩ := h toyVocab idleEnv ['a'] true ofWords_complete (by decide)
      hfree ofWords_bosEos rfl hplain
    obtain ⟨tokens', htokens', hback'⟩ : toyVocab.ComesBack idleEnv ['a'] true
        (Utf8.encode (toyVocab.roundTrip ['a'] true)) :=
      spm_round_trip ofWords_complete (by decide) hfree hplain ofWords_bosEos rfl
    cases htokens.symm.trans htokens'
    have heq := (hback 2 false (by decide)).symm.trans (hback' 2 false (by decide))
    revert heq
    decide
  · have hplain : ∀ data ∈ (aVocab { normal := true } true).idToToken,
        data.text <:+: llamaEscapeWhitespace (Utf8.encode [' ', 'a']) → data.attr.Plain := by
      intro data hdata hpart
      rcases List.mem_append.1 hdata with hdata | hdata
      · obtain rfl := List.mem_singleton.1 hdata
        decide
      · have hle := hpart.length_le
        rw [(length_of_mem_byteTokens hdata).1] at hle
        exact absurd hle (by decide +kernel)
    obtain ⟨tokens, htokens, hback⟩ := h (aVocab { normal := true } true) idleEnv ['a'] false
      ofWords_complete (by decide) (ofWords_free (by decide)) ofWords_bosEos rfl
      ⟨by decide, hplain⟩
    have heval : (aVocab { normal := true } true).tokenize idleEnv (Utf8.encode ['a']) false false =
        .ok [0xE3, 0x97, 0x82, 0] := by
      exact (tokenize_eq_spmTokenize rfl (ofWords_free (by decide)) (by decide)).trans
        (by decide +kernel)
    cases htokens.symm.trans heval
    have heq := hback 4 false (by decide)
    revert heq
    decide +kernel
  · obtain ⟨tokens, htokens, hback⟩ := h (aVocab { unused := true } false) idleEnv ['a'] false
      ofWords_complete (by decide) (ofWords_free (by decide)) ofWords_bosEos rfl
      ⟨by decide, by decide⟩
    have heval : (aVocab { unused := true } false).tokenize idleEnv (Utf8.encode ['a']) false
        false = .ok [0] := by
      exact (tokenize_eq_spmTokenize rfl (ofWords_free (by decide)) (by decide)).trans
        (by decide +kernel)
    cases htokens.symm.trans heval
    have heq := hback 1 false (by decide)
    revert heq
    decide +kernel

end OfWords

end VocabImpl

end LamaServer
