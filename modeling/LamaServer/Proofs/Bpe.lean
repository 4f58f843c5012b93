import LamaServer.Proofs.Tokenizer
import LamaServer.Proofs.Vocab

/-!
# BPE tokens stand for their text

Each byte of a text has a character, and the characters of a word are joined to texts that have a
token. So the tokens are a way to cut the bytes of the text into parts, and where the tokens of
these parts are normal ones they are decoded to the parts again.
-/

namespace LamaServer

open Relation Segments TokenizerSession

/-- The characters that stand for the bytes of a text. -/
def encodeBytes (bytes : Text) : Text := bytes.flatMap unicodeByteToUtf8

section Bytes

variable {bytes : Text} {b : UInt8}

theorem encodeBytes_inj {bytes bytes' : Text} (h : encodeBytes bytes = encodeBytes bytes') :
    bytes = bytes' := by
  have hdecode := llamaDecodeText_bytes bytes
  rw [show bytes.flatMap unicodeByteToUtf8 = encodeBytes bytes' from h, encodeBytes,
    llamaDecodeText_bytes] at hdecode
  exact (Except.ok.inj hdecode).symm

theorem lt_of_mem_byteToUtf8 {c : UInt8} (h : c ∈ unicodeByteToUtf8 b) : 0x20 < c.toNat := by
  obtain ⟨hlo, hhi⟩ := byteCpt_bounds (byteCpt_spec b)
  rw [byteToUtf8_eq] at h
  obtain ⟨-, d, heq, hd⟩ | ⟨-, -, d, d1, heq, hd, hd1⟩ | ⟨h1, -⟩ | ⟨h1, -⟩ :=
    toUtf8_cases (byteCpt_encodable b)
  · rw [utf8Of_eq heq, List.mem_singleton] at h
    rw [h]
    omega
  · rw [utf8Of_eq heq, List.mem_cons, List.mem_singleton] at h
    rcases h with rfl | rfl <;> omega
  · omega
  · omega

/-- `find_bpe_rank` may be called with any parts. -/
theorem notMem_encodeBytes {part : Text} (h : part <:+: encodeBytes bytes) {c : UInt8}
    (hc : c.toNat ≤ 0x20) : c ∉ part := by
  intro hmem
  obtain ⟨b, -, hb⟩ := List.mem_flatMap.1 (h.subset hmem)
  exact Nat.not_lt.2 hc (lt_of_mem_byteToUtf8 hb)

theorem splitSymbols_encodeBytes (bytes : Text) :
    (splitSymbols 0 0 (encodeBytes bytes)).map (symbolText (encodeBytes bytes)) =
      (bytes.map fun b => [b]).map (·.flatMap unicodeByteToUtf8) := by
  have hpieces : (bytes.map fun b => [b]).map (·.flatMap unicodeByteToUtf8) =
      bytes.map unicodeByteToUtf8 := by
    simp
  rw [hpieces]
  refine map_splitSymbols (bytes.map unicodeByteToUtf8) (fun piece hpiece => ?_) ?_
  · obtain ⟨b, -, rfl⟩ := List.mem_map.1 hpiece
    rw [byteToUtf8_eq]
    exact isUnit_utf8Of (byteCpt_encodable b)
  · rw [List.drop_zero, encodeBytes, List.flatMap_def]

end Bytes

/-! ## Words -/

namespace VocabImpl

/-- A BPE vocabulary that has the encoded form of each byte and the result of every merge. -/
structure BpeComplete (v : VocabImpl) : Prop where
  type : v.type = .bpe
  byte : ∀ b, v.textToToken (unicodeByteToUtf8 b) ≠ tokenNull
  merge : ∀ merge ∈ v.bpeMerges, v.textToToken (merge.1 ++ merge.2) ≠ tokenNull

section Words

variable {v : VocabImpl} {bytes text : Text} {env : UnicodeEnv}

theorem bpeRule_sound (hv : v.BpeComplete) :
    Sound v.bpeRule (fun text => v.textToToken text ≠ tokenNull) (encodeBytes bytes) where
  key_ok l r h := by
    have hno : ∀ part : Text, part <:+: l ++ r → ascii ' ' ∉ part ∧ ascii '\n' ∉ part :=
      fun part hpart => ⟨notMem_encodeBytes (hpart.trans h) (by decide),
        notMem_encodeBytes (hpart.trans h) (by decide)⟩
    have hl := hno l (List.prefix_append l r).isInfix
    have hr := hno r (List.suffix_append l r).isInfix
    exact ⟨_, if_neg (by simp [hl, hr])⟩
  known l r k h := by
    simp only [bpeRule, findBpeRank] at h
    split_ifs at h
    obtain ⟨hlt, hmerge, -⟩ := List.findIdx?_eq_some_iff_getElem.1 (Except.ok.inj h)
    have := hv.merge _ (List.getElem_mem hlt)
    rwa [of_decide_eq_true hmerge] at this
  outdated l r bigram h := by
    simp only [bpeRule, decide_eq_true_eq, ne_eq, not_not] at h
    rw [h]

/-- A word is cut into parts that have a token each. -/
theorem bpeSymbols_spec (hv : v.BpeComplete) (bytes : Text) :
    ∃ segs : List Text, segs.flatten = bytes ∧
      v.bpeSymbols (encodeBytes bytes) = .ok (segs.map encodeBytes) ∧
      ∀ seg ∈ segs, v.textToToken (encodeBytes seg) ≠ tokenNull := by
  obtain ⟨symbols, segs, hsymbols, hchained, hmap, hflatten, htoken⟩ :
      ∃ (symbols : List LlmSymbol) (segs : List Text),
        (if v.ignoreMerges && v.textToToken (encodeBytes bytes) ≠ tokenNull then
            [⟨-1, -1, 0, (encodeBytes bytes).length⟩]
          else splitSymbols 0 0 (encodeBytes bytes)) = symbols ∧
        Chained (encodeBytes bytes) symbols (List.range symbols.length) ∧
        symbols.map (symbolText (encodeBytes bytes)) = segs.map (·.flatMap unicodeByteToUtf8) ∧
        segs.flatten = bytes ∧ ∀ seg ∈ segs, v.textToToken (encodeBytes seg) ≠ tokenNull := by
    split_ifs with hword
    · simp only [Bool.and_eq_true, decide_eq_true_eq] at hword
      obtain ⟨data, hdata, htext⟩ := textToToken_ne_null.1 hword.2
      have hpos : 0 < (encodeBytes bytes).length := by
        rw [← htext]
        exact List.length_pos_iff.2 (v.text_ne_nil data hdata)
      refine ⟨_, [bytes], rfl, ⟨⟨_, hpos, rfl, ?_⟩, List.pairwise_lt_range, fun i hi s hs => ?_⟩,
        ?_, by simp, by simpa using hword.2⟩
      · simp [LinkedFrom]
      · rw [List.mem_range] at hi
        exact absurd (List.getElem?_eq_some_iff.1 hs).1 hi
      · simp [symbolText, encodeBytes]
    · refine ⟨_, bytes.map fun b => [b], rfl, chained_splitSymbols _,
        splitSymbols_encodeBytes bytes, ?_, fun seg hseg => ?_⟩
      · rw [← List.flatMap_def]
        exact List.flatMap_singleton' bytes
      · obtain ⟨b, -, rfl⟩ := List.mem_map.1 hseg
        simpa [encodeBytes] using hv.byte b
  obtain ⟨st, chain, hst, hinv, -, hjoins⟩ := tokenizeSymbols_spec (bpeRule_sound hv) hchained
  rw [hmap] at hjoins
  obtain ⟨segs', hflatten', hsegs'⟩ := exists_of_joins hjoins
  refine ⟨segs', hflatten'.trans hflatten, ?_, fun seg hseg => ?_⟩
  · rw [bpeSymbols, hsymbols, hst, Except.ok_bind_eq, hinv.chained.map_filter, hsegs']
    rfl
  · have hmem : encodeBytes seg ∈ chain.map (textAt (encodeBytes bytes) st.symbols) := by
      rw [hsegs']
      exact List.mem_map_of_mem hseg
    rcases mem_or_known_of_joins hjoins _ hmem with hold | hknown
    · obtain ⟨seg', hseg', heq⟩ := List.mem_map.1 hold
      rw [← encodeBytes_inj heq]
      exact htoken seg' hseg'
    · exact hknown

/-- The tokens of a text are those of parts of the text. -/
theorem bpeTokenize_spec (hv : v.BpeComplete)
    (hsup : ∀ expr ∈ v.regexExprs, Supports env text expr)
    (htext : ∃ s : List Char, text = Utf8.encode s) :
    ∃ segs : List Text, segs.flatten = text ∧
      v.bpeTokenize env text = .ok (segs.map fun seg => v.textToToken (encodeBytes seg)) ∧
      ∀ seg ∈ segs, v.textToToken (encodeBytes seg) ≠ tokenNull := by
  obtain ⟨s, rfl⟩ := htext
  obtain ⟨words, hwords, hsplit⟩ := regexSplit_of_encodable hsup (by
    rw [cptsFromUtf8_encode]
    exact List.forall_mem_map.2 fun c _ => encodable_val c)
  choose parts hflatten hparts htoken using bpeSymbols_spec hv
  have hmapM : (words.map fun seg => (seg.flatMap utf8Of).flatMap unicodeByteToUtf8).mapM
      v.bpeSymbols = .ok (words.map fun seg => (parts (seg.flatMap utf8Of)).map encodeBytes) := by
    rw [List.mapM_map]
    exact Except.mapM_of_ok fun seg _ => hparts _
  have htokens : ∀ seg, v.textToToken (encodeBytes seg) ≠ tokenNull →
      v.bpeTokens (encodeBytes seg) = [v.textToToken (encodeBytes seg)] := fun seg h => by
    rw [bpeTokens, if_neg h]
  have hall : ∀ seg ∈ words.flatMap fun seg => parts (seg.flatMap utf8Of),
      v.textToToken (encodeBytes seg) ≠ tokenNull := by
    intro seg hseg
    obtain ⟨word, -, hseg⟩ := List.mem_flatMap.1 hseg
    exact htoken _ seg hseg
  refine ⟨words.flatMap fun seg => parts (seg.flatMap utf8Of), ?_, ?_, hall⟩
  · rw [← flatMap_utf8Of_val, ← cptsFromUtf8_encode, ← flatten_words hwords,
      List.flatten_eq_flatMap, List.flatMap_assoc, List.flatten_eq_flatMap, List.flatMap_map]
    refine List.flatMap_congr fun seg _ => ?_
    rw [← List.flatten_eq_flatMap]
    exact hflatten _
  · rw [bpeTokenize, hsplit, ofUnicode, Except.mapError, Except.ok_bind_eq, hmapM,
      Except.ok_bind_eq]
    refine congrArg Except.ok ?_
    rw [← List.flatMap_def, ← List.map_flatMap, List.flatMap_map]
    rw [List.flatMap_congr fun seg hseg => htokens seg (hall seg hseg)]
    rw [← List.map_eq_flatMap]

theorem tokenize_bpe {tokens : List Token} (hv : v.type = .bpe) (hfree : v.FreeOfSpecial text)
    (h : v.bpeTokenize env text = .ok tokens) (hnil : text = [] → tokens = []) :
    v.tokenize env text false false = .ok tokens := by
  have hfragments : v.bpeFragments env
      (if text = [] then [] else v.tokenizerStPartition false [.rawText text]) = .ok tokens := by
    split_ifs with htext
    · rw [hnil htext]
      rfl
    · rw [tokenizerStPartition_of_free hfree, bpeFragments, List.mapM_cons]
      dsimp only
      rw [h]
      exact congrArg Except.ok (List.append_nil tokens)
  rw [tokenize]
  simp only [hv, hfragments, Bool.false_eq_true, false_and, if_false]
  refine congrArg Except.ok ?_
  simp

theorem tokenize_eq_bpeTokenize (hv : v.type = .bpe) (hfree : v.FreeOfSpecial text)
    (htext : text ≠ []) : v.tokenize env text false false = v.bpeTokenize env text := by
  cases h : v.bpeTokenize env text with
  | ok tokens => exact tokenize_bpe hv hfree h fun hnil => absurd hnil htext
  | error e =>
    have hfragments : v.bpeFragments env
        (if text = [] then [] else v.tokenizerStPartition false [.rawText text]) = .error e := by
      rw [if_neg htext, tokenizerStPartition_of_free hfree, bpeFragments, List.mapM_cons]
      dsimp only
      rw [h]
      rfl
    rw [tokenize]
    simp only [hv, hfragments, Bool.false_eq_true, false_and, if_false]
    rfl

/-- The text comes back from its tokens. -/
def RoundTrips (v : VocabImpl) (env : UnicodeEnv) (text : Text) : Prop :=
  ∃ tokens, v.tokenize env text false false = .ok tokens ∧
    ∀ (length : Int) special, text.length ≤ length → v.pieces tokens length special = .ok text

/-- The tokens that encode parts of the text are normal ones. -/
def EncodedPlain (v : VocabImpl) (text : Text) : Prop :=
  ∀ data ∈ v.idToToken, ∀ part, part <:+: text → data.text = encodeBytes part → data.attr.Plain

theorem bpe_round_trip (hv : v.BpeComplete)
    (hsup : ∀ expr ∈ v.regexExprs, Supports env text expr) (hplain : v.EncodedPlain text)
    (htext : ∃ s : List Char, text = Utf8.encode s) (hfree : v.FreeOfSpecial text) :
    v.RoundTrips env text := by
  obtain ⟨segs, hflatten, htokens, hne⟩ := bpeTokenize_spec hv hsup htext
  have hnil : text = [] → segs.map (fun seg => v.textToToken (encodeBytes seg)) = [] := by
    rintro rfl
    rw [List.map_eq_nil_iff, List.eq_nil_iff_forall_not_mem]
    intro seg hseg
    obtain ⟨data, hdata, hseg', -⟩ := textToToken_spec (hne seg hseg)
    refine v.text_ne_nil data hdata ?_
    rw [hseg', List.flatten_eq_nil_iff.1 hflatten seg hseg]
    rfl
  refine ⟨_, tokenize_bpe hv.type hfree htokens hnil, fun length special hlength => ?_⟩
  rw [← hflatten] at hlength ⊢
  refine pieces_of_yields (List.forall₂_map_left_iff.2 (List.forall₂_same.2 fun seg hseg => ?_))
    hlength
  obtain ⟨data, hdata, hseg', heq⟩ := textToToken_spec (hne seg hseg)
  obtain ⟨hnormal, hunknown, hcontrol, huser⟩ := hplain data hdata seg
    (hflatten ▸ List.infix_of_mem_flatten hseg) hseg'
  refine yields_of_pieceText heq ⟨hunknown, hcontrol⟩ ?_
  simp only [pieceText, hv.type, hnormal, hunknown, hcontrol, huser, hseg', encodeBytes,
    llamaDecodeText_bytes, ofUnicode]
  rfl

end Words

/-! ## Vocabularies of encoded texts -/

/-- A vocabulary that has the encoded form of each of the given texts. -/
def ofParts (parts : List Text) (attr : Text → TokenAttr) (bpeMerges : List (Text × Text))
    (regexExprs : List Text) (hne : [] ∉ parts) (hnodup : parts.Nodup) : VocabImpl where
  type := .bpe
  idToToken := parts.map fun part => { text := encodeBytes part, attr := attr part }
  bpeMerges := bpeMerges
  regexExprs := regexExprs
  text_ne_nil data hdata hnil := by
    obtain ⟨part, hpart, rfl⟩ := List.mem_map.1 hdata
    exact hne (encodeBytes_inj (hnil.trans (show [] = encodeBytes [] from rfl)) ▸ hpart)
  text_nodup := by
    rw [List.map_map]
    exact hnodup.map fun part part' h => encodeBytes_inj h

theorem ofParts_ne_null {parts : List Text} {attr : Text → TokenAttr}
    {bpeMerges : List (Text × Text)} {regexExprs : List Text} {hne : [] ∉ parts}
    {hnodup : parts.Nodup} {part : Text} (h : part ∈ parts) :
    (ofParts parts attr bpeMerges regexExprs hne hnodup).textToToken (encodeBytes part) ≠
      tokenNull :=
  textToToken_ne_null.2 ⟨_, List.mem_map_of_mem h, rfl⟩

/-- `hi`, and the bytes. -/
def hiParts : List Text :=
  Utf8.encode "hi".toList :: (List.range 256).map fun n => [UInt8.ofNat n]

theorem nil_notMem_hiParts : [] ∉ hiParts := by
  simp [hiParts, Utf8.encode, String.utf8EncodeChar]

theorem nodup_hiParts : hiParts.Nodup := by
  refine List.nodup_cons.2 ⟨?_, List.nodup_range.map_on fun n hn m hm h => ?_⟩
  · intro hmem
    obtain ⟨n, -, hn⟩ := List.mem_map.1 hmem
    simp [Utf8.encode, String.utf8EncodeChar] at hn
  · rw [List.mem_range] at hn hm
    have h := congrArg UInt8.toNat (List.singleton_inj.1 h)
    rwa [UInt8.toNat_ofNat', UInt8.toNat_ofNat', Nat.mod_eq_of_lt hn, Nat.mod_eq_of_lt hm] at h

/-- A vocabulary that joins `h` and `i`. -/
def hiVocab (attr : Text → TokenAttr) (regexExprs : List Text) : VocabImpl :=
  ofParts hiParts attr [("h".toList.map ascii, "i".toList.map ascii)] regexExprs
    nil_notMem_hiParts nodup_hiParts

theorem hiVocab_complete (attr : Text → TokenAttr) (regexExprs : List Text) :
    (hiVocab attr regexExprs).BpeComplete where
  type := rfl
  byte b := by
    have hmem : [b] ∈ hiParts := by
      refine List.mem_cons_of_mem _ (List.mem_map.2 ⟨b.toNat, ?_, ?_⟩)
      · exact List.mem_range.2 b.toNat_lt
      · rw [UInt8.ofNat_toNat]
    have hbyte : encodeBytes [b] = unicodeByteToUtf8 b := List.flatMap_singleton _ b
    rw [← hbyte]
    exact ofParts_ne_null hmem
  merge merge h := by
    obtain rfl := List.mem_singleton.1 h
    have hi : "h".toList.map ascii ++ "i".toList.map ascii =
        encodeBytes (Utf8.encode "hi".toList) := by
      decide +kernel
    rw [hi]
    exact ofParts_ne_null List.mem_cons_self

theorem bpe_round_trip_hi : (hiVocab (fun _ => { normal := true }) []).RoundTrips idleEnv
    (Utf8.encode "hi hi".toList) :=
  bpe_round_trip (hiVocab_complete _ _) (List.forall_mem_nil _)
    (fun data hdata _ _ _ => by
      obtain ⟨part, -, rfl⟩ := List.mem_map.1 hdata
      simp [TokenAttr.Plain])
    ⟨_, rfl⟩
    fun data hdata hspecial => by
      obtain ⟨part, -, rfl⟩ := List.mem_map.1 hdata
      exact absurd hspecial (by simp [TokenAttr.Special])

/-- Every text without special tokens comes back where the vocabulary and the expressions are as
`P` says. -/
def BpeLaw (P : VocabImpl → UnicodeEnv → Text → Prop) : Prop :=
  ∀ (v : VocabImpl) (env : UnicodeEnv) (s : List Char), v.BpeComplete →
    (∀ expr, (env.regex.compile expr).isSome) → (∀ expr, (env.wregex.compile expr).isSome) →
    v.FreeOfSpecial (Utf8.encode s) → P v env (Utf8.encode s) → v.RoundTrips env (Utf8.encode s)

/-- The token of a merge may be unused, and an expression may have a category and a character that
is not ASCII. -/
theorem not_bpeLaw :
    ¬ BpeLaw (fun v env text => ∀ expr ∈ v.regexExprs, Supports env text expr) ∧
      ¬ BpeLaw fun v _ text => v.EncodedPlain text := by
  have hfree : ∀ attr regexExprs text, (∀ part, ¬ (attr part : TokenAttr).Special) →
      (hiVocab attr regexExprs).FreeOfSpecial text := fun attr regexExprs text h data hdata => by
    obtain ⟨part, -, rfl⟩ := List.mem_map.1 hdata
    exact fun hspecial => absurd hspecial (h part)
  constructor
  · intro h
    let v := hiVocab (fun part =>
      if part.length = 2 then { unused := true } else { normal := true }) []
    obtain ⟨tokens, htokens, hpieces⟩ := h v idleEnv "hi".toList (hiVocab_complete _ _)
      (fun _ => rfl) (fun _ => rfl)
      (hfree _ _ _ fun part => by split_ifs <;> simp [TokenAttr.Special]) (List.forall_mem_nil _)
    rw [tokenize_eq_bpeTokenize rfl (hfree _ _ _ fun part => by
      split_ifs <;> simp [TokenAttr.Special]) (by decide)] at htokens
    have heval : v.bpeTokenize idleEnv (Utf8.encode "hi".toList) = .ok [0] := by
      decide +kernel
    cases htokens.symm.trans heval
    have hpiece := hpieces 2 false (by decide)
    revert hpiece
    decide +kernel
  · intro h
    let v := hiVocab (fun _ => { normal := true }) [Utf8.encode r"\p{L}é".toList]
    obtain ⟨tokens, htokens, -⟩ := h v idleEnv "hi".toList (hiVocab_complete _ _) (fun _ => rfl)
      (fun _ => rfl) (hfree _ _ _ fun _ => by simp [TokenAttr.Special]) fun data hdata _ _ _ => by
        obtain ⟨part, -, rfl⟩ := List.mem_map.1 hdata
        simp [TokenAttr.Plain]
    rw [tokenize_eq_bpeTokenize rfl (hfree _ _ _ fun _ => by simp [TokenAttr.Special])
      (by decide)] at htokens
    have heval : (v.bpeTokenize idleEnv (Utf8.encode "hi".toList)).toOption = none := by
      decide +kernel
    rw [htokens] at heval
    cases heval

end VocabImpl

end LamaServer
