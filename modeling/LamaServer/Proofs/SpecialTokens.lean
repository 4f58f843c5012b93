import LamaServer.Proofs.Partition

/-!
# What the special tokens of a text are

The earliest special token of the list that occurs in a text is cut out where it first stands, and
what is to the left and to the right of it are texts of their own. That is one way only to cut a
text, and it is what going through the list token by token comes to.
-/

namespace LamaServer

namespace VocabImpl

/-- A text as the fragments it is cut into. -/
inductive Partitioned (specials : List (Token × VocabToken)) : Text → List Fragment → Prop
  | text {text : Text} (hfree : ∀ s ∈ specials, ¬ s.2.text <:+: text) :
    Partitioned specials text (fragmentsOf text)
  | special {text : Text} {pos : Nat} {s : Token × VocabToken} {left right : List Fragment}
    (hearliest : specials.find? (·.2.text <:+: text) = some s)
    (hleftmost : Occurrence.First [s.2.text] text pos)
    (hleft : Partitioned specials (leftOf s.2 text pos) left)
    (hright : Partitioned specials (rightOf s.2 text pos) right) :
    Partitioned specials text (left ++ .token s.1 :: right)

/-- Fragments that spell a text: whitespace may be left out before a token with LSTRIP and after a
token with RSTRIP. -/
inductive Spells (v : VocabImpl) : List Fragment → Text → Prop
  | nil : Spells v [] []
  | rawText {text rest : Text} {fragments : List Fragment} (hrest : Spells v fragments rest) :
    Spells v (.rawText text :: fragments) (text ++ rest)
  | token {id : Token} {data : VocabToken} {before after rest : Text} {fragments : List Fragment}
    (hdata : v.getTokenData id = .ok data)
    (hbefore : ∀ c ∈ before, isSpace c) (hlstrip : before ≠ [] → data.attr.lstrip)
    (hafter : ∀ c ∈ after, isSpace c) (hrstrip : after ≠ [] → data.attr.rstrip)
    (hrest : Spells v fragments rest) :
    Spells v (.token id :: fragments) (before ++ data.text ++ after ++ rest)

/-- The special tokens that are looked for. -/
def enabledSpecials (v : VocabImpl) (cacheSpecialTokens : List Token) (parseSpecial : Bool) :
    List (Token × VocabToken) :=
  cacheSpecialTokens.flatMap fun id => match v.getTokenData id with
    | .error _ => []
    | .ok data =>
      if !parseSpecial && (data.attr.control || data.attr.unknown) then [] else [(id, data)]

section Partitioned

variable {v : VocabImpl} {specials : List (Token × VocabToken)} {s : Token × VocabToken}
  {text t word : Text} {pos : Nat} {out out' fragments : List Fragment}

theorem earliest_spec (h : specials.find? (·.2.text <:+: text) = some s) :
    s ∈ specials ∧ s.2.text <:+: text :=
  ⟨List.mem_of_find?_eq_some h, by simpa using List.find?_some h⟩

theorem leftOf_infix (data : VocabToken) (text : Text) (pos : Nat) :
    leftOf data text pos <:+: text.take pos := by
  rw [leftOf]
  split_ifs
  · exact (List.rdropWhile_prefix _ _).isInfix
  · exact List.infix_refl _

theorem rightOf_infix (data : VocabToken) (text : Text) (pos : Nat) :
    rightOf data text pos <:+: text := by
  have hdrop := (List.drop_suffix (pos + data.text.length) text).isInfix
  rw [rightOf]
  split_ifs
  · exact (List.dropWhile_suffix _).isInfix.trans hdrop
  · exact hdrop

/-- The text around an occurrence, with what is stripped. -/
theorem text_eq (hat : Occurrence.At s.2.text text pos) : ∃ before after,
    text = leftOf s.2 text pos ++ (before ++ s.2.text ++ after ++ rightOf s.2 text pos) ∧
    (∀ c ∈ before, isSpace c) ∧ (before ≠ [] → s.2.attr.lstrip) ∧
    (∀ c ∈ after, isSpace c) ∧ (after ≠ [] → s.2.attr.rstrip) := by
  have htext : text = text.take pos ++ (s.2.text ++ text.drop (pos + s.2.text.length)) := by
    rw [← List.drop_drop, ← List.prefix_append_drop hat, List.take_append_drop]
  obtain ⟨before, hleft, hbefore, hlstrip⟩ : ∃ before, text.take pos =
      leftOf s.2 text pos ++ before ∧ (∀ c ∈ before, isSpace c) ∧
      (before ≠ [] → s.2.attr.lstrip) := by
    rw [leftOf]
    split_ifs with h
    · exact ⟨(text.take pos).rtakeWhile isSpace, List.rdropWhile_append_rtakeWhile.symm,
        fun c hc => List.mem_rtakeWhile_imp hc, fun _ => h⟩
    · exact ⟨[], (List.append_nil _).symm, List.forall_mem_nil _, fun hne => absurd rfl hne⟩
  obtain ⟨after, hright, hafter, hrstrip⟩ : ∃ after, text.drop (pos + s.2.text.length) =
      after ++ rightOf s.2 text pos ∧ (∀ c ∈ after, isSpace c) ∧
      (after ≠ [] → s.2.attr.rstrip) := by
    rw [rightOf]
    split_ifs with h
    · exact ⟨_, List.takeWhile_append_dropWhile.symm, fun c hc => List.mem_takeWhile_imp hc,
        fun _ => h⟩
    · exact ⟨[], rfl, List.forall_mem_nil _, fun hne => absurd rfl hne⟩
  refine ⟨before, after, ?_, hbefore, hlstrip, hafter, hrstrip⟩
  calc text = text.take pos ++ (s.2.text ++ text.drop (pos + s.2.text.length)) := htext
    _ = _ := by
      rw [hleft, hright]
      simp only [List.append_assoc]

theorem Partitioned.rawText_mem (h : Partitioned specials text out) :
    ∀ t, .rawText t ∈ out → t ≠ [] ∧ ∀ s ∈ specials, ¬ s.2.text <:+: t := by
  induction h with
  | text hfree =>
    intro t ht
    rw [fragmentsOf] at ht
    split_ifs at ht with hne
    · cases List.mem_singleton.1 ht
      exact ⟨hne, hfree⟩
    · cases ht
  | special _ _ _ _ ihleft ihright =>
    intro t ht
    rcases List.mem_append.1 ht with ht | ht
    · exact ihleft t ht
    · exact ihright t ((List.mem_cons.1 ht).resolve_left (by simp))

theorem Spells.append {a b : List Fragment} {x y : Text} (ha : Spells v a x) (hb : Spells v b y) :
    Spells v (a ++ b) (x ++ y) := by
  induction ha with
  | nil => exact hb
  | rawText _ ih =>
    rw [List.append_assoc]
    exact .rawText ih
  | token hdata hbefore hlstrip hafter hrstrip _ ih =>
    rw [List.append_assoc]
    exact .token hdata hbefore hlstrip hafter hrstrip ih

theorem spells_fragmentsOf (text : Text) : Spells v (fragmentsOf text) text := by
  rw [fragmentsOf]
  split_ifs with hne
  · have h : Spells v [.rawText text] (text ++ []) := .rawText .nil
    rwa [List.append_nil] at h
  · rw [not_not.1 hne]
    exact .nil

theorem Partitioned.spells (hspecials : ∀ s ∈ specials, v.getTokenData s.1 = .ok s.2)
    (h : Partitioned specials text out) : Spells v out text := by
  induction h with
  | text _ => exact spells_fragmentsOf _
  | special hearliest hleftmost _ _ ihleft ihright =>
    obtain ⟨before, after, htext, hbefore, hlstrip, hafter, hrstrip⟩ :=
      text_eq (Occurrence.first_singleton.1 hleftmost).1
    have hs := hspecials _ (earliest_spec hearliest).1
    rw [htext]
    exact ihleft.append (.token hs hbefore hlstrip hafter hrstrip ihright)

/-- There is one way to cut a text. -/
theorem Partitioned.unique (h : Partitioned specials text out)
    (h' : Partitioned specials text out') : out = out' := by
  induction h generalizing out' with
  | text hfree =>
    cases h' with
    | text _ => rfl
    | special hearliest _ _ _ =>
      exact absurd (earliest_spec hearliest).2 (hfree _ (earliest_spec hearliest).1)
  | special hearliest hleftmost _ _ ihleft ihright =>
    cases h' with
    | text hfree =>
      exact absurd (earliest_spec hearliest).2 (hfree _ (earliest_spec hearliest).1)
    | special hearliest' hleftmost' hleft' hright' =>
      cases hearliest.symm.trans hearliest'
      cases hleftmost.unique hleftmost'
      rw [ihleft hleft', ihright hright']

end Partitioned

/-! ## Token by token -/

section Token

variable {v : VocabImpl} {specials : List (Token × VocabToken)} {specialId : Token}
  {data : VocabToken} {text : Text} {out fragments : List Fragment}

theorem rightOf_length_lt {pos : Nat} (hdata : data.text ≠ [])
    (hle : pos + data.text.length ≤ text.length) :
    (rightOf data text pos).length < text.length := by
  have hpos := List.length_pos_iff.2 hdata
  have hdrop : (rightOf data text pos).length ≤ (text.drop (pos + data.text.length)).length := by
    rw [rightOf]
    split_ifs
    · exact (List.dropWhile_suffix _).length_le
    · exact Nat.le_refl _
  rw [List.length_drop] at hdrop
  omega

theorem splitFragment_partitioned (hdata : data.text ≠ []) (hfree : ∀ s ∈ specials,
    ¬ s.2.text <:+: text) : Partitioned (specials ++ [(specialId, data)]) text
      (if text ≠ [] then splitFragment specialId data hdata text else []) := by
  induction hn : text.length using Nat.strong_induction_on generalizing text with
  | _ n ih =>
    have hnew : ∀ {t : Text}, (∀ s ∈ specials, ¬ s.2.text <:+: t) → ¬ data.text <:+: t →
        Partitioned (specials ++ [(specialId, data)]) t (fragmentsOf t) := fun h hdata =>
      .text (List.forall_mem_append.2 ⟨h, List.forall_mem_singleton.2 hdata⟩)
    rcases hfind : Text.indexOf data.text text with _ | pos
    · have hnone : ¬ data.text <:+: text := fun hin => by
        obtain ⟨p, hp⟩ := Occurrence.infix_iff.1 hin
        exact (Text.indexOf_eq_none hdata).1 hfind p hp
      rw [splitFragment_none hdata hfind]
      exact hnew hfree hnone
    · have hfirst : Occurrence.First [data.text] text pos :=
        Occurrence.first_singleton.2 ((Text.indexOf_eq_some hdata).1 hfind)
      have hat := (Occurrence.first_singleton.1 hfirst).1
      have hle := hat.add_length_le hdata
      have hne : text ≠ [] := List.length_pos_iff.1 (Nat.lt_of_lt_of_le
        (Nat.add_pos_right pos (List.length_pos_iff.2 hdata)) hle)
      have hearliest : (specials ++ [(specialId, data)]).find? (·.2.text <:+: text) =
          some (specialId, data) := by
        have hin : data.text <:+: text := Occurrence.infix_iff.2 ⟨pos, hat⟩
        rw [List.find?_append, List.find?_eq_none.2 (by simpa using hfree)]
        simp [hin]
      have hleft := leftOf_infix data text pos
      have hright := rightOf_infix data text pos
      have hfreeLeft : ¬ data.text <:+: leftOf data text pos := fun hin =>
        hfirst.free_take (by simpa using hdata.symm) data.text (List.mem_singleton_self _)
          (hin.trans hleft)
      have hlen := hn ▸ rightOf_length_lt hdata hle
      rw [if_pos hne, splitFragment_some hdata hfind]
      refine .special hearliest hfirst (hnew (fun s hs hin => hfree s hs ?_) hfreeLeft)
        (ih _ hlen (fun s hs hin => hfree s hs (hin.trans hright)) rfl)
      exact (hin.trans hleft).trans (List.take_prefix _ _).isInfix

/-- One more token of the list. -/
theorem Partitioned.splitFragments (hdata : data.text ≠ []) (h : Partitioned specials text out) :
    Partitioned (specials ++ [(specialId, data)]) text
      (splitFragments specialId data hdata out) := by
  induction h with
  | @text text hfree =>
    have hsplit : VocabImpl.splitFragments specialId data hdata (fragmentsOf text) =
        if text ≠ [] then splitFragment specialId data hdata text else [] := by
      rw [fragmentsOf]
      split_ifs
      · exact List.append_nil _
      · rfl
    rw [hsplit]
    exact splitFragment_partitioned hdata hfree
  | special hearliest hleftmost _ _ ihleft ihright =>
    rw [VocabImpl.splitFragments, List.flatMap_append]
    refine .special ?_ hleftmost ihleft ihright
    rw [List.find?_append, hearliest]
    rfl

theorem enabledSpecials_cons {id : Token} {cache : List Token} {parseSpecial : Bool}
    (hdata : v.getTokenData id = .ok data) : v.enabledSpecials (id :: cache) parseSpecial =
      (if !parseSpecial && (data.attr.control || data.attr.unknown) then [] else [(id, data)]) ++
        v.enabledSpecials cache parseSpecial := by
  rw [enabledSpecials, List.flatMap_cons, hdata]
  rfl

theorem mem_of_getTokenData {id : Token} (h : v.getTokenData id = .ok data) :
    data ∈ v.idToToken := by
  rw [getTokenData] at h
  split_ifs at h
  exact List.mem_of_getElem? (Except.ofOption_eq_ok.1 h)

theorem getTokenData_nat {id : Nat} (hid : id < v.idToToken.length) :
    v.getTokenData id = .ok v.idToToken[id] := by
  rw [getTokenData, if_pos (Int.natCast_nonneg id), Int.toNat_natCast,
    List.getElem?_eq_getElem hid]
  rfl

/-- Going through the list, from what its first tokens have cut the text into. -/
theorem stPartition_run {raw : Text} (parseSpecial : Bool) : ∀ {cache : List Token}
    {fragments : List FragmentVariant} {specials : List (Token × VocabToken)},
    (∀ id ∈ cache, ∃ data, v.getTokenData id = .ok data) →
    Partitioned specials raw (fragments.map (·.fragment raw)) → (∀ f ∈ fragments, f.Valid raw) →
    ∃ out, v.stPartition cache parseSpecial raw fragments = .ok out ∧
      Partitioned (specials ++ v.enabledSpecials cache parseSpecial) raw
        (out.map (·.fragment raw)) ∧ ∀ f ∈ out, f.Valid raw
  | [], fragments, specials, _, h, hvalid => by
    refine ⟨fragments, rfl, ?_, hvalid⟩
    rw [enabledSpecials, List.flatMap_nil, List.append_nil]
    exact h
  | id :: cache, fragments, specials, hcache, h, hvalid => by
    obtain ⟨⟨data, hdata⟩, hcache⟩ := List.forall_mem_cons.1 hcache
    rw [enabledSpecials_cons hdata, ← List.append_assoc, stPartition, List.foldlM_cons, hdata,
      Except.ok_bind_eq]
    by_cases hskip : !parseSpecial && (data.attr.control || data.attr.unknown)
    · rw [if_pos hskip, if_pos hskip, List.append_nil]
      exact stPartition_run parseSpecial hcache h hvalid
    · have hne := v.text_ne_nil data (mem_of_getTokenData hdata)
      obtain ⟨out, hout, hmap, hvalid⟩ := partitionLoop_spec id hne
        (fragments.length + 1) [] (Nat.lt_succ_self fragments.length) hvalid
      rw [if_neg hskip, if_neg hskip]
      have hpart : partitionLoop raw id data (fragments.length + 1) ⟨fragments, 0⟩ = .ok out := hout
      rw [hpart, Except.ok_bind_eq]
      refine stPartition_run parseSpecial hcache ?_ hvalid
      rw [hmap]
      exact h.splitFragments hne

theorem enabledSpecials_spec {cache : List Token} {parseSpecial : Bool} :
    ∀ s ∈ v.enabledSpecials cache parseSpecial, v.getTokenData s.1 = .ok s.2 := by
  intro s hs
  obtain ⟨id, -, hs⟩ := List.mem_flatMap.1 hs
  rcases hdata : v.getTokenData id with e | data
  · rw [hdata] at hs
    cases hs
  · rw [hdata] at hs
    simp only at hs
    split_ifs at hs
    · cases hs
    · rw [List.mem_singleton.1 hs]
      exact hdata

theorem partitioned_nil (text : Text) : Partitioned [] text (fragmentsOf text) :=
  .text (List.forall_mem_nil _)

theorem stPartition_start (raw : Text) (parseSpecial : Bool) {cache : List Token}
    (hcache : ∀ id ∈ cache, ∃ data, v.getTokenData id = .ok data) :
    ∃ out, v.stPartition cache parseSpecial raw (partsOf 0 raw.length) = .ok out ∧
      Partitioned (v.enabledSpecials cache parseSpecial) raw (out.map (·.fragment raw)) := by
  obtain ⟨hfragments, hvalid⟩ := partsOf_spec (show 0 + raw.length ≤ raw.length by omega)
  have hstart : Partitioned [] raw ((partsOf 0 raw.length).map (·.fragment raw)) := by
    rw [hfragments, part, List.drop_zero, List.take_length]
    exact partitioned_nil raw
  obtain ⟨out, hout, hpart, -⟩ := stPartition_run parseSpecial hcache hstart hvalid
  exact ⟨out, hout, hpart⟩

/-- `tokenizer_st_partition` comes to an end, and the fragments spell the text, but for whitespace
next to tokens that strip it; what is still text is not empty and has no special token in it; and
the special tokens are the earliest of the list, each where it first stands. -/
theorem stPartition_partitioned (v : VocabImpl) (cacheSpecialTokens : List Token)
    (parseSpecial : Bool) (raw : Text)
    (hcache : ∀ id ∈ cacheSpecialTokens, ∃ data, v.getTokenData id = .ok data) :
    ∃ out, v.stPartition cacheSpecialTokens parseSpecial raw (partsOf 0 raw.length) = .ok out ∧
      Spells v (out.map (·.fragment raw)) raw ∧
      (∀ text, .rawText text ∈ out.map (·.fragment raw) → text ≠ [] ∧
        ∀ s ∈ v.enabledSpecials cacheSpecialTokens parseSpecial, ¬ s.2.text <:+: text) ∧
      Partitioned (v.enabledSpecials cacheSpecialTokens parseSpecial) raw
        (out.map (·.fragment raw)) := by
  obtain ⟨out, hout, hpart⟩ := stPartition_start raw parseSpecial hcache
  exact ⟨out, hout, hpart.spells enabledSpecials_spec, hpart.rawText_mem, hpart⟩

theorem tokenizerStPartition_run {raw : Text} {parseSpecial : Bool} : ∀ {ids : List Nat}
    {fragments : List Fragment} {specials : List (Token × VocabToken)},
    (∀ id ∈ ids, id < v.idToToken.length) → Partitioned specials raw fragments →
    Partitioned (specials ++ v.enabledSpecials (ids.map (↑)) parseSpecial) raw
      (ids.foldl (fun buffer (specialId : Nat) => match h : v.idToToken[specialId]? with
        | none => buffer
        | some data => if !parseSpecial && (data.attr.control || data.attr.unknown) then buffer
          else VocabImpl.splitFragments specialId data
            (v.text_ne_nil data (List.mem_of_getElem? h)) buffer) fragments)
  | [], fragments, specials, _, h => by
    rw [List.map_nil, enabledSpecials, List.flatMap_nil, List.append_nil]
    exact h
  | id :: ids, fragments, specials, hids, h => by
    obtain ⟨hid, hids⟩ := List.forall_mem_cons.1 hids
    have hget : v.idToToken[id]? = some v.idToToken[id] := List.getElem?_eq_getElem hid
    rw [List.map_cons, enabledSpecials_cons (getTokenData_nat hid), ← List.append_assoc,
      List.foldl_cons]
    refine tokenizerStPartition_run hids ?_
    by_cases hskip : !parseSpecial && (v.idToToken[id].attr.control || v.idToToken[id].attr.unknown)
    · rw [if_pos hskip, List.append_nil]
      split
      · exact h
      · next data hsome =>
        cases hget.symm.trans hsome
        rw [if_pos hskip]
        exact h
    · rw [if_neg hskip]
      split
      · next hnone => cases hget.symm.trans hnone
      · next data hsome =>
        cases hget.symm.trans hsome
        rw [if_neg hskip]
        exact h.splitFragments _

/-- The cuts of the tokenizer's fragments, each with its own text, are the same. -/
theorem stPartition_eq (v : VocabImpl) (parseSpecial : Bool) (raw : Text) :
    ∃ out, v.stPartition (v.cacheSpecialTokens.map (↑)) parseSpecial raw (partsOf 0 raw.length) =
        .ok out ∧
      out.map (·.fragment raw) = v.tokenizerStPartition parseSpecial (fragmentsOf raw) := by
  have hcache : ∀ id ∈ v.cacheSpecialTokens, id < v.idToToken.length := fun id hid => by
    rw [cacheSpecialTokens, List.mem_insertionSort, List.mem_filter, List.mem_range] at hid
    exact hid.1
  have hdata : ∀ id ∈ v.cacheSpecialTokens.map ((↑) : Nat → Token),
      ∃ data, v.getTokenData id = .ok data := fun id hid => by
    obtain ⟨n, hn, rfl⟩ := List.mem_map.1 hid
    exact ⟨_, getTokenData_nat (hcache n hn)⟩
  obtain ⟨out, hout, hpart⟩ := stPartition_start raw parseSpecial hdata
  exact ⟨out, hout, hpart.unique (tokenizerStPartition_run hcache (partitioned_nil raw))⟩

/-- A vocabulary with a control token that strips to its left, and a word that strips to its
right. -/
def stripVocab : VocabImpl where
  type := .bpe
  idToToken := [{ text := [60, 115, 62], attr := { control := true, lstrip := true } },
    { text := [97, 98], attr := { userDefined := true, rstrip := true } }]
  text_ne_nil := by decide
  text_nodup := by decide

/-- `x <s>ab y` -/
theorem stPartition_partitioned_strip :
    ∃ out, stripVocab.stPartition [0, 1] true [120, 32, 60, 115, 62, 97, 98, 32, 121]
        (partsOf 0 9) = .ok out ∧
      Spells stripVocab (out.map (·.fragment [120, 32, 60, 115, 62, 97, 98, 32, 121]))
        [120, 32, 60, 115, 62, 97, 98, 32, 121] ∧
      (∀ text, .rawText text ∈ out.map (·.fragment [120, 32, 60, 115, 62, 97, 98, 32, 121]) →
        text ≠ [] ∧ ∀ s ∈ stripVocab.enabledSpecials [0, 1] true, ¬ s.2.text <:+: text) ∧
      Partitioned (stripVocab.enabledSpecials [0, 1] true) [120, 32, 60, 115, 62, 97, 98, 32, 121]
        (out.map (·.fragment [120, 32, 60, 115, 62, 97, 98, 32, 121])) :=
  stPartition_partitioned stripVocab [0, 1] true [120, 32, 60, 115, 62, 97, 98, 32, 121]
    (by
      intro id hid
      rcases List.mem_pair.1 hid with rfl | rfl
      · exact ⟨_, rfl⟩
      · exact ⟨_, rfl⟩)

-- The space before `<s>` and the one after `ab` are gone.
example : stripVocab.stPartition [0, 1] true [120, 32, 60, 115, 62, 97, 98, 32, 121]
    (partsOf 0 9) = .ok [.rawText 0 1, .token 0, .token 1, .rawText 8 1] := by
  decide

end Token

end VocabImpl

end LamaServer
