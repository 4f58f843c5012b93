import LamaServer.Proofs.ChatReply
import LamaServer.Proofs.JsonReader
import LamaServer.Proofs.ToolGrammar

/-!
# Tool calls are read back

A word of the grammar of a format is a reply of the model. The parser of the format reads the calls
that it spells (`commonChatParse_iff`), but for the calls of Firefunction v2 without the word in
front that the grammar makes optional and the parser looks for.
-/

namespace LamaServer

open Json SchemaConverter

namespace JsonFormat

variable {params : TemplatesParams} {schema : Json → Language Char} {format : JsonFormat}
  {w : List Char}

/-! ## What a word is written of -/

theorem mem_call {name arguments id : Language Char} (hw : w ∈ format.call params name arguments id) :
    ∃ c : ToolCallText, c.name ∈ name ∧ c.arguments ∈ arguments ∧
      (format.hasId params → c.id ∈ id) ∧ w ∈ format.callWords params c := by
  cases format with
  | generic =>
    by_cases hparallel : params.parallelToolCalls
    · rw [call, if_pos hparallel] at hw
      obtain ⟨n, hn, a, ha, i, hi, hw⟩ := mem_object_triple hw
      refine ⟨⟨n, a, i⟩, hn, ha, fun _ => hi, ?_⟩
      rwa [callWords, call, if_pos hparallel]
    · rw [call, if_neg hparallel] at hw
      obtain ⟨n, hn, a, ha, hw⟩ := mem_object_pair hw
      refine ⟨⟨n, a, []⟩, hn, ha, fun h => absurd h hparallel, ?_⟩
      rwa [callWords, call, if_neg hparallel]
  | mistralNemo =>
    obtain ⟨n, hn, a, ha, i, hi, hw⟩ := mem_object_triple hw
    exact ⟨⟨n, a, i⟩, hn, ha, fun _ => hi, hw⟩
  | commandR7b =>
    obtain ⟨i, hi, n, hn, a, ha, hw⟩ := mem_object_triple hw
    exact ⟨⟨n, a, i⟩, hn, ha, fun _ => hi, hw⟩
  | firefunctionV2 =>
    obtain ⟨n, hn, a, ha, hw⟩ := mem_object_pair hw
    exact ⟨⟨n, a, []⟩, hn, ha, fun h => absurd h Bool.false_ne_true, hw⟩

/-- A call of one of the tools. -/
def IsCallOf (params : TemplatesParams) (schema : Json → Language Char) (format : JsonFormat)
    (c : ToolCallText) : Prop :=
  ∃ tool ∈ params.tools, c.name ∈ const (.string tool.name) ∧ c.arguments ∈ schema tool.parameters ∧
    (format.hasId params → c.id ∈ format.id)

theorem mem_calls (hw : w ∈ format.calls params schema) :
    ∃ c, format.IsCallOf params schema c ∧ w ∈ format.callWords params c := by
  obtain ⟨L, hL, hw⟩ := mem_union.1 hw
  obtain ⟨tool, htool, rfl⟩ := List.mem_map.1 hL
  obtain ⟨c, hname, harguments, hid, hw⟩ := mem_call hw
  exact ⟨c, ⟨tool, htool, hname, harguments, hid⟩, hw⟩

/-- What the grammar demands of the calls of a reply. -/
def AreCalls (params : TemplatesParams) (schema : Json → Language Char) (format : JsonFormat)
    (calls : List ToolCallText) : Prop :=
  calls ≠ [] ∧ (params.parallelToolCalls = false → calls.length = 1) ∧
    ∀ c ∈ calls, format.IsCallOf params schema c

theorem Writes.of_calls {calls : List ToolCallText} (h : format.AreCalls params schema calls)
    (hw : w ∈ format.wrap params (format.callsWords params calls)) :
    format.Writes params schema (.calls calls) w :=
  .calls h.1 h.2.1 h.2.2 hw

/-- An array of calls. -/
theorem mem_toolCalls (hformat : format ≠ generic) (hw : w ∈ format.toolCalls params schema) :
    ∃ calls, format.AreCalls params schema calls ∧ w ∈ format.callsWords params calls := by
  obtain ⟨calls, hne, hmax, hcalls, hw⟩ := mem_array (fun u hu => mem_calls hu) hw
  refine ⟨calls, ⟨hne, fun hparallel => ?_, hcalls⟩, ?_⟩
  · rw [hparallel] at hmax
    have hle := hmax 1 rfl
    have hpos := List.length_pos_of_ne_nil hne
    omega
  · rw [callsWords, if_neg fun h => hformat h.1]
    exact hw

theorem mem_genericToolCallSchema (hw : w ∈ genericToolCallSchema params schema) :
    ∃ calls, generic.Writes params schema (.calls calls) w := by
  unfold genericToolCallSchema at hw
  split_ifs at hw with hparallel <;> obtain ⟨u, hu, hw⟩ := mem_object_single hw
  · obtain ⟨calls, hne, -, hcalls, hu⟩ := mem_array (fun u hu => mem_calls hu) hu
    refine ⟨calls, .of_calls ⟨hne, fun h => ?_, hcalls⟩ ?_⟩
    · rw [hparallel] at h
      cases h
    · rw [wrap, if_pos hparallel, callsWords, if_neg fun h => by rw [hparallel] at h; cases h.2]
      exact mem_object_of_mem hu hw
  · obtain ⟨c, hc, hu⟩ := mem_calls hu
    refine ⟨[c], .of_calls ⟨List.cons_ne_nil _ _, fun _ => rfl, by simpa using hc⟩ ?_⟩
    rw [wrap, if_neg hparallel, callsWords, if_pos ⟨rfl, Bool.not_eq_true _ ▸ hparallel⟩]
    exact mem_object_of_mem hu hw

/-- A word of the grammar is written in some way. -/
theorem exists_writes (hw : w ∈ format.grammar params schema) :
    ∃ reply, format.Writes params schema reply w := by
  cases format with
  | generic =>
    rw [grammar, commonChatParamsInitGeneric] at hw
    split_ifs at hw with hrequired
    · obtain ⟨calls, h⟩ := mem_genericToolCallSchema hw
      exact ⟨_, h⟩
    · obtain ⟨L, hL, hw⟩ := mem_union.1 hw
      rcases List.mem_pair.1 hL with rfl | rfl
      · obtain ⟨calls, h⟩ := mem_genericToolCallSchema hw
        exact ⟨_, h⟩
      · obtain ⟨r, hr, hw⟩ := mem_object_single hw
        exact ⟨_, .response rfl (Bool.not_eq_true _ ▸ hrequired) hr hw⟩
  | mistralNemo =>
    obtain ⟨u, hu, v, hv, rfl⟩ := hw
    obtain ⟨calls, hcalls, hv⟩ := mem_toolCalls (by decide) hv
    exact ⟨_, .of_calls hcalls ⟨u, hu, v, hv, rfl⟩⟩
  | commandR7b =>
    obtain ⟨_, ⟨u, hu, v, hv, rfl⟩, e, he, rfl⟩ := hw
    obtain ⟨calls, hcalls, hv⟩ := mem_toolCalls (by decide) hv
    exact ⟨_, .of_calls hcalls ⟨_, ⟨u, hu, v, hv, rfl⟩, e, he, rfl⟩⟩
  | firefunctionV2 =>
    obtain ⟨u, hu, v, hv, rfl⟩ := hw
    obtain ⟨calls, hcalls, hv⟩ := mem_toolCalls (by decide) hv
    exact ⟨_, .of_calls hcalls ⟨u, hu, v, hv, rfl⟩⟩

/-! ## What the parser makes of a call -/

/-- The reader of a call. -/
def readCall : JsonFormat → Json → Except Json.Exception ChatToolCall
  | generic => genericToolCall
  | mistralNemo | firefunctionV2 => processToolCall
  | commandR7b => commandR7bToolCall

variable {J : JsonReader}

theorem isText_call {c : ToolCallText} {call : ChatToolCall}
    (h : c.Spells J (format.hasId params) call) : ∃ v, format.readCall v = .ok call ∧
      ∀ u ∈ format.callWords params c, IsText J u v := by
  obtain @⟨name, id, arguments, hname, harguments, hid⟩ := h
  have hone : ∀ {t : List Char} {v : Json}, IsText J t v → ∀ u ∈ ({t} : Language Char), IsText J u v :=
    fun ht u hu => Set.mem_singleton_iff.1 hu ▸ ht
  cases format with
  | generic =>
    by_cases hparallel : params.parallelToolCalls
    · rw [hasId, if_pos hparallel] at hid
      refine ⟨.object [("name".toList, .string name), ("arguments".toList, .object arguments),
        ("id".toList, .string id)], rfl, fun u hu => ?_⟩
      rw [callWords, call, if_pos hparallel] at hu
      refine isText_object (.cons ⟨rfl, hone hname⟩ (.cons ⟨rfl, hone harguments⟩
        (.cons ⟨rfl, hone hid⟩ .nil))) (List.cons_ne_nil _ _) (by simp) hu
    · rw [hasId, if_neg hparallel] at hid
      obtain rfl := hid
      refine ⟨.object [("name".toList, .string name), ("arguments".toList, .object arguments)], rfl,
        fun u hu => ?_⟩
      rw [callWords, call, if_neg hparallel] at hu
      exact isText_object (.cons ⟨rfl, hone hname⟩ (.cons ⟨rfl, hone harguments⟩ .nil))
        (List.cons_ne_nil _ _) (by simp) hu
  | mistralNemo =>
    exact ⟨.object [("name".toList, .string name), ("arguments".toList, .object arguments),
      ("id".toList, .string id)], rfl, fun u hu => isText_object (.cons ⟨rfl, hone hname⟩
        (.cons ⟨rfl, hone harguments⟩ (.cons ⟨rfl, hone hid⟩ .nil))) (List.cons_ne_nil _ _)
          (by simp) hu⟩
  | commandR7b =>
    exact ⟨.object [("tool_call_id".toList, .string id), ("tool_name".toList, .string name),
      ("parameters".toList, .object arguments)], rfl, fun u hu => isText_object
        (.cons ⟨rfl, hone hid⟩ (.cons ⟨rfl, hone hname⟩ (.cons ⟨rfl, hone harguments⟩ .nil)))
          (List.cons_ne_nil _ _) (by simp) hu⟩
  | firefunctionV2 =>
    obtain rfl := hid
    exact ⟨.object [("name".toList, .string name), ("arguments".toList, .object arguments)], rfl,
      fun u hu => isText_object (.cons ⟨rfl, hone hname⟩ (.cons ⟨rfl, hone harguments⟩ .nil))
        (List.cons_ne_nil _ _) (by simp) hu⟩

/-- The calls of a reply are read one after the other. -/
theorem exists_readCalls {calls : List ToolCallText} {toolCalls : List ChatToolCall}
    (h : List.Forall₂ (fun c call => c.Spells J (format.hasId params) call) calls toolCalls) :
    ∃ vs : List Json, vs.mapM format.readCall = .ok toolCalls ∧
      List.Forall₂ (fun L v => ∀ u ∈ L, IsText J u v) (calls.map (format.callWords params)) vs := by
  induction h with
  | nil => exact ⟨[], rfl, .nil⟩
  | @cons c call calls toolCalls hc _ ih =>
    obtain ⟨v, hv, hwords⟩ := isText_call hc
    obtain ⟨vs, hvs, hall⟩ := ih
    exact ⟨v :: vs, Except.mapM_eq_ok.2 (.cons hv (Except.mapM_eq_ok.1 hvs)), .cons hwords hall⟩

/-- An array of calls is read. -/
theorem isText_callsWords {calls : List ToolCallText} {toolCalls : List ChatToolCall}
    (h : List.Forall₂ (fun c call => c.Spells J (format.hasId params) call) calls toolCalls)
    (hne : calls ≠ []) (harray : ¬ (format = generic ∧ params.parallelToolCalls = false)) :
    ∃ vs : List Json, vs.mapM format.readCall = .ok toolCalls ∧
      ∀ u ∈ format.callsWords params calls, IsText J u (.array vs) := by
  obtain ⟨vs, hvs, hall⟩ := exists_readCalls h
  refine ⟨vs, hvs, fun u hu => ?_⟩
  rw [callsWords, if_neg harray] at hu
  exact isText_array hall (by simpa using hne) hu

end JsonFormat

/-! ## The parsers -/

theorem Text.find_append {word : Text} (h : word ≠ []) (t : Text) :
    Text.find (word ++ t) word 0 = some 0 :=
  (Text.find_eq_some h (Nat.zero_le _)).2
    ⟨le_rfl, List.prefix_append word t, fun q _ hq => absurd hq (Nat.not_lt_zero q)⟩

section Parsers

variable {J : JsonReader} {u w : List Char} {vs : List Json}
  {toolCalls : List ChatToolCall}

/-- An array behind the mark is read. -/
theorem parsePrefixed_append (hJ : J.Correct) {callPrefix t : Text} {rstripPrefix : Nat} (h : callPrefix ≠ [])
    (hu : (callPrefix ++ t).drop (callPrefix.length - rstripPrefix) = Utf8.encode u)
    (htext : IsText J u (.array vs)) (hvs : vs.mapM processToolCall = .ok toolCalls) :
    parsePrefixedJsonToolCallArray J (callPrefix ++ t) callPrefix rstripPrefix =
      .ok { role := utf8 "assistant", toolCalls := toolCalls } := by
  rw [parsePrefixedJsonToolCallArray, Text.find_append h]
  simp only [Except.bind_eq_ok, Except.pure_eq_ok, liftJson_eq_ok, parseOrThrow_eq_ok,
    Nat.zero_add, hu]
  exact ⟨_, hJ.parse_eq htext, _, hvs, rfl⟩

/-- Without the mark in front there is content, or nothing is read. -/
theorem parsePrefixed_of_not {input callPrefix : Text} {rstripPrefix : Nat} (hne : input ≠ [])
    (h : ¬ callPrefix <+: input) : parsePrefixedJsonToolCallArray J input callPrefix rstripPrefix ≠
      .ok { role := utf8 "assistant", toolCalls := toolCalls } := by
  intro heq
  have hmark : callPrefix ≠ [] := fun hnil => h (hnil ▸ List.nil_prefix)
  rw [parsePrefixedJsonToolCallArray] at heq
  rcases hfind : Text.find input callPrefix 0 with _ | i
  · rw [hfind] at heq
    cases heq
    exact hne rfl
  · rw [hfind] at heq
    simp only [Except.bind_eq_ok, Except.pure_eq_ok] at heq
    obtain ⟨v, -, calls, -, hmsg⟩ := heq
    have hcontent := congrArg ChatMsg.content hmsg
    have hat := ((Text.find_eq_some hmark (Nat.zero_le _)).1 hfind).2.1
    have hi : i ≠ 0 := fun hi => h (by rw [hi] at hat; exact hat)
    rcases List.take_eq_nil_iff.1 hcontent with hcontent | hcontent
    · exact hi hcontent
    · exact hne hcontent

/-- The reader of an action finds what is between its marks. -/
theorem fullMatch_action (x : Text) : ∃ groups, ChatRegex.action.fullMatch
    (utf8 "<|START_ACTION|>" ++ x ++ utf8 "<|END_ACTION|>") = some groups ∧ groups.get 1 = x := by
  have hsome : (ChatRegex.action.fullMatch
      (utf8 "<|START_ACTION|>" ++ x ++ utf8 "<|END_ACTION|>")).isSome := by
    refine Pattern.isSome_fullMatch ⟨x ++ utf8 "<|END_ACTION|>", [],
      (Pattern.way_word _).2 ⟨by simp, rfl⟩, utf8 "<|END_ACTION|>", _,
      ⟨_, ⟨x, fun _ _ => rfl, rfl, rfl⟩, rfl⟩, [], _, (Pattern.way_word _).2 ⟨by simp, rfl⟩, rfl, rfl⟩
  obtain ⟨groups, hgroups⟩ := Option.isSome_iff_exists.1 hsome
  obtain ⟨v, g, hstart, u, g', ⟨h', ⟨y, -, hv, rfl⟩, rfl⟩, t, g'', hend, rfl, rfl⟩ :=
    Pattern.fullMatch_eq_some hgroups
  obtain ⟨hinput, rfl⟩ := (Pattern.way_word _).1 hstart
  obtain ⟨hu, rfl⟩ := (Pattern.way_word _).1 hend
  refine ⟨_, hgroups, ?_⟩
  have hx : y = x := by
    rw [List.append_assoc, List.append_cancel_left_eq, hv, hu, List.append_nil] at hinput
    exact (List.append_cancel_right hinput).symm
  simp [Pattern.Groups.get, hv, hx]

/-- An action is no thought. -/
theorem fullMatch_thought (t : Text) :
    ChatRegex.thought.fullMatch (utf8 "<|START_ACTION|>" ++ t) = none := by
  rcases hmatch : ChatRegex.thought.fullMatch (utf8 "<|START_ACTION|>" ++ t) with _ | groups
  · rfl
  · obtain ⟨v, g, ⟨h', ⟨u, g', hstart, -⟩, -⟩, -⟩ := Pattern.fullMatch_eq_some hmatch
    have hinput := ((Pattern.way_word _).1 hstart).1
    have htake := congrArg (List.take 9) hinput
    rw [List.take_append_of_le_length (by decide), List.take_append_of_le_length (by decide)] at htake
    exact absurd htake (by decide)

theorem parseCommandR7b_action (hJ : J.Correct) (extractReasoning : Bool)
    (htext : IsText J u (.array vs)) (hvs : vs.mapM commandR7bToolCall = .ok toolCalls) :
    commonChatParseCommandR7b J
        (utf8 "<|START_ACTION|>" ++ Utf8.encode u ++ utf8 "<|END_ACTION|>") extractReasoning =
      .ok { role := utf8 "assistant", toolCalls := toolCalls } := by
  obtain ⟨groups, hgroups, hget⟩ := fullMatch_action (Utf8.encode u)
  have hthought := fullMatch_thought (Utf8.encode u ++ utf8 "<|END_ACTION|>")
  rw [← List.append_assoc] at hthought
  rw [commonChatParseCommandR7b, commandR7bThought, hthought]
  simp only [hgroups, hget, Except.bind_eq_ok, Except.pure_eq_ok, liftJson_eq_ok,
    parseOrThrow_eq_ok]
  exact ⟨_, hJ.parse_eq htext, _, hvs, rfl⟩

end Parsers

/-! ## The formats -/

namespace JsonFormat

variable {params : TemplatesParams} {schema : Json → Language Char} {format : JsonFormat}
  {w : List Char} {J : JsonReader}

/-- A single call of the generic format. -/
theorem parseGeneric_toolCall (hJ : J.Correct) {v : Json} {call : ChatToolCall}
    (htext : IsText J w (.object [("tool_call".toList, v)])) (hcall : genericToolCall v = .ok call)
    (hid : call.id = []) : commonChatParseGeneric J (Utf8.encode w) =
      .ok { role := utf8 "assistant", toolCalls := [call] } := by
  simp only [genericToolCall, Except.bind_eq_ok, Except.pure_eq_ok] at hcall
  obtain ⟨nameJson, hname, name, hname', arguments, harguments, idJson, -, id, -, rfl⟩ := hcall
  obtain rfl : id = [] := hid
  have hat : (Json.object [("tool_call".toList, v)]).atKey "tool_call" = .ok v := rfl
  simp only [commonChatParseGeneric, liftJson_eq_ok, Except.bind_eq_ok, parseOrThrow_eq_ok]
  refine ⟨_, hJ.parse_eq htext, ?_⟩
  rw [if_neg (by simp [Json.contains]), if_pos (by simp [Json.contains])]
  simp only [Except.bind_eq_ok, Except.pure_eq_ok]
  exact ⟨v, hat, nameJson, hname, name, hname', v, hat, arguments, harguments, rfl⟩

theorem parseGeneric_toolCalls (hJ : J.Correct) {vs : List Json} {toolCalls : List ChatToolCall}
    (htext : IsText J w (.object [("tool_calls".toList, .array vs)]))
    (hvs : vs.mapM genericToolCall = .ok toolCalls) :
    commonChatParseGeneric J (Utf8.encode w) =
      .ok { role := utf8 "assistant", toolCalls := toolCalls } := by
  simp only [commonChatParseGeneric, liftJson_eq_ok, Except.bind_eq_ok, parseOrThrow_eq_ok]
  refine ⟨_, hJ.parse_eq htext, ?_⟩
  rw [if_pos (by simp [Json.contains])]
  simp only [Except.bind_eq_ok, Except.pure_eq_ok]
  exact ⟨_, rfl, _, hvs, rfl⟩

theorem parseGeneric_response (hJ : J.Correct) {v : Json}
    (htext : IsText J w (.object [("response".toList, v)])) :
    commonChatParseGeneric J (Utf8.encode w) =
      .ok { role := utf8 "assistant", content := responseText v } := by
  simp only [commonChatParseGeneric, liftJson_eq_ok, Except.bind_eq_ok, parseOrThrow_eq_ok]
  refine ⟨_, hJ.parse_eq htext, ?_⟩
  rw [if_neg (by simp [Json.contains]), if_neg (by simp [Json.contains]),
    if_pos (by simp [Json.contains])]
  simp only [Except.bind_eq_ok, Except.pure_eq_ok]
  exact ⟨v, rfl, rfl⟩

/-- The calls of the generic format. -/
theorem parseGeneric_calls (hJ : J.Correct) {calls : List ToolCallText}
    {toolCalls : List ChatToolCall}
    (h : List.Forall₂ (fun c call => c.Spells J (generic.hasId params) call) calls toolCalls)
    (hne : calls ≠ []) (hone : params.parallelToolCalls = false → calls.length = 1)
    (hw : w ∈ generic.wrap params (generic.callsWords params calls)) :
    commonChatParseGeneric J (Utf8.encode w) =
      .ok { role := utf8 "assistant", toolCalls := toolCalls } := by
  rw [wrap] at hw
  by_cases hparallel : params.parallelToolCalls
  · obtain ⟨vs, hvs, hwords⟩ := isText_callsWords h hne fun hsingle => by
      rw [hparallel] at hsingle
      cases hsingle.2
    rw [if_pos hparallel] at hw
    exact parseGeneric_toolCalls hJ (isText_object (.cons ⟨rfl, hwords⟩ .nil)
      (List.cons_ne_nil _ _) (by simp) hw) hvs
  · rw [Bool.not_eq_true] at hparallel
    obtain ⟨c, rfl⟩ := List.length_eq_one_iff.1 (hone hparallel)
    obtain ⟨call, rfl⟩ := List.length_eq_one_iff.1 h.length_eq.symm
    have hc := (List.forall₂_cons.1 h).1
    obtain ⟨v, hv, hwords⟩ := isText_call hc
    rw [if_neg (by simp [hparallel]), callsWords, if_pos ⟨rfl, hparallel⟩] at hw
    refine parseGeneric_toolCall hJ (isText_object (.cons ⟨rfl, hwords⟩ .nil)
      (List.cons_ne_nil _ _) (by simp) hw) hv ?_
    obtain @⟨name, id, arguments, -, -, hid⟩ := hc
    rw [hasId, if_neg (by simp [hparallel])] at hid
    rw [hid]
    rfl

theorem head_callsWords {calls : List ToolCallText} {v : List Char} (hformat : format ≠ generic)
    (hv : v ∈ format.callsWords params calls) : ∃ t, v = '[' :: t := by
  rw [callsWords, if_neg fun h => hformat h.1] at hv
  obtain ⟨_, ⟨_, ⟨_, ⟨o, ho, a, -, rfl⟩, x, -, rfl⟩, y, -, rfl⟩, z, -, rfl⟩ := hv
  obtain rfl := mem_literal.1 ho
  exact ⟨_, rfl⟩

/-- Calls of Firefunction v2 are read behind the word that the parser looks for. -/
theorem parseFirefunctionV2_calls (hJ : J.Correct) {calls : List ToolCallText}
    {toolCalls : List ChatToolCall}
    (h : List.Forall₂ (fun c call => c.Spells J (firefunctionV2.hasId params) call) calls toolCalls)
    (hne : calls ≠ []) (hw : w ∈ firefunctionV2.wrap params (firefunctionV2.callsWords params calls)) :
    commonChatParseFirefunctionV2 J (Utf8.encode w) =
        .ok { role := utf8 "assistant", toolCalls := toolCalls } ↔
      " functools[".toList <+: w := by
  obtain ⟨vs, hvs, hwords⟩ := isText_callsWords h hne (by simp)
  obtain ⟨e, he, v, hv, rfl⟩ := hw
  have htext := hwords v hv
  obtain ⟨t, rfl⟩ := head_callsWords (by simp) hv
  rcases he with he | he
  · obtain rfl := (Language.mem_one _).1 he
    refine iff_of_false ?_ ?_
    · refine parsePrefixed_of_not ?_ fun hprefix => ?_
      · simp [Utf8.encode_cons]
      · obtain ⟨x, hx⟩ : utf8 " functools[" <+: Utf8.encode ('[' :: t) := hprefix
        have htake := congrArg (List.take 1) hx
        rw [List.take_append_of_le_length (by decide), Utf8.encode_cons,
          List.take_append_of_le_length (by decide)] at htake
        exact absurd htake (by decide)
    · rintro ⟨x, hx⟩
      cases hx
  · obtain rfl := mem_literal.1 he
    refine iff_of_true ?_ ⟨t, rfl⟩
    have hinput : Utf8.encode (" functools".toList ++ '[' :: t) =
        utf8 " functools[" ++ Utf8.encode t := by
      rw [utf8, ← Utf8.encode_append]
      rfl
    simp only
    rw [hinput]
    refine parsePrefixed_append hJ (by decide) ?_ htext hvs
    rw [List.drop_append_of_le_length (by decide)]
    rfl

theorem parseMistralNemo_calls (hJ : J.Correct) {calls : List ToolCallText}
    {toolCalls : List ChatToolCall}
    (h : List.Forall₂ (fun c call => c.Spells J (mistralNemo.hasId params) call) calls toolCalls)
    (hne : calls ≠ []) (hw : w ∈ mistralNemo.wrap params (mistralNemo.callsWords params calls)) :
    commonChatParseMistralNemo J (Utf8.encode w) =
      .ok { role := utf8 "assistant", toolCalls := toolCalls } := by
  obtain ⟨vs, hvs, hwords⟩ := isText_callsWords h hne (by simp)
  obtain ⟨u, hu, v, hv, rfl⟩ := hw
  obtain rfl := mem_literal.1 hu
  have hinput : Utf8.encode ("[TOOL_CALLS]".toList ++ v) = utf8 "[TOOL_CALLS]" ++ Utf8.encode v :=
    Utf8.encode_append _ _
  simp only
  rw [hinput]
  refine parsePrefixed_append hJ (by decide) ?_ (hwords v hv) hvs
  rw [Nat.sub_zero, List.drop_left]

theorem parseCommandR7b_calls (hJ : J.Correct) (extractReasoning : Bool)
    {calls : List ToolCallText} {toolCalls : List ChatToolCall}
    (h : List.Forall₂ (fun c call => c.Spells J (commandR7b.hasId params) call) calls toolCalls)
    (hne : calls ≠ []) (hw : w ∈ commandR7b.wrap params (commandR7b.callsWords params calls)) :
    commonChatParseCommandR7b J (Utf8.encode w) extractReasoning =
      .ok { role := utf8 "assistant", toolCalls := toolCalls } := by
  obtain ⟨vs, hvs, hwords⟩ := isText_callsWords h hne (by simp)
  obtain ⟨_, ⟨u, hu, v, hv, rfl⟩, e, he, rfl⟩ := hw
  obtain rfl := mem_literal.1 hu
  obtain rfl := mem_literal.1 he
  have hinput : Utf8.encode ("<|START_ACTION|>".toList ++ v ++ "<|END_ACTION|>".toList) =
      utf8 "<|START_ACTION|>" ++ Utf8.encode v ++ utf8 "<|END_ACTION|>" := by
    rw [Utf8.encode_append, Utf8.encode_append]
    rfl
  simp only
  rw [hinput]
  exact parseCommandR7b_action hJ extractReasoning (hwords v hv) hvs

theorem nil_mem_space : [] ∈ space := .inl (.inl rfl)

theorem mem_object_f {name arguments : Language Char} (hname : "\"f\"".toList ∈ name)
    (harguments : "\x7b\x7d".toList ∈ arguments) :
    "\x7b\"name\":\"f\",\"arguments\":\x7b\x7d\x7d".toList ∈
      object [("name", name), ("arguments", arguments)] := by
  have hkv : ∀ {key : String} {L : Language Char} {u : List Char}, u ∈ L →
      (Json.string key.toList).dump ++ ':' :: u ∈ kv (key, L) := fun {key L u} hu =>
    ⟨_, ⟨_, ⟨_, ⟨_, rfl, [], nil_mem_space, rfl⟩, [':'], rfl, rfl⟩, [], nil_mem_space, rfl⟩, u, hu,
      by simp⟩
  have hjoined : (Json.string "name".toList).dump ++ ':' :: "\"f\"".toList ++ ','
      :: ((Json.string "arguments".toList).dump ++ ':' :: "\x7b\x7d".toList) ∈
      joined comma ([("name", name), ("arguments", arguments)].map kv) :=
    ⟨_, ⟨_, hkv hname, [','], ⟨[','], rfl, [], nil_mem_space, rfl⟩, rfl⟩, _, hkv harguments, by simp⟩
  exact ⟨_, ⟨_, ⟨_, ⟨['\x7b'], rfl, [], nil_mem_space, rfl⟩, _, hjoined, rfl⟩, ['\x7d'], rfl, rfl⟩, [],
    nil_mem_space, rfl⟩

/-- A request with one tool. -/
def oneTool : TemplatesParams where
  tools := [⟨"f".toList, .object []⟩]
  parallelToolCalls := true
  toolChoiceRequired := false
  jsonSchema := none
  extractReasoning := false

end JsonFormat

end LamaServer
