import LamaServer.Proofs.StopWords
import LamaServer.Proofs.ThinkTags

/-!
# Which replies are read

What is asked of `common_chat_parse` is that it returns, and keeps the text where it finds no call.
`ReadsOut` says for each format of which texts that is so. Where the parser reads JSON and nothing
catches what that throws, the text has to be complete from there on.
-/

namespace LamaServer

variable (J : JsonReader)

/-! ## The calls of a reply -/

/-- The value at a key is a string. -/
def HasString (v : Json) (key : String) : Prop := ∃ s, v.atKey key = .ok (.string s)

/-- What `process_tool_call` needs. -/
@[mk_iff]
structure IsToolCall (v : Json) : Prop where
  arguments : v.contains "arguments"
  name : HasString v "name"
  id : v.contains "id" → HasString v "id"

/-- What Command R7B needs. -/
@[mk_iff]
structure IsAction (v : Json) : Prop where
  toolName : HasString v "tool_name"
  parameters : v.contains "parameters"
  toolCallId : HasString v "tool_call_id"

/-- A JSON text that has elements, all of them such. -/
def ListsCalls (IsCall : Json → Prop) (t : Text) : Prop :=
  ∃ v, J.parse t = some v ∧ v.elements ≠ [] ∧ ∀ x ∈ v.elements, IsCall x

/-- What `parse_json_tool_calls` needs: each opening of a call is followed by a JSON value, and this
by a closing pattern. -/
inductive CallsClosed (functionRegex closeRegex : Pattern UInt8) : Text → Prop
  | nil : CallsClosed functionRegex closeRegex []
  | content {t : Text} (h : functionRegex.search t = none) : CallsClosed functionRegex closeRegex t
  | call {t rest : Text} {m close : Pattern.Match UInt8} {arguments : Json}
      (h : functionRegex.search t = some m) (hjson : J.parseJson m.behind = some (arguments, rest))
      (hclose : closeRegex.search rest = some close)
      (hrest : CallsClosed functionRegex closeRegex close.behind) :
      CallsClosed functionRegex closeRegex t

/-! ## What is asked -/

/-- The text of a reply of the generic format. -/
def genericContent (input : Text) : Text :=
  match J.parse input with
  | some (.object members) =>
    if (Json.object members).contains "tool_calls" ∨ (Json.object members).contains "tool_call" then
      input
    else ((members.lookup "response".toList).map responseText).getD input
  | _ => input

/-- A reply with what is behind its reasoning. -/
def withResponse (thought : ChatMsg × Text) : ChatMsg :=
  { thought.1 with content := thought.1.content ++ commandR7bResponse thought.2 }

/-- The text is kept, up to the marks that a format has for reasoning and for the response. -/
def Keeps (input : Text) (msg : ChatMsg) : ChatFormat → Prop
  | .contentOnly | .mistralNemo | .firefunctionV2 | .llama3X | .llama3XWithBuiltinTools
  | .functionaryV31Llama31 => msg.content = input
  | .generic => msg.content = genericContent J input
  | .functionaryV32 => msg.content = input ∨ utf8 "all\n" ++ msg.content = input
  | .deepseekR1 | .hermes2Pro =>
    msg = addReasoning false (thinkParts input).1 (commonChatParseContentOnly (thinkParts input).2)
  | .deepseekR1ExtractReasoning | .hermes2ProExtractReasoning =>
    msg = addReasoning true (thinkParts input).1 (commonChatParseContentOnly (thinkParts input).2)
  | .commandR7b => msg = withResponse (commandR7bThought input false)
  | .commandR7bExtractReasoning => msg = withResponse (commandR7bThought input true)

/-- The reply is read, so the final result can be built of it. -/
structure Replies (format : ChatFormat) (input : Text) : Prop where
  parse : ∃ msg, commonChatParse J input format = .ok msg ∧
    (msg.toolCalls = [] → Keeps J input msg format)
  final : ∀ genToolCallId stop, ∃ choice, finalChoice J genToolCallId stop input format = .ok choice

/-- The texts that are read. -/
def ReadsOut (input : Text) : ChatFormat → Prop
  | .contentOnly | .functionaryV32 | .hermes2Pro | .hermes2ProExtractReasoning => True
  | .generic => ∃ data, J.parse input = some data ∧
    (if data.contains "tool_calls" then
      ∃ calls, data.atKey "tool_calls" = .ok calls ∧ calls.elements ≠ [] ∧
        ∀ x ∈ calls.elements, IsToolCall x
    else if data.contains "tool_call" then
      ∃ call, data.atKey "tool_call" = .ok call ∧ HasString call "name" ∧ call.contains "arguments"
    else data.contains "response")
  | .mistralNemo => ∀ i, input.find (utf8 "[TOOL_CALLS]") 0 = some i →
    ListsCalls J IsToolCall (input.drop (i + (utf8 "[TOOL_CALLS]").length))
  | .firefunctionV2 => ∀ i, input.find (utf8 " functools[") 0 = some i →
    ListsCalls J IsToolCall (input.drop (i + (utf8 " functools").length))
  | .llama3X => CallsClosed J ChatRegex.llamaFunction ChatRegex.llamaClose input
  | .llama3XWithBuiltinTools =>
    (∃ groups, ChatRegex.builtinCall.fullMatch input = some groups ∧
      (J.parse (groups.get 3)).isSome) ∨
    CallsClosed J ChatRegex.llamaFunction ChatRegex.llamaClose input
  | .functionaryV31Llama31 => (ChatRegex.pythonTag.search input).isSome ∨
    CallsClosed J ChatRegex.functionaryV31Function ChatRegex.functionaryV31Close input
  | .deepseekR1 | .deepseekR1ExtractReasoning =>
    ∀ m, ChatRegex.deepseekToolCalls.search (thinkParts input).2 = some m →
      (ChatRegex.deepseekFunction.search (m.groups.get 1)).isSome ∧
        CallsClosed J ChatRegex.deepseekFunction ChatRegex.deepseekClose (m.groups.get 1)
  | .commandR7b | .commandR7bExtractReasoning => ∀ groups,
    ChatRegex.action.fullMatch (commandR7bThought input false).2 = some groups →
      ListsCalls J IsAction (groups.get 1)

/-! ## JSON values -/

section Values

variable (v : Json) (key : String)

theorem exists_atKey : (∃ w, v.atKey key = .ok w) ↔ v.contains key := by
  cases v <;> simp [Json.atKey, Json.contains, Option.isSome_iff_exists]

theorem exists_getString : (∃ t, v.getString = .ok t) ↔ ∃ s, v = .string s := by
  cases v <;> simp [Json.getString, pure, Except.pure, throw, throwThe, MonadExceptOf.throw]

theorem exists_string : (∃ t, (v.atKey key >>= Json.getString) = .ok t) ↔ HasString v key := by
  simp only [Except.bind_eq_ok]
  constructor
  · rintro ⟨t, w, hw, ht⟩
    obtain ⟨s, rfl⟩ := (exists_getString w).1 ⟨t, ht⟩
    exact ⟨s, hw⟩
  · rintro ⟨s, hs⟩
    exact ⟨_, _, hs, rfl⟩

theorem exists_id : (∃ t, (v.idOrEmpty >>= Json.getString) = .ok t) ↔
    (v.contains "id" → HasString v "id") := by
  rw [Json.idOrEmpty]
  split_ifs with hid
  · rw [exists_string]
    exact ⟨fun h _ => h, fun h => h hid⟩
  · exact ⟨fun _ h => absurd h hid, fun _ => ⟨[], rfl⟩⟩

theorem exists_processToolCall : (∃ call, processToolCall v = .ok call) ↔ IsToolCall v := by
  rw [isToolCall_iff, ← exists_atKey, ← exists_string, ← exists_id]
  simp only [processToolCall, Except.bind_eq_ok, Except.pure_eq_ok]
  constructor
  · rintro ⟨_, a, ha, nameJson, hname, name, hname', idJson, hid, id, hid', -⟩
    exact ⟨⟨a, ha⟩, ⟨name, nameJson, hname, hname'⟩, id, idJson, hid, hid'⟩
  · rintro ⟨⟨a, ha⟩, ⟨name, nameJson, hname, hname'⟩, id, idJson, hid, hid'⟩
    exact ⟨_, a, ha, nameJson, hname, name, hname', idJson, hid, id, hid', rfl⟩

theorem exists_genericToolCall : (∃ call, genericToolCall v = .ok call) ↔ IsToolCall v := by
  rw [isToolCall_iff, ← exists_atKey, ← exists_string, ← exists_id]
  simp only [genericToolCall, Except.bind_eq_ok, Except.pure_eq_ok]
  constructor
  · rintro ⟨_, nameJson, hname, name, hname', a, ha, idJson, hid, id, hid', -⟩
    exact ⟨⟨a, ha⟩, ⟨name, nameJson, hname, hname'⟩, id, idJson, hid, hid'⟩
  · rintro ⟨⟨a, ha⟩, ⟨name, nameJson, hname, hname'⟩, id, idJson, hid, hid'⟩
    exact ⟨_, nameJson, hname, name, hname', a, ha, idJson, hid, id, hid', rfl⟩

theorem exists_commandR7bToolCall : (∃ call, commandR7bToolCall v = .ok call) ↔ IsAction v := by
  rw [isAction_iff, ← exists_atKey, ← exists_string, ← exists_string]
  simp only [commandR7bToolCall, Except.bind_eq_ok, Except.pure_eq_ok]
  constructor
  · rintro ⟨_, nameJson, hname, name, hname', a, ha, idJson, hid, id, hid', -⟩
    exact ⟨⟨name, nameJson, hname, hname'⟩, ⟨a, ha⟩, id, idJson, hid, hid'⟩
  · rintro ⟨⟨name, nameJson, hname, hname'⟩, ⟨a, ha⟩, id, idJson, hid, hid'⟩
    exact ⟨_, nameJson, hname, name, hname', a, ha, idJson, hid, id, hid', rfl⟩

end Values

@[simp] theorem liftJson_eq_ok {α : Type} {x : Except Json.Exception α} {a : α} :
    liftJson x = .ok a ↔ x = .ok a := by
  cases x <;> simp [liftJson]

theorem parseOrThrow_eq_ok {t : Text} {v : Json} :
    J.parseOrThrow t = .ok v ↔ J.parse t = some v := Except.ofOption_eq_ok

/-- As many calls as elements. -/
theorem mapM_eq_nil {toCall : Json → Except Json.Exception ChatToolCall} {vs : List Json}
    {calls : List ChatToolCall} (h : vs.mapM toCall = .ok calls) : calls = [] ↔ vs = [] := by
  have hlen := (Except.mapM_eq_ok.1 h).length_eq
  rw [← List.length_eq_zero_iff, ← List.length_eq_zero_iff, hlen]

/-! ## Calls in an array -/

section Arrays

variable {J} {input callPrefix : Text} {rstripPrefix : Nat}

theorem exists_prefixed (hmark : callPrefix ≠ []) :
    (∃ msg, parsePrefixedJsonToolCallArray J input callPrefix rstripPrefix = .ok msg ∧
      (msg.toolCalls = [] → msg.content = input)) ↔
    ∀ i, input.find callPrefix 0 = some i →
      ListsCalls J IsToolCall (input.drop (i + callPrefix.length - rstripPrefix)) := by
  rw [parsePrefixedJsonToolCallArray]
  rcases hfind : input.find callPrefix 0 with _ | i
  · exact ⟨fun _ i hi => (by cases hi), fun _ => ⟨_, rfl, fun _ => rfl⟩⟩
  have hle := ((Text.find_eq_some hmark (Nat.zero_le _)).1 hfind).2.1.add_length_le hmark
  have hpos := List.length_pos_of_ne_nil hmark
  have hcut : input.take i ≠ input := fun h => by
    have := congrArg List.length h
    rw [List.length_take] at this
    omega
  simp only [Except.bind_eq_ok, Except.pure_eq_ok, liftJson_eq_ok, parseOrThrow_eq_ok]
  constructor
  · rintro ⟨_, ⟨v, hv, calls, hcalls, rfl⟩, hkeeps⟩ _ ⟨⟩
    refine ⟨v, hv, fun hnil => hcut (hkeeps ((mapM_eq_nil hcalls).2 hnil)), fun x hx => ?_⟩
    obtain ⟨call, -, hcall⟩ := Except.ok_of_mapM hcalls hx
    exact (exists_processToolCall x).1 ⟨call, hcall⟩
  · intro h
    obtain ⟨v, hv, hne, hall⟩ := h i rfl
    obtain ⟨calls, hcalls⟩ := Except.exists_mapM_eq_ok.2 fun x hx =>
      (exists_processToolCall x).2 (hall x hx)
    exact ⟨_, ⟨v, hv, calls, hcalls, rfl⟩, fun hnil => absurd ((mapM_eq_nil hcalls).1 hnil) hne⟩

theorem genericContent_of_not_response {data : Json} (hparse : J.parse input = some data)
    (h : data.contains "tool_calls" ∨ data.contains "tool_call" ∨ ¬ data.contains "response") :
    genericContent J input = input := by
  rw [genericContent, hparse]
  cases data with
  | object members =>
    simp only []
    split_ifs with hcall
    · rfl
    · have hresponse : ¬ (Json.object members).contains "response" := by tauto
      rw [Json.contains, Option.not_isSome_iff_eq_none] at hresponse
      rw [hresponse]
      rfl
  | _ => rfl

theorem genericContent_of_response {data response : Json} (hparse : J.parse input = some data)
    (hcalls : ¬ data.contains "tool_calls") (hcall : ¬ data.contains "tool_call")
    (h : data.atKey "response" = .ok response) :
    genericContent J input = responseText response := by
  cases data with
  | object members =>
    rw [Json.atKey, Except.ofOption_eq_ok] at h
    simp only [genericContent, hparse]
    rw [if_neg (by tauto), h]
    rfl
  | _ => simp [Json.atKey] at h

theorem exists_generic : (∃ msg, commonChatParseGeneric J input = .ok msg ∧
    (msg.toolCalls = [] → msg.content = genericContent J input)) ↔ ReadsOut J input .generic := by
  have hne : ∀ {data : Json}, J.parse input = some data → input ≠ [] := fun hparse hnil => by
    rw [hnil, J.parse_nil] at hparse
    cases hparse
  simp only [commonChatParseGeneric, liftJson_eq_ok, Except.bind_eq_ok, parseOrThrow_eq_ok,
    ReadsOut]
  constructor
  · rintro ⟨msg, ⟨data, hparse, h⟩, hkeeps⟩
    refine ⟨data, hparse, ?_⟩
    split_ifs at h ⊢ with hcalls hcall hresponse
    · simp only [Except.bind_eq_ok, Except.pure_eq_ok] at h
      obtain ⟨v, hv, calls, hmap, rfl⟩ := h
      refine ⟨v, hv, fun hnil => ?_, fun x hx => ?_⟩
      · have hcontent := hkeeps ((mapM_eq_nil hmap).2 hnil)
        rw [genericContent_of_not_response hparse (.inl hcalls)] at hcontent
        exact hne hparse hcontent.symm
      · obtain ⟨call, -, hx⟩ := Except.ok_of_mapM hmap hx
        exact (exists_genericToolCall x).1 ⟨call, hx⟩
    · simp only [Except.bind_eq_ok, Except.pure_eq_ok] at h
      obtain ⟨v, hv, w, hw, name, hname, v', hv', arguments, harguments, -⟩ := h
      cases hv.symm.trans hv'
      exact ⟨v, hv, (exists_string v "name").1 ⟨name, Except.bind_eq_ok.2 ⟨w, hw, hname⟩⟩,
        (exists_atKey v "arguments").1 ⟨arguments, harguments⟩⟩
    · exact hresponse
    · cases h
      have hcontent := hkeeps rfl
      rw [genericContent_of_not_response hparse (.inr (.inr hresponse))] at hcontent
      exact absurd hcontent.symm (hne hparse)
  · rintro ⟨data, hparse, h⟩
    split_ifs at h with hcalls hcall
    · obtain ⟨v, hv, hnil, hall⟩ := h
      obtain ⟨calls, hmap⟩ := Except.exists_mapM_eq_ok.2 fun x hx =>
        (exists_genericToolCall x).2 (hall x hx)
      refine ⟨{ role := utf8 "assistant", toolCalls := calls }, ⟨data, hparse, ?_⟩, ?_⟩
      · rw [if_pos hcalls]
        simp only [Except.bind_eq_ok, Except.pure_eq_ok]
        exact ⟨v, hv, calls, hmap, rfl⟩
      · exact fun h => absurd ((mapM_eq_nil hmap).1 h) hnil
    · obtain ⟨v, hv, hname, harguments⟩ := h
      obtain ⟨name, hname⟩ := (exists_string v "name").2 hname
      obtain ⟨w, hw, hname⟩ := Except.bind_eq_ok.1 hname
      obtain ⟨arguments, harguments⟩ := (exists_atKey v "arguments").2 harguments
      refine ⟨{ role := utf8 "assistant", toolCalls := [⟨name, arguments.dumpText, []⟩] },
        ⟨data, hparse, ?_⟩, ?_⟩
      · rw [if_neg hcalls, if_pos hcall]
        simp only [Except.bind_eq_ok, Except.pure_eq_ok]
        exact ⟨v, hv, w, hw, name, hname, v, hv, arguments, harguments, rfl⟩
      · exact fun h => absurd h (List.cons_ne_nil _ _)
    · obtain ⟨response, hresponse⟩ := (exists_atKey data "response").2 h
      refine ⟨{ role := utf8 "assistant", content := responseText response },
        ⟨data, hparse, ?_⟩, ?_⟩
      · rw [if_neg hcalls, if_neg hcall, if_pos h]
        simp only [Except.bind_eq_ok, Except.pure_eq_ok]
        exact ⟨response, hresponse, rfl⟩
      · exact fun _ => (genericContent_of_response hparse hcalls hcall hresponse).symm

/-- A text that is an action is no response. -/
theorem commandR7bResponse_ne_nil {rest : Text} {groups : Pattern.Groups UInt8}
    (h : ChatRegex.action.fullMatch rest = some groups) : commandR7bResponse rest ≠ [] := by
  have haction : utf8 "<|END_ACTION|>" ++ [] <:+ rest := Pattern.suffix_of_way_word
    [ChatRegex.text "<|START_ACTION|>", .group 1 (.lazyStar ChatRegex.anyChar)]
    (Pattern.fullMatch_eq_some h)
  rw [commandR7bResponse]
  rcases hr : ChatRegex.response.fullMatch rest with _ | groups'
  · rintro rfl
    exact absurd (List.suffix_nil.1 haction) (by decide)
  · have hresponse : utf8 "<|END_RESPONSE|>" ++ [] <:+ rest := Pattern.suffix_of_way_word
      [.opt (ChatRegex.text "<|START_RESPONSE|>"), .group 1 (.lazyStar ChatRegex.anyChar)]
      (Pattern.fullMatch_eq_some hr)
    have hsuffix := List.suffix_of_suffix_length_le haction hresponse (by decide)
    exact absurd hsuffix (by decide)

theorem exists_commandR7b (extractReasoning : Bool) :
    (∃ msg, commonChatParseCommandR7b J input extractReasoning = .ok msg ∧
      (msg.toolCalls = [] → msg = withResponse (commandR7bThought input extractReasoning))) ↔
    ∀ groups,
      ChatRegex.action.fullMatch (commandR7bThought input extractReasoning).2 = some groups →
        ListsCalls J IsAction (groups.get 1) := by
  rw [commonChatParseCommandR7b]
  rcases commandR7bThought input extractReasoning with ⟨result, rest⟩
  simp only []
  rcases hmatch : ChatRegex.action.fullMatch rest with _ | groups
  · exact ⟨fun _ i hi => (by cases hi), fun _ => ⟨_, rfl, fun _ => rfl⟩⟩
  simp only [Except.bind_eq_ok, Except.pure_eq_ok, liftJson_eq_ok, parseOrThrow_eq_ok]
  constructor
  · rintro ⟨_, ⟨v, hv, calls, hcalls, rfl⟩, hkeeps⟩ _ ⟨⟩
    refine ⟨v, hv, fun hnil => ?_, fun x hx => ?_⟩
    · have hresponse := congrArg ChatMsg.content (hkeeps ((mapM_eq_nil hcalls).2 hnil))
      exact commandR7bResponse_ne_nil hmatch (List.self_eq_append_right.1 hresponse)
    · obtain ⟨call, -, hcall⟩ := Except.ok_of_mapM hcalls hx
      exact (exists_commandR7bToolCall x).1 ⟨call, hcall⟩
  · intro h
    obtain ⟨v, hv, hne, hall⟩ := h groups rfl
    obtain ⟨calls, hcalls⟩ := Except.exists_mapM_eq_ok.2 fun x hx =>
      (exists_commandR7bToolCall x).2 (hall x hx)
    exact ⟨_, ⟨v, hv, calls, hcalls, rfl⟩, fun hnil => absurd ((mapM_eq_nil hcalls).1 hnil) hne⟩

end Arrays

/-! ## Calls one after another -/

section Loop

variable {J} {input : Text} {functionRegex : Consuming} {closeRegex : Pattern UInt8}
  {allowRawPython : Bool}

theorem search_nil (functionRegex : Consuming) : functionRegex.1.search [] = none := by
  rcases h : functionRegex.1.search [] with _ | m
  · rfl
  · have hle := Pattern.length_behind_le h
    have hpos := functionRegex.2
    rw [List.length_nil] at hle
    omega

/-- Calls are only added, and one for an opening that is found. -/
theorem loop_toolCalls {result msg : ChatMsg} {t : Text} (h : parseJsonToolCallsLoop J input
    functionRegex closeRegex allowRawPython result t = .ok msg) :
    result.toolCalls.length ≤ msg.toolCalls.length ∧
      ((functionRegex.1.search t).isSome → result.toolCalls.length < msg.toolCalls.length) := by
  fun_induction parseJsonToolCallsLoop J input functionRegex closeRegex allowRawPython result t with
  | case1 result =>
    cases h
    simp [search_nil]
  | case2 result t ht hnone =>
    cases h
    simp [hnone]
  | case3 => cases h
  | case4 result t ht m hm name result₁ arguments rest hjson close hclose ih =>
    have hle := (ih h).1
    rw [List.length_append, List.length_singleton] at hle
    exact ⟨Nat.le_of_succ_le hle, fun _ => hle⟩
  | case5 result t ht m hm name result₁ hjson hpython =>
    obtain ⟨arguments, -, h⟩ := Except.bind_eq_ok.1 h
    cases h
    simp [result₁]
  | case6 => cases h

/-- Without an opening all is content. -/
theorem loop_content {result : ChatMsg} {t : Text} (h : functionRegex.1.search t = none) :
    parseJsonToolCallsLoop J input functionRegex closeRegex allowRawPython result t =
      .ok { result with content := result.content ++ t } := by
  rw [parseJsonToolCallsLoop]
  split_ifs with ht
  · rw [ht, List.append_nil]
    rfl
  · split
    · rfl
    · next m hm => rw [h] at hm; cases hm

theorem CallsClosed.of_search {t : Text} {m : Pattern.Match UInt8}
    (h : CallsClosed J functionRegex.1 closeRegex t) (hm : functionRegex.1.search t = some m) :
    ∃ arguments rest close, J.parseJson m.behind = some (arguments, rest) ∧
      closeRegex.search rest = some close ∧
        CallsClosed J functionRegex.1 closeRegex close.behind := by
  cases h with
  | nil =>
    rw [search_nil] at hm
    cases hm
  | content h =>
    rw [h] at hm
    cases hm
  | call h hjson hclose hrest =>
    cases h.symm.trans hm
    exact ⟨_, _, _, hjson, hclose, hrest⟩

theorem exists_loop (input : Text) (result : ChatMsg) {t : Text} :
    (∃ msg, parseJsonToolCallsLoop J input functionRegex closeRegex false result t = .ok msg) ↔
      CallsClosed J functionRegex.1 closeRegex t := by
  fun_induction parseJsonToolCallsLoop J input functionRegex closeRegex false result t with
  | case1 result => exact ⟨fun _ => .nil, fun _ => ⟨result, rfl⟩⟩
  | case2 result t ht hnone => exact ⟨fun _ => .content hnone, fun _ => ⟨_, rfl⟩⟩
  | case3 result t ht m hm arguments rest hjson hclose =>
    refine ⟨fun ⟨_, h⟩ => (by cases h), fun h => ?_⟩
    obtain ⟨_, _, close, hjson', hclose', -⟩ := h.of_search hm
    cases hjson.symm.trans hjson'
    rw [hclose] at hclose'
    cases hclose'
  | case4 result t ht m hm name result₁ arguments rest hjson close hclose ih =>
    rw [ih]
    refine ⟨.call hm hjson hclose, fun h => ?_⟩
    obtain ⟨_, _, close', hjson', hclose', hrest⟩ := h.of_search hm
    cases hjson.symm.trans hjson'
    cases hclose.symm.trans hclose'
    exact hrest
  | case5 result t ht m hm name result₁ hjson hpython => exact absurd hpython.1 Bool.false_ne_true
  | case6 result t ht m hm name hjson hpython =>
    refine ⟨fun ⟨_, h⟩ => (by cases h), fun h => ?_⟩
    obtain ⟨_, _, _, hjson', -⟩ := h.of_search hm
    rw [hjson] at hjson'
    cases hjson'

/-- `parse_json_tool_calls` keeps a text in which it finds no call. -/
theorem parseJsonToolCalls_spec {msg : ChatMsg}
    (h : parseJsonToolCalls J input functionRegex closeRegex allowRawPython = .ok msg) :
    msg.toolCalls = [] ↔ functionRegex.1.search input = none := by
  obtain ⟨result, hloop, h⟩ := Except.bind_eq_ok.1 h
  have hcalls : msg.toolCalls = result.toolCalls := by
    cases h
    split_ifs <;> rfl
  rw [hcalls]
  rcases hm : functionRegex.1.search input with _ | m
  · rw [loop_content hm] at hloop
    cases hloop
    simp
  · have hlt := (loop_toolCalls hloop).2 (by rw [hm]; rfl)
    refine iff_of_false (fun hnil => ?_) (by simp)
    rw [hnil] at hlt
    exact absurd hlt (Nat.not_lt_zero _)

theorem parseJsonToolCalls_of_none (h : functionRegex.1.search input = none) :
    parseJsonToolCalls J input functionRegex closeRegex allowRawPython =
      .ok (commonChatParseContentOnly input) := by
  rw [parseJsonToolCalls, loop_content h]
  rfl

theorem parseJsonToolCalls_returns (functionRegex : Consuming) :
    (∃ msg, parseJsonToolCalls J input functionRegex closeRegex false = .ok msg) ↔
      CallsClosed J functionRegex.1 closeRegex input := by
  rw [← exists_loop input { role := utf8 "assistant" }]
  simp only [parseJsonToolCalls, Except.bind_eq_ok, Except.pure_eq_ok]
  exact ⟨fun ⟨_, result, h, _⟩ => ⟨result, h⟩, fun ⟨result, h⟩ => ⟨_, result, h, rfl⟩⟩

theorem exists_parseJsonToolCalls (functionRegex : Consuming) :
    (∃ msg, parseJsonToolCalls J input functionRegex closeRegex false = .ok msg ∧
      (msg.toolCalls = [] → msg.content = input)) ↔
    CallsClosed J functionRegex.1 closeRegex input := by
  rw [← parseJsonToolCalls_returns]
  refine exists_congr fun msg => and_iff_left_of_imp fun h hnil => ?_
  have hnone := (parseJsonToolCalls_spec h).1 hnil
  rw [parseJsonToolCalls_of_none hnone] at h
  rw [← Except.ok.inj h]
  rfl

end Loop

/-! ## What is no UTF-8 -/

theorem dumpCode_encode (s : List Char) :
    dumpCode (Utf8.encode s) = .ok (Json.object [("code".toList, .string s)]).dumpText := by
  rw [dumpCode, textChars_encode]
  rfl

theorem dumpMember_encode (key : List Char) (v : Json) :
    dumpMember (Utf8.encode key) v = .ok (Json.object [(key, v)]).dumpText := by
  rw [dumpMember, textChars_encode]
  rfl

/-- Code behind the tag of UTF-8 is UTF-8. -/
theorem dumpCode_of_pythonTag {s : List Char} {m : Pattern.Match UInt8}
    (h : ChatRegex.pythonTag.search (Utf8.encode s) = some m) :
    ∃ arguments, dumpCode (m.groups.get 1) = .ok arguments := by
  obtain ⟨ht, -⟩ := Pattern.search_spec h
  obtain ⟨v, g, htag, u, h', ⟨h'', ⟨w, -, hw, rfl⟩, hgroup⟩, u', g', ⟨hnil, rfl, rfl⟩, hu, hg⟩ :=
    Pattern.way_of_search h
  obtain ⟨hfound, rfl⟩ := (Pattern.way_word _).1 htag
  have hu : u' = [] := List.isEmpty_iff.1 hnil
  have hcode : m.groups.get 1 = v := by
    rw [hg, hgroup, hu]
    simp [Pattern.Groups.get]
  have htag : utf8 "<|python_tag|>" = utf8 "<|python_tag|" ++ [ascii '>'] := by decide
  have hinput : Utf8.encode s = (m.before ++ utf8 "<|python_tag|") ++ ascii '>' :: v := by
    rw [ht, hfound, htag, List.append_assoc, List.append_assoc, List.singleton_append]
  obtain ⟨code, hv⟩ := Utf8.Pending.encode_behind hinput (by decide)
  rw [hcode, hv]
  exact ⟨_, dumpCode_encode code⟩

theorem isWordChar_ascii {c : UInt8} (h : ChatRegex.isWordChar c) : c.toNat < 0x80 := by
  have h9 : (ascii '9').toNat = 57 := rfl
  have hZ : (ascii 'Z').toNat = 90 := rfl
  have hz : (ascii 'z').toNat = 122 := rfl
  have hunderscore : (ascii '_').toNat = 95 := rfl
  simp only [ChatRegex.isWordChar, isAlnum, decide_eq_true_eq, UInt8.le_iff_toNat_le,
    ← UInt8.toNat_inj] at h
  omega

/-- The name of an argument of a builtin tool is UTF-8. -/
theorem dumpMember_of_builtinCall {t : Text} {groups : Pattern.Groups UInt8}
    (h : ChatRegex.builtinCall.fullMatch t = some groups) (v : Json) :
    ∃ arguments, dumpMember (groups.get 2) v = .ok arguments := by
  have hword : (Pattern.group 2 (.plus ChatRegex.isWordChar)).Checks
      fun i w => i = 2 → ∀ c ∈ w, ChatRegex.isWordChar c := by
    refine ⟨⟨trivial, trivial⟩, fun t u g h hway _ => ?_⟩
    obtain ⟨_, _, ⟨c, hc, rfl, rfl⟩, w, hw, rfl, rfl⟩ := hway
    have htake : (c :: (w ++ u)).take ((c :: (w ++ u)).length - u.length) = c :: w := by
      rw [← List.cons_append, List.length_append, Nat.add_sub_cancel, List.take_left]
    rw [htake]
    exact List.forall_mem_cons.2 ⟨hc, hw⟩
  have hchecks : ChatRegex.builtinCall.Checks
      fun i w => i = 2 → ∀ c ∈ w, ChatRegex.isWordChar c := by
    have hother : ∀ {i : Nat} {r : Pattern UInt8}, i ≠ 2 → r.Checks
        (fun i w => i = 2 → ∀ c ∈ w, ChatRegex.isWordChar c) → (Pattern.group i r).Checks
          fun i w => i = 2 → ∀ c ∈ w, ChatRegex.isWordChar c :=
      fun hi hr => ⟨hr, fun _ _ _ _ _ h => absurd h hi⟩
    refine Pattern.checks_seqs.2 ?_
    simp only [List.forall_mem_cons, ChatRegex.text, Pattern.checks_word, ChatRegex.spaces]
    exact ⟨trivial, trivial, hother (by decide) ⟨trivial, trivial⟩, trivial, trivial, trivial,
      trivial, trivial, trivial, trivial, hword, trivial, trivial, trivial,
      hother (by decide) trivial, trivial, fun _ h => absurd h List.not_mem_nil⟩
  obtain ⟨key, hkey⟩ : ∃ key, groups.get 2 = Utf8.encode key := by
    unfold Pattern.Groups.get
    rcases hlookup : groups.lookup 2 with _ | w
    · exact ⟨[], rfl⟩
    · obtain ⟨l, l', hgroups, -⟩ := List.lookup_eq_some_iff.1 hlookup
      have hmem : (2, w) ∈ groups := by simp [hgroups]
      rcases (Pattern.fullMatch_eq_some h).checked hchecks (2, w) hmem with hmem | hall
      · cases hmem
      · exact Utf8.Pending.encode_ascii fun c hc => isWordChar_ascii (hall rfl c hc)
  rw [hkey]
  exact ⟨_, dumpMember_encode key v⟩

/-! ## The formats -/

section Formats

variable {J} {input : Text}

theorem exists_functionaryV31 (s : List Char) :
    (∃ msg, commonChatParseFunctionaryV31Llama31 J (Utf8.encode s) = .ok msg ∧
      (msg.toolCalls = [] → msg.content = Utf8.encode s)) ↔
    ReadsOut J (Utf8.encode s) .functionaryV31Llama31 := by
  rw [commonChatParseFunctionaryV31Llama31, ReadsOut]
  rcases hm : ChatRegex.pythonTag.search (Utf8.encode s) with _ | m
  · rw [exists_parseJsonToolCalls]
    simp
  · obtain ⟨arguments, hcode⟩ := dumpCode_of_pythonTag hm
    refine iff_of_true ⟨_, Except.bind_eq_ok.2 ⟨arguments, liftJson_eq_ok.2 hcode, rfl⟩, ?_⟩
      (.inl rfl)
    exact fun h => absurd h (List.cons_ne_nil _ _)

theorem addReasoning_toolCalls (b : Bool) (r : Text) (msg : ChatMsg) :
    (addReasoning b r msg).toolCalls = msg.toolCalls := by
  unfold addReasoning
  split_ifs <;> rfl

theorem addReasoning_inj {b : Bool} {r : Text} {msg msg' : ChatMsg}
    (h : addReasoning b r msg = addReasoning b r msg') : msg.content = msg'.content := by
  unfold addReasoning at h
  split_ifs at h
  · exact (ChatMsg.mk.inj h).2.1
  · exact List.append_cancel_left (ChatMsg.mk.inj h).2.1
  · rw [h]

/-- Behind the reasoning the text is kept if it is kept there. -/
theorem exists_prelude {restParser : Text → Except ChatError ChatMsg} {b : Bool} :
    (∃ msg, handleThinkTagPrelude input b restParser = .ok msg ∧ (msg.toolCalls = [] →
      msg = addReasoning b (thinkParts input).1
        (commonChatParseContentOnly (thinkParts input).2))) ↔
    ∃ msg, restParser (thinkParts input).2 = .ok msg ∧ (msg.toolCalls = [] →
      addReasoning b (thinkParts input).1 msg =
        addReasoning b (thinkParts input).1 (commonChatParseContentOnly (thinkParts input).2)) := by
  rw [handleThinkTagPrelude_eq]
  simp only [Except.map_eq_ok]
  constructor
  · rintro ⟨_, ⟨msg, hmsg, rfl⟩, h⟩
    rw [addReasoning_toolCalls] at h
    exact ⟨msg, hmsg, h⟩
  · rintro ⟨msg, hmsg, h⟩
    refine ⟨_, ⟨msg, hmsg, rfl⟩, ?_⟩
    rwa [addReasoning_toolCalls]

theorem exists_deepseek (b : Bool) :
    (∃ msg, commonChatParseDeepseekR1 J input b = .ok msg ∧ (msg.toolCalls = [] →
      msg = addReasoning b (thinkParts input).1
        (commonChatParseContentOnly (thinkParts input).2))) ↔
    ReadsOut J input .deepseekR1 := by
  rw [commonChatParseDeepseekR1, exists_prelude, ReadsOut, deepseekRest]
  rcases hm : ChatRegex.deepseekToolCalls.search (thinkParts input).2 with _ | m
  · exact iff_of_true ⟨_, rfl, fun _ => rfl⟩ fun m h => by cases h
  have hrest : (thinkParts input).2 ≠ [] := fun hnil => by
    have hle := Pattern.length_behind_le hm
    have hpos : 0 < ChatRegex.deepseekToolCalls.minLength := by decide
    rw [hnil, List.length_nil] at hle
    omega
  simp only [Option.some.injEq, forall_eq', Except.bind_eq_ok, Except.pure_eq_ok]
  rw [← parseJsonToolCalls_returns ⟨ChatRegex.deepseekFunction, by decide⟩]
  constructor
  · rintro ⟨_, ⟨msg, hmsg, rfl⟩, hkeeps⟩
    refine ⟨?_, msg, hmsg⟩
    by_contra hnone
    rw [Option.not_isSome_iff_eq_none] at hnone
    have hcontent := addReasoning_inj (hkeeps ((parseJsonToolCalls_spec hmsg).2 hnone))
    exact hrest hcontent.symm
  · rintro ⟨hsome, msg, hmsg⟩
    refine ⟨_, ⟨msg, hmsg, rfl⟩, fun hnil => ?_⟩
    have hnone := (parseJsonToolCalls_spec hmsg).1 hnil
    rw [hnone] at hsome
    cases hsome

/-! ### Where all that is thrown is caught -/

theorem liftJson_ne_assertion {α : Type} (x : Except Json.Exception α) :
    liftJson x ≠ .error .assertion := by
  cases x <;> simp [liftJson]

theorem bind_ne_assertion {α β : Type} {x : Except ChatError α} {f : α → Except ChatError β}
    (hx : x ≠ .error .assertion) (hf : ∀ a, f a ≠ .error .assertion) :
    (x >>= f) ≠ .error .assertion := by
  cases x with
  | ok a => exact hf a
  | error e => exact fun h => hx (congrArg Except.error (Except.error.inj h))

theorem catchException_cases {α : Type} {x : Except ChatError α} (handler : Except ChatError α)
    (hx : x ≠ .error .assertion) :
    (∃ a, x = .ok a ∧ catchException x handler = .ok a) ∨ catchException x handler = handler := by
  rcases x with (_ | _ | _) | a
  · exact .inr rfl
  · exact .inr rfl
  · exact absurd rfl hx
  · exact .inl ⟨a, rfl, rfl⟩

theorem loop_ne_assertion {functionRegex : Consuming} {closeRegex : Pattern UInt8}
    {allowRawPython : Bool} {result : ChatMsg} {t : Text} :
    parseJsonToolCallsLoop J input functionRegex closeRegex allowRawPython result t ≠
      .error .assertion := by
  fun_induction parseJsonToolCallsLoop J input functionRegex closeRegex allowRawPython result t with
  | case4 result t ht m hm name result₁ arguments rest hjson close hclose ih => exact ih
  | case5 => exact bind_ne_assertion (liftJson_ne_assertion _) fun _ => by simp [pure, Except.pure]
  | _ => simp [throw, throwThe, MonadExceptOf.throw, pure, Except.pure]

theorem parseJsonToolCalls_ne_assertion {functionRegex : Consuming} {closeRegex : Pattern UInt8}
    {allowRawPython : Bool} :
    parseJsonToolCalls J input functionRegex closeRegex allowRawPython ≠ .error .assertion :=
  bind_ne_assertion loop_ne_assertion fun _ => by simp [pure, Except.pure]

theorem functionaryV32Calls_spec (J : JsonReader) (input content t : Text)
    (h : content = [] ∧ t = input ∨ (ChatRegex.functionaryV32Function.search t).isSome) :
    ∃ msg, functionaryV32Calls J input content t = .ok msg ∧
      (msg.toolCalls = [] → msg.content = input) := by
  have hne : (do
      let res ← parseJsonToolCalls J t ⟨ChatRegex.functionaryV32Function, by decide⟩
        ChatRegex.functionaryV32Close true
      pure { res with content := content ++ res.content } : Except ChatError ChatMsg) ≠
        .error .assertion :=
    bind_ne_assertion parseJsonToolCalls_ne_assertion fun _ => by simp [pure, Except.pure]
  rcases catchException_cases (pure { role := utf8 "assistant", content := input }) hne with
    ⟨msg, hmsg, hcatch⟩ | hcatch
  · refine ⟨msg, hcatch, fun hnil => ?_⟩
    obtain ⟨res, hres, hmsg⟩ := Except.bind_eq_ok.1 hmsg
    cases hmsg
    have hnone := (parseJsonToolCalls_spec hres).1 hnil
    rcases h with ⟨rfl, rfl⟩ | hsome
    · rw [parseJsonToolCalls_of_none hnone] at hres
      cases hres
      rfl
    · simp only [] at hnone
      rw [hnone] at hsome
      cases hsome
  · exact ⟨_, hcatch, fun _ => rfl⟩

theorem exists_functionaryV32 : ∃ msg, commonChatParseFunctionaryV32 J input = .ok msg ∧
    (msg.toolCalls = [] → msg.content = input ∨ utf8 "all\n" ++ msg.content = input) := by
  unfold commonChatParseFunctionaryV32 parseChatLiteral
  split_ifs with hall
  · have hinput := List.prefix_append_drop (List.isPrefixOf_iff_prefix.1 hall)
    dsimp only
    rcases hm : ChatRegex.functionaryV32Function.search (input.drop (utf8 "all\n").length)
      with _ | m
    · exact ⟨_, rfl, fun _ => .inr hinput.symm⟩
    · have hsome : (ChatRegex.functionaryV32Function.search (m.found ++ m.behind)).isSome := by
        rw [Pattern.search_of_matchHere (Pattern.search_spec hm).2]
        rfl
      obtain ⟨msg, hmsg, hkeeps⟩ := functionaryV32Calls_spec J input m.before _ (.inr hsome)
      exact ⟨msg, hmsg, fun hnil => .inl (hkeeps hnil)⟩
  · obtain ⟨msg, hmsg, hkeeps⟩ := functionaryV32Calls_spec J input [] input (.inl ⟨rfl, rfl⟩)
    exact ⟨msg, hmsg, fun hnil => .inl (hkeeps hnil)⟩

theorem expectCloser_ne_assertion {closer t : Text} {what : String} :
    expectCloser closer what t ≠ .error .assertion := by
  unfold expectCloser
  split_ifs
  · simp [pure, Except.pure]
  · rcases parseChatLiteral t closer with _ | u <;>
      simp [pure, Except.pure, throw, throwThe, MonadExceptOf.throw]

theorem hermesClose_ne_assertion {closeTag blockEnd t : Text} :
    hermesClose closeTag blockEnd t ≠ .error .assertion :=
  bind_ne_assertion expectCloser_ne_assertion fun _ =>
    bind_ne_assertion expectCloser_ne_assertion fun _ => by simp [pure, Except.pure]

/-- A group of one or more characters between two texts. -/
theorem way_between {open_ close : String} {i : Nat} {p : UInt8 → Bool} {t u : Text}
    {g h : Pattern.Groups UInt8}
    (hway : (Pattern.seqs [ChatRegex.text open_, .group i (.plus p), ChatRegex.text close]).Way
      t g u h) :
    ∃ w, w ≠ [] ∧ h = (i, w) :: g ∧ t = utf8 open_ ++ (w ++ (utf8 close ++ u)) := by
  obtain ⟨v, _, hopen, v', _, ⟨_, ⟨_, _, ⟨c, -, hc, rfl⟩, w, -, hw, rfl⟩, rfl⟩, _, _, hclose, rfl,
    rfl⟩ := hway
  obtain ⟨rfl, rfl⟩ := (Pattern.way_word _).1 hopen
  obtain ⟨rfl, rfl⟩ := (Pattern.way_word _).1 hclose
  subst hc hw
  refine ⟨c :: w, List.cons_ne_nil c w, ?_, rfl⟩
  have htake : (c :: (w ++ (utf8 close ++ u))).take
      ((c :: (w ++ (utf8 close ++ u))).length - (utf8 close ++ u).length) = c :: w := by
    rw [← List.cons_append, List.length_append, Nat.add_sub_cancel, List.take_left]
  rw [htake]

/-- An opening has a named call or the name of a function. -/
theorem hermesOpen_named {t : Text} {m : Pattern.Match UInt8}
    (h : ChatRegex.hermesOpen.search t = some m) (hnamed : m.groups.lookup 3 = none) :
    m.groups.get 4 ≠ [] ∨ m.groups.get 5 ≠ [] := by
  rcases Pattern.way_of_search h with hnamed' | hfunction
  · obtain ⟨_, g, -, _, g', -, _, _, ⟨h', -, rfl⟩, -, hg⟩ := hnamed'
    rw [hg] at hnamed
    cases hnamed
  · obtain ⟨_, g, hname, _, _, ⟨_, ⟨_, -, -, rfl⟩, rfl⟩, -, hg⟩ := hfunction
    rw [hg]
    rcases hname with hname | hname
    · obtain ⟨w, hw, rfl, -⟩ := way_between hname
      exact .inl hw
    · obtain ⟨w, hw, rfl, -⟩ := way_between hname
      exact .inr hw

theorem hermesNamedCall_ne_assertion {openTag blockEnd t : Text} :
    hermesNamedCall J openTag blockEnd t ≠ .error .assertion := by
  unfold hermesNamedCall
  rcases J.parseJson t with _ | ⟨toolCall, rest⟩
  · simp [pure, Except.pure]
  · by_cases hcall : toolCall.contains "name" ∧ toolCall.contains "arguments"
    · simp only [if_pos hcall]
      exact bind_ne_assertion (liftJson_ne_assertion _) fun _ =>
        bind_ne_assertion hermesClose_ne_assertion fun _ => by simp [pure, Except.pure]
    · simp [hcall, pure, Except.pure]

theorem hermesFunctionCall_ne_assertion {functionName blockEnd t : Text} (h : functionName ≠ []) :
    hermesFunctionCall J functionName blockEnd t ≠ .error .assertion := by
  unfold hermesFunctionCall
  rw [if_neg h]
  rcases J.parseJson t with _ | ⟨arguments, rest⟩
  · simp [pure, Except.pure]
  · exact bind_ne_assertion hermesClose_ne_assertion fun _ => by simp [pure, Except.pure]

theorem hermesCall_ne_assertion {t : Text} {m : Pattern.Match UInt8}
    (h : ChatRegex.hermesOpen.search t = some m) : hermesCall J m ≠ .error .assertion := by
  unfold hermesCall
  rcases hnamed : m.groups.lookup 3 with _ | named
  · have hname := hermesOpen_named h hnamed
    refine hermesFunctionCall_ne_assertion ?_
    split_ifs <;> tauto
  · exact hermesNamedCall_ne_assertion

theorem hermesLoop_ne_assertion (msg : ChatMsg) (t : Text) :
    hermesLoop J msg t ≠ .error .assertion := by
  fun_induction hermesLoop J msg t with
  | case1 => simp [pure, Except.pure]
  | case2 => simp [pure, Except.pure]
  | case3 msg t ht m hm e hcall =>
    have hne := hermesCall_ne_assertion (J := J) hm
    rw [hcall] at hne
    exact fun h => hne (congrArg Except.error (Except.error.inj h))
  | case4 msg t ht m hm msg₁ call rest hcall ih => exact ih
  | case5 msg t ht m hm msg₁ hcall ih => exact ih

/-- Without a call all is content. -/
theorem hermesLoop_content {msg res : ChatMsg} {t : Text} (h : hermesLoop J msg t = .ok res) :
    msg.toolCalls.length ≤ res.toolCalls.length ∧ (res.toolCalls = [] →
      res = { msg with content := msg.content ++ t }) := by
  fun_induction hermesLoop J msg t with
  | case1 msg =>
    cases h
    simp
  | case2 msg t ht hnone =>
    cases h
    simp
  | case3 => cases h
  | case4 msg t ht m hm msg₁ call rest hcall ih =>
    have hle := (ih h).1
    rw [List.length_append, List.length_singleton] at hle
    refine ⟨Nat.le_of_succ_le hle, fun hnil => ?_⟩
    rw [hnil] at hle
    exact absurd hle (Nat.not_succ_le_zero _)
  | case5 msg t ht m hm msg₁ hcall ih =>
    obtain ⟨hle, hcontent⟩ := ih h
    refine ⟨hle, fun hnil => ?_⟩
    rw [hcontent hnil, (Pattern.search_spec hm).1]
    simp [msg₁]

theorem hermesRest_spec (t : Text) : ∃ msg, hermesRest J t = .ok msg ∧
    (msg.toolCalls = [] → msg = commonChatParseContentOnly t) := by
  rcases catchException_cases (pure { role := utf8 "assistant", content := t })
      (hermesLoop_ne_assertion (J := J) { role := utf8 "assistant" } t) with
    ⟨msg, hmsg, hcatch⟩ | hcatch
  · exact ⟨msg, hcatch, (hermesLoop_content hmsg).2⟩
  · exact ⟨_, hcatch, fun _ => rfl⟩

theorem exists_hermes (b : Bool) : ∃ msg, commonChatParseHermes2Pro J input b = .ok msg ∧
    (msg.toolCalls = [] → msg = addReasoning b (thinkParts input).1
      (commonChatParseContentOnly (thinkParts input).2)) := by
  rw [commonChatParseHermes2Pro, exists_prelude]
  obtain ⟨msg, hmsg, hkeeps⟩ := hermesRest_spec (J := J) (thinkParts input).2
  exact ⟨msg, hmsg, fun hnil => congrArg _ (hkeeps hnil)⟩

theorem builtinToolCall_eq_ok {groups : Pattern.Groups UInt8} {msg : ChatMsg} :
    builtinToolCall J groups = .ok msg ↔ ∃ v arguments, J.parse (groups.get 3) = some v ∧
      dumpMember (groups.get 2) v = .ok arguments ∧
        { role := utf8 "assistant", toolCalls := [⟨groups.get 1, arguments, []⟩] } = msg := by
  simp only [builtinToolCall, liftJson_eq_ok, Except.bind_eq_ok, Except.pure_eq_ok,
    parseOrThrow_eq_ok]
  exact ⟨fun ⟨v, hv, arguments, h⟩ => ⟨v, arguments, hv, h⟩,
    fun ⟨v, arguments, hv, h⟩ => ⟨v, hv, arguments, h⟩⟩

theorem exists_llama31 (withBuiltinTools : Bool) :
    (∃ msg, commonChatParseLlama31 J input withBuiltinTools = .ok msg ∧
      (msg.toolCalls = [] → msg.content = input)) ↔
    withBuiltinTools ∧ (∃ groups, ChatRegex.builtinCall.fullMatch input = some groups ∧
      (J.parse (groups.get 3)).isSome) ∨
    CallsClosed J ChatRegex.llamaFunction ChatRegex.llamaClose input := by
  rw [← exists_parseJsonToolCalls ⟨ChatRegex.llamaFunction, by decide⟩,
    commonChatParseLlama31]
  rcases withBuiltinTools with _ | _
  · simp
  rcases hmatch : ChatRegex.builtinCall.fullMatch input with _ | groups
  · simp
  have hne : builtinToolCall J groups ≠ .error .assertion := liftJson_ne_assertion _
  simp only [if_true, true_and, Option.some.injEq, exists_eq_left']
  rcases hparse : J.parse (groups.get 3) with _ | v
  · rcases catchException_cases (parseJsonToolCalls J input
      ⟨ChatRegex.llamaFunction, by decide⟩ ChatRegex.llamaClose false) hne with
      ⟨msg, hmsg, -⟩ | hcatch
    · obtain ⟨v, -, hv, -⟩ := builtinToolCall_eq_ok.1 hmsg
      rw [hparse] at hv
      cases hv
    · rw [hcatch]
      simp
  · obtain ⟨arguments, harguments⟩ := dumpMember_of_builtinCall hmatch v
    have hcall := builtinToolCall_eq_ok.2 ⟨v, arguments, hparse, harguments, rfl⟩
    rw [hcall]
    exact iff_of_true ⟨_, rfl, fun h => absurd h (List.cons_ne_nil _ _)⟩ (.inl rfl)

theorem commandR7bThought_snd (b : Bool) :
    (commandR7bThought input b).2 = (commandR7bThought input false).2 := by
  unfold commandR7bThought
  rcases ChatRegex.thought.fullMatch input with _ | groups <;> rfl

/-- Whether the reply can be parsed, the text being kept where there are no calls. -/
theorem exists_parse (format : ChatFormat) (s : List Char) :
    (∃ msg, commonChatParse J (Utf8.encode s) format = .ok msg ∧
      (msg.toolCalls = [] → Keeps J (Utf8.encode s) msg format)) ↔
    ReadsOut J (Utf8.encode s) format := by
  cases format with
  | contentOnly => exact iff_of_true ⟨_, rfl, fun _ => rfl⟩ trivial
  | generic => exact exists_generic
  | mistralNemo => exact exists_prefixed (by decide)
  | llama3X =>
    refine (exists_llama31 false).trans ?_
    simp [ReadsOut]
  | llama3XWithBuiltinTools =>
    refine (exists_llama31 true).trans ?_
    simp [ReadsOut]
  | deepseekR1 => exact exists_deepseek false
  | deepseekR1ExtractReasoning => exact exists_deepseek true
  | firefunctionV2 => exact exists_prefixed (by decide)
  | functionaryV32 => exact iff_of_true exists_functionaryV32 trivial
  | functionaryV31Llama31 => exact exists_functionaryV31 s
  | hermes2Pro => exact iff_of_true (exists_hermes false) trivial
  | hermes2ProExtractReasoning => exact iff_of_true (exists_hermes true) trivial
  | commandR7b => exact exists_commandR7b false
  | commandR7bExtractReasoning =>
    refine (exists_commandR7b true).trans ?_
    rw [commandR7bThought_snd]
    rfl

end Formats

/-! ## A call that is cut -/

/-- What the JSON library makes of a text that is cut in a string. -/
def cutReader : JsonReader where
  parse := fun _ => none
  errorAt := fun t => some t.length
  parse_nil := rfl

def cutCall : List Char := "[TOOL_CALLS][\x7b\"name\": \"get".toList

end LamaServer
