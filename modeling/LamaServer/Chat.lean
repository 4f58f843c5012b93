import Mathlib.Data.List.DropRight
import LamaServer.ChatRegex
import LamaServer.JsonSchema

/-!
# Reading chat replies

`common_chat_parse` takes a reply of the model apart into reasoning, content and tool calls, each
chat format in its own way. What the JSON library makes of a text is asked, not modelled.
-/

namespace LamaServer

/-- The characters of a text, unless it is no UTF-8. -/
def textChars (t : Text) : Option (List Char) :=
  match Utf8.Pending.run {} t with
  | some (w, q) => if q.remaining = 0 then some (w.map fun x => Char.ofNat x.toNat) else none
  | none => none

theorem textChars_encode (s : List Char) : textChars (Utf8.encode s) = some s := by
  obtain ⟨q, hq, hrem⟩ := Utf8.Pending.run_encode s 0
  have hchars : (s.map Char.val).map (fun x => Char.ofNat x.toNat) = s := by
    rw [List.map_map]
    exact (List.map_congr_left fun c _ => Char.ofNat_toNat c).trans (List.map_id s)
  rw [textChars, hq]
  simp only [hrem, if_true, hchars]

/-- What `nlohmann::ordered_json` makes of texts. -/
structure JsonReader where
  /-- `json::parse`, or nothing where it throws -/
  parse : Text → Option Json
  /-- one less than the position at which `json::sax_parse` reports an error -/
  errorAt : Text → Option Nat
  /-- there is no value in an empty text -/
  parse_nil : parse [] = none

/-- How reading a reply does not return. -/
inductive ChatError where
  | runtimeError (what : Text)
  | json (e : Json.Exception)
  /-- `GGML_ASSERT`, which is not caught -/
  | assertion
  deriving DecidableEq

/-- `common_chat_format`. -/
inductive ChatFormat where
  | contentOnly
  | generic
  | mistralNemo
  | llama3X
  | llama3XWithBuiltinTools
  | deepseekR1
  | deepseekR1ExtractReasoning
  | firefunctionV2
  | functionaryV32
  | functionaryV31Llama31
  | hermes2Pro
  | hermes2ProExtractReasoning
  | commandR7b
  | commandR7bExtractReasoning

/-- `common_chat_tool_call`. -/
structure ChatToolCall where
  name : Text
  arguments : Text
  id : Text
  deriving DecidableEq

/-- What a parser fills in of `common_chat_msg`. -/
structure ChatMsg where
  role : Text := []
  content : Text := []
  toolCalls : List ChatToolCall := []
  reasoningContent : Text := []
  deriving DecidableEq

namespace Json

/-- The implicit conversion to `std::string`. -/
def getString : Json → Except Exception Text
  | string s => pure (Utf8.encode s)
  | _ => throw (.typeError 302)

/-- `v.is_string() ? v.get<std::string>() : v.dump()`. -/
def stringOrDump : Json → Text
  | string s => Utf8.encode s
  | v => v.dumpText

/-- `v.contains("id") ? v.at("id") : ""`. -/
def idOrEmpty (v : Json) : Except Exception Json :=
  if v.contains "id" then v.atKey "id" else pure (.string [])

end Json

namespace JsonReader

variable (J : JsonReader)

/-- `json::parse` where nothing catches. -/
def parseOrThrow (t : Text) : Except Json.Exception Json := .ofOption .parseError (J.parse t)

/-- `parse_json`: the value up to where reading it as a whole text fails, and what is behind. -/
def parseJson (t : Text) : Option (Json × Text) :=
  let temptativeEnd := (J.errorAt t).getD t.length
  (J.parse (t.take temptativeEnd)).map fun out => (out, t.drop temptativeEnd)

theorem length_lt_of_parseJson {t rest : Text} {out : Json} (h : J.parseJson t = some (out, rest)) :
    rest.length < t.length := by
  obtain ⟨v, hv, hrest⟩ := Option.map_eq_some_iff.1 h
  have hne : t.take ((J.errorAt t).getD t.length) ≠ [] := fun hnil => by
    rw [hnil, J.parse_nil] at hv
    cases hv
  have hpos := List.length_pos_of_ne_nil hne
  rw [List.length_take] at hpos
  cases hrest
  rw [List.length_drop]
  omega

end JsonReader

/-- `parse_literal`. -/
def parseChatLiteral (t expected : Text) : Option Text :=
  if expected.isPrefixOf t then some (t.drop expected.length) else none

/-- `consume_spaces`. -/
def consumeSpaces (t : Text) : Text := t.dropWhile isSpace

/-- `string_strip`. -/
def stringStrip (t : Text) : Text := (t.dropWhile isSpace).rdropWhile isSpace

/-! ## Helpers of the parsers -/

/-- `process_tool_call`. -/
def processToolCall (toolCall : Json) : Except Json.Exception ChatToolCall := do
  let arguments ← toolCall.atKey "arguments"
  let name ← (← toolCall.atKey "name").getString
  let id ← (← toolCall.idOrEmpty).getString
  pure ⟨name, arguments.stringOrDump, id⟩

/-- `(json {{key, v}}).dump()`, which throws where a string is no UTF-8. -/
def dumpMember (key : Text) (v : Json) : Except Json.Exception Text :=
  match textChars key with
  | some key => pure (Json.object [(key, v)]).dumpText
  | none => throw (.typeError 316)

/-- `json({{"code", code}}).dump()`. -/
def dumpCode (code : Text) : Except Json.Exception Text :=
  match textChars code with
  | some code => pure (Json.object [("code".toList, .string code)]).dumpText
  | none => throw (.typeError 316)

/-- An exception of the JSON library goes on. -/
def liftJson {α : Type} : Except Json.Exception α → Except ChatError α
  | .ok a => .ok a
  | .error e => .error (.json e)

/-- `catch (const std::exception &)`. -/
def catchException {α : Type} (x : Except ChatError α) (handler : Except ChatError α) :
    Except ChatError α :=
  match x with
  | .error .assertion => .error .assertion
  | .error _ => handler
  | .ok a => .ok a

/-- A regular expression that matches no empty text. -/
abbrev Consuming := {r : Pattern UInt8 // 0 < r.minLength}

section Parsers

variable (J : JsonReader)

/-- The loop of `parse_json_tool_calls`; `t` is what is left of the input. -/
def parseJsonToolCallsLoop (input : Text) (functionRegex : Consuming)
    (closeRegex : Pattern UInt8) (allowRawPython : Bool) (result : ChatMsg) (t : Text) :
    Except ChatError ChatMsg :=
  if t = [] then pure result
  else
    match h : functionRegex.1.search t with
    | none => pure { result with content := result.content ++ t }
    | some m =>
      let name := m.groups.get 1
      let result := { result with content := result.content ++ m.before }
      match _hj : J.parseJson m.behind with
      | some (arguments, rest) =>
        match _hc : closeRegex.search rest with
        | none => throw (.runtimeError (utf8 "Malformed input, missing closing pattern: " ++ input))
        | some close =>
          parseJsonToolCallsLoop input functionRegex closeRegex allowRawPython
            { result with toolCalls := result.toolCalls ++ [⟨name, arguments.stringOrDump, []⟩] }
            close.behind
      | none =>
        if allowRawPython ∧ name = utf8 "python" then do
          let arguments ← liftJson (dumpCode m.behind)
          pure { result with toolCalls := result.toolCalls ++ [⟨name, arguments, []⟩] }
        else
          throw (.runtimeError (utf8 "Failed to parse json tool call arguments: " ++ input))
  termination_by t.length
  decreasing_by
    have := Pattern.length_behind_le h
    have := functionRegex.2
    have := J.length_lt_of_parseJson _hj
    have := Pattern.length_behind_le _hc
    omega

/-- `parse_json_tool_calls`; there is no trigger in any call of it. -/
def parseJsonToolCalls (input : Text) (functionRegex : Consuming) (closeRegex : Pattern UInt8)
    (allowRawPython : Bool) : Except ChatError ChatMsg := do
  let result ← parseJsonToolCallsLoop J input functionRegex closeRegex allowRawPython
    { role := utf8 "assistant" } input
  pure (if result.toolCalls ≠ [] then { result with content := [] } else result)

/-- `parse_prefixed_json_tool_call_array`. -/
def parsePrefixedJsonToolCallArray (input callPrefix : Text) (rstripPrefix : Nat) :
    Except ChatError ChatMsg :=
  match input.find callPrefix 0 with
  | none => pure { role := utf8 "assistant", content := input }
  | some contentEnd => do
    let tcStart := contentEnd + callPrefix.length - rstripPrefix
    let toolCalls ← liftJson (J.parseOrThrow (input.drop tcStart))
    let toolCalls ← liftJson (toolCalls.elements.mapM processToolCall)
    pure { role := utf8 "assistant", content := input.take contentEnd, toolCalls := toolCalls }

/-- What `handle_think_tag_prelude` does with the reasoning. -/
def addReasoning (extractReasoning : Bool) (reasoningContent : Text) (msg : ChatMsg) : ChatMsg :=
  if extractReasoning then { msg with reasoningContent := reasoningContent }
  else if reasoningContent ≠ [] then
    let content := utf8 "<think>" ++ reasoningContent ++ utf8 "</think>" ++ msg.content
    { msg with content := content }
  else msg

/-- `handle_think_tag_prelude`. -/
def handleThinkTagPrelude (input : Text) (extractReasoning : Bool)
    (restParser : Text → Except ChatError ChatMsg) : Except ChatError ChatMsg :=
  match ChatRegex.reasoningContent.fullMatch input with
  | some groups => do
    let msg ← restParser (groups.get 3)
    pure (addReasoning extractReasoning (stringStrip (groups.get 2)) msg)
  | none => restParser input

/-! ## The parsers -/

/-- `common_chat_parse_content_only`. -/
def commonChatParseContentOnly (input : Text) : ChatMsg :=
  { role := utf8 "assistant", content := input }

/-- A tool call of `common_chat_parse_generic`. -/
def genericToolCall (toolCall : Json) : Except Json.Exception ChatToolCall := do
  let name ← (← toolCall.atKey "name").getString
  let arguments ← toolCall.atKey "arguments"
  let id ← (← toolCall.idOrEmpty).getString
  pure ⟨name, arguments.dumpText, id⟩

/-- `response.is_string() ? response.get<std::string>() : response.dump(2)`. -/
def responseText : Json → Text
  | .string s => Utf8.encode s
  | v => Utf8.encode (v.dumpIndented 2 0)

/-- `common_chat_parse_generic`. -/
def commonChatParseGeneric (input : Text) : Except ChatError ChatMsg := liftJson do
  let data ← J.parseOrThrow input
  let result : ChatMsg := { role := utf8 "assistant" }
  if data.contains "tool_calls" then
    let toolCalls ← (← data.atKey "tool_calls").elements.mapM genericToolCall
    pure { result with toolCalls := toolCalls }
  else if data.contains "tool_call" then
    let name ← (← (← data.atKey "tool_call").atKey "name").getString
    let arguments ← (← data.atKey "tool_call").atKey "arguments"
    pure { result with toolCalls := [⟨name, arguments.dumpText, []⟩] }
  else if data.contains "response" then
    let response ← data.atKey "response"
    pure { result with content := responseText response }
  else pure result

/-- `common_chat_parse_mistral_nemo`. -/
def commonChatParseMistralNemo (input : Text) : Except ChatError ChatMsg :=
  parsePrefixedJsonToolCallArray J input (utf8 "[TOOL_CALLS]") 0

/-- `common_chat_parse_firefunction_v2`. -/
def commonChatParseFirefunctionV2 (input : Text) : Except ChatError ChatMsg :=
  parsePrefixedJsonToolCallArray J input (utf8 " functools[") 1

/-- What `common_chat_parse_llama_3_1` makes of a call of a builtin tool. -/
def builtinToolCall (groups : Pattern.Groups UInt8) : Except ChatError ChatMsg := liftJson do
  let argValue ← J.parseOrThrow (groups.get 3)
  let arguments ← dumpMember (groups.get 2) argValue
  pure { role := utf8 "assistant", toolCalls := [⟨groups.get 1, arguments, []⟩] }

/-- `common_chat_parse_llama_3_1`. -/
def commonChatParseLlama31 (input : Text) (withBuiltinTools : Bool) : Except ChatError ChatMsg :=
  let calls := parseJsonToolCalls J input ⟨ChatRegex.llamaFunction, by decide⟩
    ChatRegex.llamaClose false
  if withBuiltinTools then
    match ChatRegex.builtinCall.fullMatch input with
    | some groups => catchException (builtinToolCall J groups) calls
    | none => calls
  else calls

/-- `common_chat_parse_deepseek_r1` behind the reasoning. -/
def deepseekRest (input : Text) : Except ChatError ChatMsg :=
  let msg : ChatMsg := { role := utf8 "assistant" }
  match ChatRegex.deepseekToolCalls.search input with
  | some m => do
    let msg2 ← parseJsonToolCalls J (m.groups.get 1) ⟨ChatRegex.deepseekFunction, by decide⟩
      ChatRegex.deepseekClose false
    pure { msg with toolCalls := msg2.toolCalls }
  | none => pure { msg with content := input }

/-- `common_chat_parse_deepseek_r1`. -/
def commonChatParseDeepseekR1 (input : Text) (extractReasoning : Bool) :
    Except ChatError ChatMsg :=
  handleThinkTagPrelude input extractReasoning (deepseekRest J)

/-- The calls of `common_chat_parse_functionary_v3_2`, behind the content. -/
def functionaryV32Calls (input content t : Text) : Except ChatError ChatMsg :=
  catchException
    (do
      let res ← parseJsonToolCalls J t ⟨ChatRegex.functionaryV32Function, by decide⟩
        ChatRegex.functionaryV32Close true
      pure { res with content := content ++ res.content })
    (pure { role := utf8 "assistant", content := input })

/-- `common_chat_parse_functionary_v3_2`. -/
def commonChatParseFunctionaryV32 (input : Text) : Except ChatError ChatMsg :=
  match parseChatLiteral input (utf8 "all\n") with
  | some t =>
    match ChatRegex.functionaryV32Function.search t with
    | some m => functionaryV32Calls J input m.before (m.found ++ m.behind)
    | none => pure { role := utf8 "assistant", content := t }
  | none => functionaryV32Calls J input [] input

/-- `common_chat_parse_functionary_v3_1_llama_3_1`. -/
def commonChatParseFunctionaryV31Llama31 (input : Text) : Except ChatError ChatMsg :=
  match ChatRegex.pythonTag.search input with
  | some m => do
    let arguments ← liftJson (dumpCode (m.groups.get 1))
    pure { role := utf8 "assistant", content := m.before,
           toolCalls := [⟨utf8 "python", arguments, []⟩] }
  | none =>
    parseJsonToolCalls J input ⟨ChatRegex.functionaryV31Function, by decide⟩
      ChatRegex.functionaryV31Close false

/-- `if (!closer.empty() && !parse_literal(it, end, closer))` and what is thrown then. -/
def expectCloser (closer : Text) (what : String) (t : Text) : Except ChatError Text :=
  if closer = [] then pure t
  else
    match parseChatLiteral t closer with
    | some t => pure t
    | none => throw (.runtimeError (utf8 what))

/-- The closers behind a call of `common_chat_parse_hermes_2_pro`, and what is behind them. -/
def hermesClose (closeTag blockEnd t : Text) : Except ChatError Text := do
  let t ← expectCloser closeTag "Failed to parse closing tag" (consumeSpaces t)
  let t ← expectCloser blockEnd "Failed to parse block end" (consumeSpaces t)
  pure (consumeSpaces t)

/-- A call with its name in the object, from which `t` is left of the input: the call and what is
behind it, or nothing where it is content. -/
def hermesNamedCall (openTag blockEnd t : Text) :
    Except ChatError (Option (ChatToolCall × Text)) :=
  let closeTag := if openTag = [] then [] else utf8 "</" ++ openTag.drop 1
  match J.parseJson t with
  | some (toolCall, rest) =>
    if toolCall.contains "name" ∧ toolCall.contains "arguments" then do
      let call ← liftJson (processToolCall toolCall)
      let rest ← hermesClose closeTag blockEnd rest
      pure (some (call, rest))
    else pure none
  | none => pure none

/-- A call with its name in the tag, from whose arguments `t` is left of the input. -/
def hermesFunctionCall (functionName blockEnd t : Text) :
    Except ChatError (Option (ChatToolCall × Text)) :=
  if functionName = [] then throw .assertion
  else
    match J.parseJson t with
    | some (arguments, rest) => do
      let rest ← hermesClose (utf8 "</function>") blockEnd rest
      pure (some (⟨functionName, arguments.stringOrDump, []⟩, rest))
    | none => pure none

/-- What `open_regex` has found. The third and the sixth group reach to the end of the match. -/
def hermesCall (m : Pattern.Match UInt8) : Except ChatError (Option (ChatToolCall × Text)) :=
  let blockEnd := if m.groups.get 1 = [] then [] else utf8 "```"
  match m.groups.lookup 3 with
  | some named => hermesNamedCall J (m.groups.get 2) blockEnd (named ++ m.behind)
  | none =>
    let functionName := if m.groups.get 4 = [] then m.groups.get 5 else m.groups.get 4
    hermesFunctionCall J functionName blockEnd (m.groups.get 6 ++ m.behind)

theorem length_parseChatLiteral {t u expected : Text} (h : parseChatLiteral t expected = some u) :
    u.length ≤ t.length := by
  unfold parseChatLiteral at h
  split_ifs at h
  cases h
  simp

theorem length_consumeSpaces (t : Text) : (consumeSpaces t).length ≤ t.length :=
  (List.dropWhile_suffix _).length_le

theorem length_expectCloser {closer t u : Text} {what : String}
    (h : expectCloser closer what t = .ok u) : u.length ≤ t.length := by
  unfold expectCloser at h
  split_ifs at h
  · cases h
    exact Nat.le_refl _
  · rcases ht : parseChatLiteral t closer with _ | v <;> rw [ht] at h <;> cases h
    exact length_parseChatLiteral ht

theorem length_hermesClose {closeTag blockEnd t u : Text}
    (h : hermesClose closeTag blockEnd t = .ok u) : u.length ≤ t.length := by
  obtain ⟨v, hv, h⟩ := Except.bind_eq_ok.1 h
  obtain ⟨w, hw, h⟩ := Except.bind_eq_ok.1 h
  cases h
  have := length_expectCloser hv
  have := length_expectCloser hw
  have := length_consumeSpaces t
  have := length_consumeSpaces v
  have := length_consumeSpaces w
  omega

theorem length_hermesNamedCall {openTag blockEnd t rest : Text} {call : ChatToolCall}
    (h : hermesNamedCall J openTag blockEnd t = .ok (some (call, rest))) :
    rest.length < t.length := by
  unfold hermesNamedCall at h
  rcases hj : J.parseJson t with _ | ⟨toolCall, u⟩
  · rw [hj] at h
    cases h
  · simp only [hj] at h
    by_cases hcall : toolCall.contains "name" ∧ toolCall.contains "arguments"
    · rw [if_pos hcall] at h
      obtain ⟨call', -, h⟩ := Except.bind_eq_ok.1 h
      obtain ⟨v, hv, h⟩ := Except.bind_eq_ok.1 h
      cases h
      exact (length_hermesClose hv).trans_lt (J.length_lt_of_parseJson hj)
    · rw [if_neg hcall] at h
      cases h

theorem length_hermesFunctionCall {functionName blockEnd t rest : Text} {call : ChatToolCall}
    (h : hermesFunctionCall J functionName blockEnd t = .ok (some (call, rest))) :
    rest.length < t.length := by
  unfold hermesFunctionCall at h
  split_ifs at h
  rcases hj : J.parseJson t with _ | ⟨arguments, u⟩
  · rw [hj] at h
    cases h
  · simp only [hj] at h
    obtain ⟨v, hv, h⟩ := Except.bind_eq_ok.1 h
    cases h
    exact (length_hermesClose hv).trans_lt (J.length_lt_of_parseJson hj)

/-- A call takes something of the text. -/
theorem length_lt_of_hermesCall {t rest : Text} {m : Pattern.Match UInt8} {call : ChatToolCall}
    (hm : ChatRegex.hermesOpen.search t = some m)
    (h : hermesCall J m = .ok (some (call, rest))) : rest.length < t.length := by
  unfold hermesCall at h
  rcases hnamed : m.groups.lookup 3 with _ | named
  · simp only [hnamed] at h
    have hlt := length_hermesFunctionCall J h
    have hle := Pattern.length_get_le hm 6
    rw [List.length_append] at hlt
    omega
  · simp only [hnamed] at h
    have hlt := length_hermesNamedCall J h
    have hle := Pattern.length_group_le hm hnamed
    rw [List.length_append] at hlt
    omega

/-- The loop of `common_chat_parse_hermes_2_pro`; `t` is what is left of the input. -/
def hermesLoop (msg : ChatMsg) (t : Text) : Except ChatError ChatMsg :=
  if t = [] then pure msg
  else
    match _hm : ChatRegex.hermesOpen.search t with
    | none => pure { msg with content := msg.content ++ t }
    | some m =>
      let msg := { msg with content := msg.content ++ m.before }
      match _hcall : hermesCall J m with
      | .error e => throw e
      | .ok (some (call, rest)) =>
        hermesLoop { msg with toolCalls := msg.toolCalls ++ [call] } rest
      | .ok none => hermesLoop { msg with content := msg.content ++ m.found } m.behind
  termination_by t.length
  decreasing_by
    · exact length_lt_of_hermesCall J _hm _hcall
    · have := Pattern.length_behind_le _hm
      have : 0 < ChatRegex.hermesOpen.minLength := by decide
      omega

/-- `common_chat_parse_hermes_2_pro` behind the reasoning. -/
def hermesRest (input : Text) : Except ChatError ChatMsg :=
  catchException (hermesLoop J { role := utf8 "assistant" } input)
    (pure { role := utf8 "assistant", content := input })

/-- `common_chat_parse_hermes_2_pro`. -/
def commonChatParseHermes2Pro (input : Text) (extractReasoning : Bool) :
    Except ChatError ChatMsg :=
  handleThinkTagPrelude input extractReasoning (hermesRest J)

/-- A tool call of `common_chat_parse_command_r7b`. -/
def commandR7bToolCall (action : Json) : Except Json.Exception ChatToolCall := do
  let name ← (← action.atKey "tool_name").getString
  let arguments ← action.atKey "parameters"
  let id ← (← action.atKey "tool_call_id").getString
  pure ⟨name, arguments.dumpText, id⟩

/-- The reply of `common_chat_parse_command_r7b` with the reasoning in it, and what is behind. -/
def commandR7bThought (input : Text) (extractReasoning : Bool) : ChatMsg × Text :=
  let result : ChatMsg := { role := utf8 "assistant" }
  match ChatRegex.thought.fullMatch input with
  | some groups =>
    (if extractReasoning then { result with reasoningContent := groups.get 2 }
      else if groups.get 2 ≠ [] then { result with content := groups.get 1 } else result,
      groups.get 3)
  | none => (result, input)

/-- What `response_regex` takes as the response. -/
def commandR7bResponse (rest : Text) : Text :=
  match ChatRegex.response.fullMatch rest with
  | some groups => groups.get 1
  | none => rest

/-- `common_chat_parse_command_r7b`. -/
def commonChatParseCommandR7b (input : Text) (extractReasoning : Bool) :
    Except ChatError ChatMsg :=
  let (result, rest) := commandR7bThought input extractReasoning
  match ChatRegex.action.fullMatch rest with
  | some groups => do
    let actions ← liftJson (J.parseOrThrow (groups.get 1))
    let toolCalls ← liftJson (actions.elements.mapM commandR7bToolCall)
    pure { result with toolCalls := toolCalls }
  | none => pure { result with content := result.content ++ commandR7bResponse rest }

/-- `common_chat_parse`. -/
def commonChatParse (input : Text) : ChatFormat → Except ChatError ChatMsg
  | .contentOnly => pure (commonChatParseContentOnly input)
  | .generic => commonChatParseGeneric J input
  | .mistralNemo => commonChatParseMistralNemo J input
  | .llama3X => commonChatParseLlama31 J input false
  | .llama3XWithBuiltinTools => commonChatParseLlama31 J input true
  | .deepseekR1 => commonChatParseDeepseekR1 J input false
  | .deepseekR1ExtractReasoning => commonChatParseDeepseekR1 J input true
  | .functionaryV32 => commonChatParseFunctionaryV32 J input
  | .functionaryV31Llama31 => commonChatParseFunctionaryV31Llama31 J input
  | .hermes2Pro => commonChatParseHermes2Pro J input false
  | .hermes2ProExtractReasoning => commonChatParseHermes2Pro J input true
  | .firefunctionV2 => commonChatParseFirefunctionV2 J input
  | .commandR7b => commonChatParseCommandR7b J input false
  | .commandR7bExtractReasoning => commonChatParseCommandR7b J input true

/-- What the parser makes the first choice of a chat completion from. -/
structure ChatChoice where
  finishReason : Text
  reasoningContent : Option Text
  /-- nothing is `null` -/
  content : Option Text
  toolCalls : List ChatToolCall
  deriving DecidableEq

/-- The choice of `to_json_oaicompat_chat`; `genToolCallId` is for a call without an id. -/
def finalChoice (genToolCallId : Nat → Text) (stop : StopType) (content : Text)
    (format : ChatFormat) : Except ChatError ChatChoice := do
  let msg ←
    if stop = .word ∨ stop = .eos then commonChatParse J content format
    else pure { content := content }
  let finishReason :=
    if stop = .word ∨ stop = .eos then
      if msg.toolCalls = [] then utf8 "stop" else utf8 "tool_calls"
    else utf8 "length"
  pure {
    finishReason := finishReason
    reasoningContent := if msg.reasoningContent = [] then none else some msg.reasoningContent
    content := if msg.content = [] ∧ msg.toolCalls ≠ [] then none else some msg.content
    toolCalls := msg.toolCalls.mapIdx fun i call =>
      { call with id := if call.id = [] then genToolCallId i else call.id } }

end Parsers

end LamaServer
