import LamaServer.JsonText

/-!
# Grammars for tool calls

The words of the rules that `SchemaConverter` makes of the schemas of tool calls, and the languages
of the grammars of the formats that write their calls as JSON. What a rule made of a schema of the
request matches is asked, not modelled.
-/

namespace LamaServer

/-- A tool of the request. -/
structure ChatTool where
  name : List Char
  parameters : Json

/-- What of `templates_params` the grammars depend on. -/
structure TemplatesParams where
  tools : List ChatTool
  parallelToolCalls : Bool
  /-- `tool_choice == COMMON_CHAT_TOOL_CHOICE_REQUIRED` -/
  toolChoiceRequired : Bool
  jsonSchema : Option Json
  extractReasoning : Bool

/-! ## Rules -/

namespace SchemaConverter

open Computability

/-- A literal without escapes. -/
def literal (s : String) : Language Char := {s.toList}

/-- One of some characters. -/
def oneOf (s : String) : Language Char := {w | ∃ c ∈ s.toList, w = [c]}

/-- A class that is repeated as often as `{m,n}` says. -/
def repetition (L : Language Char) (minItems : ℕ) (maxItems : Option ℕ) : Language Char :=
  {w | ∃ n, minItems ≤ n ∧ (∀ m ∈ maxItems, n ≤ m) ∧ w ∈ L ^ n}

/-- `SPACE_RULE`. -/
def space : Language Char :=
  1 + literal " " + repetition (literal "\n") 1 (some 2) * repetition (oneOf " \t") 0 (some 20)

def digit : Language Char := oneOf "0123456789"

def hexDigit : Language Char := oneOf "0123456789abcdefABCDEF"

def plainChar : Language Char :=
  {w | ∃ c, w = [c] ∧ c ≠ '"' ∧ c ≠ '\\' ∧ c ≠ '\x7F' ∧ 0x20 ≤ c.toNat}

/-- The rule `char` of `PRIMITIVE_RULES`. -/
def char : Language Char :=
  plainChar + literal "\\" * (oneOf "\"\\bfnrt" + literal "u" * repetition hexDigit 4 (some 4))

/-- A string of `PRIMITIVE_RULES`, or with a `minLength`. -/
def string (minLength : ℕ) : Language Char :=
  literal "\"" * repetition char minLength none * literal "\"" * space

/-- A string with the pattern `^L$`. -/
def pattern (L : Language Char) : Language Char := literal "\"" * L * literal "\"" * space

/-- What the parser of grammars makes of the literal of a constant. -/
def constLiteral (value : Json) : Language Char :=
  {w | literalElements value.generateConstantRule = .ok ([], w.map fun c => .char c.val)}

def const (value : Json) : Language Char := constLiteral value * space

/-- `_generate_union_rule` of one alternative or more. -/
def union (alternatives : List (Language Char)) : Language Char := alternatives.sum

/-- The rules one after the other, with separators between them. -/
def joined (separator : Language Char) : List (Language Char) → Language Char
  | [] => 1
  | [L] => L
  | L :: Ls => L * separator * joined separator Ls

def comma : Language Char := literal "," * space

/-- The rule of a property, with the words of its value. -/
def kv (property : String × Language Char) : Language Char :=
  {(Json.string property.1.toList).dump} * space * literal ":" * space * property.2

/-- `_build_object_rule` where all properties are required and there are no others. -/
def object (properties : List (String × Language Char)) : Language Char :=
  literal "\x7b" * space * joined comma (properties.map kv) * literal "\x7d" * space

/-- `build_repetition` with at least one item. -/
def buildRepetition (item : Language Char) (maxItems : Option ℕ) : Language Char :=
  item * repetition (comma * item) 0 (maxItems.map (· - 1))

/-- An array with `minItems` 1. -/
def array (items : Language Char) (maxItems : Option ℕ) : Language Char :=
  literal "[" * space * buildRepetition items maxItems * literal "]" * space

end SchemaConverter

/-! ## The formats -/

open SchemaConverter

/-- The formats whose calls are JSON, with what stands around them. -/
inductive JsonFormat where
  | generic
  | mistralNemo
  | commandR7b
  | firefunctionV2
  deriving DecidableEq

namespace JsonFormat

variable (params : TemplatesParams)

/-- `data.format`. -/
def chatFormat : JsonFormat → ChatFormat
  | generic => .generic
  | mistralNemo => .mistralNemo
  | commandR7b =>
    if params.extractReasoning then .commandR7bExtractReasoning else .commandR7b
  | firefunctionV2 => .firefunctionV2

/-- The schema of a call, with the words of its values. -/
def call (name arguments id : Language Char) : JsonFormat → Language Char
  | generic =>
    if params.parallelToolCalls then
      object [("name", name), ("arguments", arguments), ("id", id)]
    else object [("name", name), ("arguments", arguments)]
  | mistralNemo => object [("name", name), ("arguments", arguments), ("id", id)]
  | commandR7b => object [("tool_call_id", id), ("tool_name", name), ("parameters", arguments)]
  | firefunctionV2 => object [("name", name), ("arguments", arguments)]

/-- The schema of the id of a call. -/
def id : JsonFormat → Language Char
  | generic => string 4
  | mistralNemo => pattern (repetition (oneOf
      "abcdefghijklmnopqrstuvwxyzABCDEFGHIJKLMNOPQRSTUVWXYZ0123456789") 9 (some 9))
  | commandR7b => pattern (repetition digit 1 (some 10))
  | firefunctionV2 => 1

/-- The calls have ids. -/
def hasId : JsonFormat → Bool
  | generic => params.parallelToolCalls
  | mistralNemo | commandR7b => true
  | firefunctionV2 => false

variable (schema : Json → Language Char)

/-- The schemas of the calls of all tools. -/
def calls (format : JsonFormat) : Language Char :=
  union (params.tools.map fun tool =>
    format.call params (const (.string tool.name)) (schema tool.parameters) format.id)

/-- The schema of the array of calls. -/
def toolCalls (format : JsonFormat) : Language Char :=
  array (format.calls params schema) (if params.parallelToolCalls then none else some 1)

end JsonFormat

section Init

variable (params : TemplatesParams) (schema : Json → Language Char)

/-- The schema of a response in `common_chat_params_init_generic`. -/
def genericResponse : Language Char :=
  match params.jsonSchema with
  | none => string 0
  | some responseSchema => schema responseSchema

/-- `tool_call` of `common_chat_params_init_generic`. -/
def genericToolCallSchema : Language Char :=
  if params.parallelToolCalls then
    object [("tool_calls", array (JsonFormat.generic.calls params schema) none)]
  else object [("tool_call", JsonFormat.generic.calls params schema)]

/-- The grammar of `common_chat_params_init_generic`. -/
def commonChatParamsInitGeneric : Language Char :=
  if params.toolChoiceRequired then genericToolCallSchema params schema
  else union
    [genericToolCallSchema params schema, object [("response", genericResponse params schema)]]

/-- The grammar of `common_chat_params_init_mistral_nemo`. -/
def commonChatParamsInitMistralNemo : Language Char :=
  literal "[TOOL_CALLS]" * JsonFormat.mistralNemo.toolCalls params schema

/-- The grammar of `common_chat_params_init_command_r7b`. -/
def commonChatParamsInitCommandR7b : Language Char :=
  literal "<|START_ACTION|>" * JsonFormat.commandR7b.toolCalls params schema *
    literal "<|END_ACTION|>"

/-- The grammar of `common_chat_params_init_firefunction_v2`. -/
def commonChatParamsInitFirefunctionV2 : Language Char :=
  (1 + literal " functools") * JsonFormat.firefunctionV2.toolCalls params schema

def JsonFormat.grammar : JsonFormat → Language Char
  | generic => commonChatParamsInitGeneric params schema
  | mistralNemo => commonChatParamsInitMistralNemo params schema
  | commandR7b => commonChatParamsInitCommandR7b params schema
  | firefunctionV2 => commonChatParamsInitFirefunctionV2 params schema

end Init

/-! ## What a word spells -/

/-- The values of a call, as they are written. -/
structure ToolCallText where
  name : List Char
  arguments : List Char
  id : List Char

inductive ReplyText where
  | calls (calls : List ToolCallText)
  | response (response : List Char)

namespace JsonFormat

variable (params : TemplatesParams) (schema : Json → Language Char)

/-- The words of a call with these values. -/
def callWords (format : JsonFormat) (c : ToolCallText) : Language Char :=
  format.call params {c.name} {c.arguments} {c.id}

/-- What stands around the calls. -/
def wrap (L : Language Char) : JsonFormat → Language Char
  | generic => object [(if params.parallelToolCalls then "tool_calls" else "tool_call", L)]
  | mistralNemo => literal "[TOOL_CALLS]" * L
  | commandR7b => literal "<|START_ACTION|>" * L * literal "<|END_ACTION|>"
  | firefunctionV2 => (1 + literal " functools") * L

/-- The words of the calls together: an array, but for the single call of the generic format. -/
def callsWords (format : JsonFormat) (calls : List ToolCallText) : Language Char :=
  let words := joined comma (calls.map (format.callWords params))
  if format = generic ∧ params.parallelToolCalls = false then words
  else literal "[" * space * words * literal "]" * space

/-- The grammar derives a word, in which a reply is written. -/
inductive Writes (format : JsonFormat) : ReplyText → List Char → Prop
  | calls {calls : List ToolCallText} {w : List Char} : calls ≠ [] →
      (params.parallelToolCalls = false → calls.length = 1) →
      (∀ c ∈ calls, ∃ tool ∈ params.tools, c.name ∈ const (.string tool.name) ∧
        c.arguments ∈ schema tool.parameters ∧ (format.hasId params → c.id ∈ format.id)) →
      w ∈ format.wrap params (format.callsWords params calls) → Writes format (.calls calls) w
  | response {r w : List Char} : format = generic → params.toolChoiceRequired = false →
      r ∈ genericResponse params schema → w ∈ object [("response", {r})] →
      Writes format (.response r) w

end JsonFormat

/-! ## What a reply spells -/

section Spelled

variable (J : JsonReader)

/-- The values of a call are JSON texts: its name and its id of strings, its arguments of an
object. -/
inductive ToolCallText.Spells (hasId : Bool) (c : ToolCallText) : ChatToolCall → Prop
  | mk {name id : List Char} {arguments : List (List Char × Json)} :
      Json.IsText J c.name (.string name) → Json.IsText J c.arguments (.object arguments) →
      (if hasId then Json.IsText J c.id (.string id) else id = []) →
      Spells hasId c
        ⟨Utf8.encode name, (Json.object arguments).dumpText, Utf8.encode id⟩

/-- The message that a reply spells. -/
inductive ReplyText.Spells (hasId : Bool) : ReplyText → ChatMsg → Prop
  | calls {calls : List ToolCallText} {toolCalls : List ChatToolCall} :
      List.Forall₂ (fun c call => c.Spells J hasId call) calls toolCalls →
      Spells hasId (.calls calls) { role := utf8 "assistant", toolCalls := toolCalls }
  | response {r : List Char} {v : Json} : Json.IsText J r v →
      Spells hasId (.response r) { role := utf8 "assistant", content := responseText v }

end Spelled

end LamaServer
