import LamaServer.Base64
import LamaServer.Generation
import LamaServer.Hex
import LamaServer.Lib.Pattern
import LamaServer.Lib.Utf8

/-!
# The regular expressions of the chat formats

A `std::regex` matches bytes, and its classes of characters are those of the C locale.
-/

namespace LamaServer

/-- The bytes of a text of the source. -/
def utf8 (s : String) : Text := Utf8.encode s.toList

namespace ChatRegex

open Pattern

/-- `\s*`. -/
def spaces : Pattern UInt8 := star isSpace

/-- `\w`. -/
def isWordChar (c : UInt8) : Bool := isAlnum c ∨ c = ascii '_'

/-- `[\s\S]`. -/
def anyChar (_ : UInt8) : Bool := true

/-- A text as it stands. -/
def text (s : String) : Pattern UInt8 := word (utf8 s)

/-- `function_regex` of `common_chat_parse_llama_3_1`. -/
def llamaFunction : Pattern UInt8 := seqs
  [spaces, text "\x7b", spaces,
    opt (seqs [text "\"type\"", spaces, text ":", spaces, text "\"function\"", spaces, text ",",
      spaces]),
    text "\"name\"", spaces, text ":", spaces, text "\"", group 1 (plus (· ≠ ascii '"')), text "\"",
    spaces, text ",", spaces, text "\"parameters\"", spaces, text ": "]

/-- `close_regex` of `common_chat_parse_llama_3_1`. -/
def llamaClose : Pattern UInt8 := seqs [text "\x7d", spaces]

/-- `builtin_call_regex`. -/
def builtinCall : Pattern UInt8 := seqs
  [text "<|python_tag|>", spaces, group 1 (plus fun c => c ≠ ascii '.' ∧ c ≠ ascii '('), spaces,
    text ".", spaces, text "call", spaces, text "(", spaces, group 2 (plus isWordChar), spaces,
    text "=", spaces, group 3 (lazyStar anyChar), text ")"]

/-- `reasoning_content_regex`. -/
def reasoningContent : Pattern UInt8 := seq
  (opt (group 1 (seqs [opt (text "<think>"), group 2 (lazyStar anyChar), text "</think>"])))
  (group 3 (star anyChar))

/-- `function_regex` of `common_chat_parse_deepseek_r1`. -/
def deepseekFunction : Pattern UInt8 := seqs
  [text "<｜tool▁call▁begin｜>function<｜tool▁sep｜>", group 1 (plus (· ≠ ascii '\n')),
    text "\n```json\n"]

/-- `close_regex` of `common_chat_parse_deepseek_r1`. -/
def deepseekClose : Pattern UInt8 := seqs [text "```", spaces, text "<｜tool▁call▁end｜>"]

/-- `tool_calls_regex`. -/
def deepseekToolCalls : Pattern UInt8 := seqs
  [spaces,
    oneOf [text "<｜tool▁calls▁begin｜>", text "<｜tool_calls_begin｜>", text "<｜tool calls begin｜>",
      text "<｜tool\\_calls\\_begin｜>"],
    group 1 (lazyStar anyChar), text "<｜tool▁calls▁end｜>"]

/-- `function_regex` of `common_chat_parse_functionary_v3_2`. The bars of the marker in it are not
escaped, so they separate alternatives. -/
def functionaryV32Function : Pattern UInt8 := seqs
  [opt (text ">>>"), opt (oneOf [text "assistant<", text "end_header_id", text ">\n"]),
    group 1 (plus isWordChar), text "\n"]

/-- `close_regex` of `common_chat_parse_functionary_v3_2`. -/
def functionaryV32Close : Pattern UInt8 :=
  alt (assert (·.isEmpty)) (assert (utf8 ">>>").isPrefixOf)

/-- `python_tag_regex`. -/
def pythonTag : Pattern UInt8 := seqs
  [text "<|python_tag|>", group 1 (star anyChar), assert (·.isEmpty)]

/-- `function_regex` of `common_chat_parse_functionary_v3_1_llama_3_1`. -/
def functionaryV31Function : Pattern UInt8 := seqs
  [text "<function=", group 1 (plus isWordChar), text ">"]

/-- `close_regex` of `common_chat_parse_functionary_v3_1_llama_3_1`. -/
def functionaryV31Close : Pattern UInt8 := text "</function>"

/-- `open_regex`. -/
def hermesOpen : Pattern UInt8 := alt
  (seqs
    [opt (group 1 (seqs [text "```", opt (alt (text "xml") (text "json")), text "\n", spaces])),
      opt (group 2 (oneOf [text "<tool_call>", text "<function_call>", text "<tool>",
        text "<tools>", text "<response>", text "<json>", text "<xml>", text "<JSON>"])),
      group 3 (seqs [spaces, text "\x7b", spaces, text "\"name\"", spaces, text ":",
        star anyChar])])
  (seqs
    [alt (seqs [text "<function=", group 4 (plus (· ≠ ascii '>')), text ">"])
        (seqs [text "<function name=\"", group 5 (plus (· ≠ ascii '"')), text "\">"]),
      group 6 (star anyChar)])

/-- `thought_regex`. -/
def thought : Pattern UInt8 := seqs
  [group 1 (seqs [text "<|START_THINKING|>", group 2 (lazyStar anyChar), text "<|END_THINKING|>"]),
    group 3 (star anyChar)]

/-- `action_regex`. -/
def action : Pattern UInt8 := seqs
  [text "<|START_ACTION|>", group 1 (lazyStar anyChar), text "<|END_ACTION|>"]

/-- `response_regex`. -/
def response : Pattern UInt8 := seqs
  [opt (text "<|START_RESPONSE|>"), group 1 (lazyStar anyChar), text "<|END_RESPONSE|>"]

end ChatRegex

end LamaServer
