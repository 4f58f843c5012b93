import LamaServer.GrammarParser
import LamaServer.Json
import LamaServer.Lib.Utf8

/-!
# Grammars of JSON schemas

`json-schema-to-grammar.cpp` writes a grammar whose words are the JSON texts that a schema allows.
-/

namespace LamaServer

/-- `GRAMMAR_LITERAL_ESCAPE_RE`. -/
def grammarLiteralEscapeRe (c : UInt8) : Bool := c = ascii '\r' ∨ c = ascii '\n' ∨ c = ascii '"'

/-- `GRAMMAR_LITERAL_ESCAPES`. -/
def grammarLiteralEscapes : List (UInt8 × Text) :=
  [(ascii '\r', [ascii '\\', ascii 'r']), (ascii '\n', [ascii '\\', ascii 'n']),
    (ascii '"', [ascii '\\', ascii '"']), (ascii '-', [ascii '\\', ascii '-']),
    (ascii ']', [ascii '\\', ascii ']'])]

/-- `replacePattern` with a pattern that matches single characters. -/
def replacePattern (input : Text) (regex : UInt8 → Bool) (replacement : UInt8 → Text) : Text :=
  input.flatMap fun c => if regex c then replacement c else [c]

/-- `format_literal`. -/
def formatLiteral (literal : Text) : Text :=
  let escaped := replacePattern literal grammarLiteralEscapeRe fun c =>
    (grammarLiteralEscapes.lookup c).getD []
  ascii '"' :: escaped ++ [ascii '"']

namespace Json

/-- `v.dump()`. -/
def dumpText (v : Json) : Text := Utf8.encode v.dump

/-- `_generate_constant_rule`. -/
def generateConstantRule (value : Json) : Text := formatLiteral value.dumpText

end Json

/-- What `parse_sequence` makes of a literal: the elements, and the rest of the text. -/
def literalElements (src : Text) : Except GbnfError (Text × GrammarRule) :=
  parseLiteral src.length src.tail []

end LamaServer
