import Mathlib.Data.List.Basic
import LamaServer.Slot

/-!
# Generating text

What `process_token` does with a sampled token: it appends the token's piece to the text, holds
text back that may be part of a character or of a stop string, sends the rest to a streaming
client, and finds out whether generation goes on. Texts are byte strings. The vocabulary and the
clock are asked, not modelled.
-/

namespace LamaServer

/-- A `std::string`. -/
abbrev Text := List UInt8

namespace Text

/-- `word` at or after the start of a text. -/
def indexOf (word : Text) : Text → Option Nat
  | [] => if word = [] then some 0 else none
  | c :: text =>
    if word.isPrefixOf (c :: text) then some 0 else (indexOf word text).map (· + 1)

/-- `text.find(word, pos)`. -/
def find (text word : Text) (pos : Nat) : Option Nat :=
  if pos ≤ text.length then (indexOf word (text.drop pos)).map (· + pos) else none

/-- The byte `c`, `i` bytes from the end, starts a character that needs more bytes. -/
def isCutOff (c : UInt8) (i : Nat) : Bool :=
  if c &&& 0xE0 = 0xC0 then i < 2
  else if c &&& 0xF0 = 0xE0 then i < 3
  else if c &&& 0xF8 = 0xF0 then i < 4
  else false

/-- `validate_utf8`: how many bytes precede a character that is cut off at the end. -/
def validateUtf8 (text : Text) : Nat :=
  match [1, 2, 3, 4].find? fun i => (text.reverse[i - 1]?).any (isCutOff · i) with
  | some i => text.length - i
  | none => text.length

/-- `find_partial_stop_string`: where an end of `text` starts that `stop` starts with. -/
def findPartialStopString (stop text : Text) : Option Nat :=
  if text ≠ [] ∧ stop ≠ [] then
    ((List.range stop.length).reverse.find? fun i =>
      stop[i]? = text.getLast? ∧ (stop.take (i + 1)).isSuffixOf text).map fun i =>
        text.length - i - 1
  else none

def newline : UInt8 := 10

/-- A space or a tab. -/
def isBlank (c : UInt8) : Bool := c = 32 ∨ c = 9

end Text

/-- `stop_type`. -/
inductive StopType where
  | none | eos | word | limit
  deriving DecidableEq, Repr

/-- The fields of `slot_params` that only text generation reads. `stream` is an argument of
`processToken`. -/
structure TextParams where
  antiprompt : List Text := []
  nIndent : Int := 0
  returnTokens : Bool := false
  /-- `t_max_predict_ms > 0` -/
  timeLimit : Bool := false
  deriving DecidableEq, Repr

/-- `server_slot` with its generated text. -/
structure GenSlot extends Slot where
  textParams : TextParams := {}
  generatedText : Text := []
  generatedTokens : List Token := []
  hasNextToken : Bool := true
  hasNewLine : Bool := false
  lastNlPos : Nat := 0
  stop : StopType := .none
  stoppingWord : Text := []
  nSentText : Nat := 0
  deriving DecidableEq, Repr

/-- What generation asks of the model, and the server's parameters it reads. -/
structure GenConfig where
  /-- `common_token_to_piece` -/
  piece : Token → Text
  /-- `llama_vocab_is_eog` -/
  isEog : Token → Bool
  /-- `llama_model_n_ctx_train` -/
  nCtxTrain : Int
  /-- `params_base.n_predict` -/
  nPredict : Int := -1

namespace GenSlot

/-- `server_slot::reset`. -/
def reset (slot : GenSlot) : GenSlot where
  toSlot := slot.toSlot.reset
  textParams := slot.textParams
  hasNextToken := slot.hasNextToken

variable (cfg : GenConfig)

/-- `server_slot::has_budget`, with the slot it leaves. -/
def hasBudget (slot : GenSlot) : GenSlot × Bool :=
  if slot.params.nPredict = -1 ∧ cfg.nPredict = -1 then (slot, true)
  else
    let nRemaining := if slot.params.nPredict ≠ -1 then slot.params.nPredict - slot.nDecoded
      else cfg.nPredict - slot.nDecoded
    ({ slot with nRemaining := nRemaining }, 0 < nRemaining)

/-- One stop string of `find_stopping_strings`. -/
def stoppingStringStep (text : Text) (lastTokenSize : Nat) (isFullStop : Bool)
    (acc : GenSlot × Option Nat) (word : Text) : GenSlot × Option Nat :=
  let pos := if isFullStop then text.find word (text.length - (word.length + lastTokenSize))
    else Text.findPartialStopString word text
  match pos with
  | some p =>
    if acc.2.all (p < ·) then
      (if isFullStop then
        { acc.1 with stop := .word, stoppingWord := word, hasNextToken := false }
      else acc.1, some p)
    else acc
  | none => acc

/-- `server_slot::find_stopping_strings`, with the slot it leaves. -/
def findStoppingStrings (slot : GenSlot) (text : Text) (lastTokenSize : Nat)
    (isFullStop : Bool) : GenSlot × Option Nat :=
  slot.textParams.antiprompt.foldl (stoppingStringStep text lastTokenSize isFullStop) (slot, none)

/-- The text is appended before anything is asked of it. -/
def appendToken (slot : GenSlot) (tok : Token) : GenSlot :=
  { slot with
    sampled := tok
    generatedText := slot.generatedText ++ cfg.piece tok
    generatedTokens := if slot.textParams.returnTokens then slot.generatedTokens ++ [tok]
      else slot.generatedTokens
    hasNextToken := true }

/-- There is an incomplete character at the end of the text. -/
def incomplete (slot : GenSlot) : Bool :=
  slot.generatedText.validateUtf8 < slot.generatedText.length

/-- The text that is not sent yet. -/
def unsent (slot : GenSlot) : Text :=
  slot.generatedText.drop (min slot.nSentText slot.generatedText.length)

/-- `text_to_send` of a text that ends with a whole character: all that is unsent, up to a stop
string, or nothing if its end may become one. -/
def sendText (slot : GenSlot) (tokenSize : Nat) : GenSlot × Text :=
  let pos := min slot.nSentText slot.generatedText.length
  let strTest := slot.unsent
  let full := slot.findStoppingStrings strTest tokenSize true
  let flush (slot : GenSlot) : GenSlot × Text :=
    ({ slot with nSentText := slot.nSentText + slot.unsent.length }, slot.unsent)
  match full.2 with
  | some stopPos =>
    flush { full.1 with generatedText := slot.generatedText.take (pos + stopPos) }
  | none =>
    -- the slot has a next token here: only a stop string has taken it away
    match (full.1.findStoppingStrings strTest tokenSize false).2 with
    | some _ => (full.1, [])
    | none => flush full.1

/-- The limit on the number of tokens. -/
def checkBudget (slot : GenSlot) : GenSlot :=
  if 0 < slot.nDecoded ∧ slot.hasNextToken then
    let r := slot.hasBudget cfg
    if r.2 then r.1 else { r.1 with stop := .limit, hasNextToken := false }
  else slot

/-- Where the last line is cut for its indentation. -/
def indentCut (slot : GenSlot) : Option Nat :=
  let nIndent := ((slot.generatedText.drop slot.lastNlPos).takeWhile Text.isBlank).length
  if slot.hasNewLine ∧ 0 < slot.textParams.nIndent ∧ 0 < slot.lastNlPos ∧
      slot.lastNlPos + nIndent < slot.generatedText.length ∧ nIndent < slot.textParams.nIndent then
    some (slot.lastNlPos + nIndent)
  else none

/-- The limit on the indentation of a new line. -/
def checkIndent (slot : GenSlot) : GenSlot :=
  let cut := match slot.indentCut with
    | some pos => { slot with
        stop := .limit
        hasNextToken := false
        generatedText := slot.generatedText.take pos }
    | none => slot
  if slot.hasNewLine ∧ 0 < slot.textParams.nIndent then
    match cut.generatedText.find [Text.newline] cut.lastNlPos with
    | some pos => { cut with lastNlPos := pos + 1 }
    | none => cut
  else cut

/-- A new line in the text to send, and the time limit, which applies from the first one on. -/
def checkNewLine (slot : GenSlot) (textToSend : Text) (late : Bool) : GenSlot :=
  if Text.newline ∈ textToSend then
    if slot.textParams.timeLimit ∧ late then
      { slot with hasNewLine := true, stop := .limit, hasNextToken := false }
    else { slot with hasNewLine := true }
  else slot

def checkContext (slot : GenSlot) : GenSlot :=
  if slot.nCtx ≤ slot.nPast then
    { slot with truncated := true, stop := .limit, hasNextToken := false }
  else slot

def checkEog (slot : GenSlot) (tok : Token) : GenSlot :=
  if cfg.isEog tok then { slot with stop := .eos, hasNextToken := false } else slot

def checkTrain (slot : GenSlot) : GenSlot :=
  if slot.params.nPredict < 1 ∧ slot.nPredict < 1 ∧
      cfg.nCtxTrain ≤ slot.nPromptTokens + slot.nDecoded then
    { slot with truncated := true, stop := .limit, hasNextToken := false }
  else slot

/-- The limits `process_token` checks once the text is sent. -/
def checkLimits (slot : GenSlot) (tok : Token) (textToSend : Text) (late : Bool) : GenSlot :=
  (((((slot.checkBudget cfg).checkIndent.checkNewLine textToSend late).checkContext).checkEog cfg
    tok).checkTrain cfg)

end GenSlot

/-- A response to a completion: the content of a partial one, or of the final one. -/
inductive Response where
  | cmplPartial (content : Text)
  | cmplFinal (content : Text)
  deriving DecidableEq, Repr

def Response.content : Response → Text
  | .cmplPartial content | .cmplFinal content => content

/-- `server_context::process_token`: the slot it leaves and the responses it sends. Generation
goes on if the slot has a next token. `late` is what the clock says of `t_max_predict_ms`. -/
def processToken (cfg : GenConfig) (stream late : Bool) (slot : GenSlot) (tok : Token) :
    GenSlot × List Response :=
  let slot := slot.appendToken cfg tok
  if slot.incomplete then
    (slot.checkLimits cfg tok (cfg.piece tok) late, [])
  else
    let r := slot.sendText (cfg.piece tok).length
    (r.1.checkLimits cfg tok r.2 late, if stream then [.cmplPartial r.2] else [])

/-- The content of `send_final_response`. -/
def finalResponse (stream : Bool) (slot : GenSlot) : Response :=
  -- in stream mode, content is already in last partial chunk
  .cmplFinal (if stream then [] else slot.generatedText)

/-- A sampled token, with the counters `update_slots` has set by then and what the clock says. -/
structure Sampled where
  tok : Token
  nPast : Int
  nDecoded : Int
  late : Bool
  deriving DecidableEq, Repr

def GenSlot.sampledAt (slot : GenSlot) (t : Sampled) : GenSlot :=
  { slot with nPast := t.nPast, nDecoded := t.nDecoded }

variable (cfg : GenConfig)

/-- The slot after some tokens none of which ended generation. -/
def goOn : GenSlot → List Sampled → Option GenSlot
  | slot, [] => some slot
  | slot, t :: ts =>
    let r := processToken cfg false t.late (slot.sampledAt t) t.tok
    if r.1.hasNextToken then goOn r.1 ts else none

/-- The responses a slot sends while tokens are sampled for it. -/
def respond (stream : Bool) : GenSlot → List Sampled → List Response
  | _, [] => []
  | slot, t :: ts =>
    let r := processToken cfg stream t.late (slot.sampledAt t) t.tok
    r.2 ++ if r.1.hasNextToken then respond stream r.1 ts else [finalResponse stream r.1]

/-- The contents of all responses in a row. -/
def contents (responses : List Response) : Text := responses.flatMap Response.content

namespace GenSlot

/-- The text after a stop string in it is cut off. -/
def stopCut (slot : GenSlot) (tokenSize : Nat) : GenSlot :=
  match (slot.findStoppingStrings slot.unsent tokenSize true).2 with
  | some stopPos => { slot with
      generatedText := slot.generatedText.take
        (min slot.nSentText slot.generatedText.length + stopPos) }
  | none => slot

/-- The unsent text is held back: it ends in the middle of a character or, with no stop string
in it, in what may become one. -/
def heldBack (slot : GenSlot) (tokenSize : Nat) : Bool :=
  slot.incomplete || (slot.findStoppingStrings slot.unsent tokenSize true).2.isNone &&
    (slot.findStoppingStrings slot.unsent tokenSize false).2.isSome

/-- The token leaves nothing unsent and cuts nothing sent: either it holds nothing back and the
limit on the indentation cuts nothing, or that limit cuts just what is held back. -/
def Flushes (slot : GenSlot) (tok : Token) : Prop :=
  let slot := slot.appendToken cfg tok
  let tokenSize := (cfg.piece tok).length
  if slot.heldBack tokenSize then slot.indentCut = some slot.nSentText
  else (slot.stopCut tokenSize).indentCut = none

instance (slot : GenSlot) (tok : Token) : Decidable (slot.Flushes cfg tok) :=
  inferInstanceAs (Decidable
    (if (slot.appendToken cfg tok).heldBack (cfg.piece tok).length then
      (slot.appendToken cfg tok).indentCut = some (slot.appendToken cfg tok).nSentText
    else ((slot.appendToken cfg tok).stopCut (cfg.piece tok).length).indentCut = none))

end GenSlot

end LamaServer
