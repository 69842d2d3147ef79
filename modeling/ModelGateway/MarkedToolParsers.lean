import ModelGateway.JsonToolParser
import ModelGateway.Occurrences

/-! The tool parsers whose calls are JSON behind a start token (`tool_parser/src/parsers/mistral.rs`,
`qwen.rs`, `llama.rs` and `cohere.rs`), fed an answer chunk by chunk.  Text that ends with a beginning of
the start token is held back. -/
namespace ModelGateway.ToolParsers
open Json PartialJson Utf8 Occurrences JsonToolParser

variable {F : Type}

/-- `ends_with_partial_token`.  The tokens are ASCII, so their bytes are their characters. -/
def endsWithPartialToken (buffer token : Text) : Option Nat :=
  if buffer = [] ∨ token = [] then none
  else (List.range' 1 (token.length - 1)).find? fun i => (token.take i).isSuffixOf buffer

/-- The normal text of the chunks of an answer, and the parser behind them. -/
def streamText {P : Type} (parse : P → Text → Option (P × StreamingParseResult)) :
    P → List Text → Option (P × Text)
  | self, [] => some (self, [])
  | self, chunk :: rest => do
    let (next, result) ← parse self chunk
    let (last, more) ← streamText parse next rest
    return (last, result.normalText ++ more)

/-! ### Tokens before JSON -/

/-- The tokens of a format, and what `has_tool_markers` looks for. -/
structure Format where
  botToken : Text
  toolCallSeparator : Text
  hasToolMarkers : Text → Bool

namespace Format

def hasToolStart (format : Format) (self : JsonParser F) (currentText : Text) : Bool :=
  format.hasToolMarkers currentText || (0 < self.currentToolId && format.toolCallSeparator.isPrefixOf currentText)

/-- Where the JSON starts, in bytes. -/
def startIdx (format : Format) (self : JsonParser F) (currentText : Text) : Nat :=
  match find format.botToken currentText with
  | some pos => byteLen (currentText.take pos) + byteLen format.botToken
  | none =>
    if 0 < self.currentToolId ∧ format.toolCallSeparator.isPrefixOf currentText = true then
      byteLen format.toolCallSeparator
    else 0

/-- What the three `parse_incremental` have in common; `emit` sends a buffer that starts no call. -/
def parseIncremental (format : Format) (emit : JsonParser F → JsonParser F × StreamingParseResult)
    (host : Host F) (serde : Serde F) (tools : List Text) (self : JsonParser F) (chunk : Text) :
    Option (JsonParser F × StreamingParseResult) :=
  let ready := { self with buffer := self.buffer ++ chunk }
  if !format.hasToolStart ready ready.buffer then
    if (endsWithPartialToken ready.buffer format.botToken).isNone then some (emit ready)
    else some (ready, {})
  else handleJsonToolStreaming host serde tools ready.buffer (format.startIdx ready ready.buffer) ready

end Format

def emitBuffer (self : JsonParser F) : JsonParser F × StreamingParseResult :=
  ({ self with buffer := [] }, { normalText := self.buffer })

def mistral : Format :=
  ⟨"[TOOL_CALLS] [".toList, ", ".toList, contains "[TOOL_CALLS]".toList⟩

/-- The bracket that closes the array of calls is not sent. -/
def emitBehindArray (self : JsonParser F) : JsonParser F × StreamingParseResult :=
  if !self.arrayClosed && 0 < self.currentToolId && [']'].isPrefixOf self.buffer then
    ({ self with buffer := [], arrayClosed := true }, { normalText := self.buffer.drop 1 })
  else emitBuffer self

variable (host : Host F) (serde : Serde F) (tools : List Text)

/-- `MistralParser::parse_incremental`.  The parser has the fields of `JsonParser` but `is_array_format`. -/
def mistralParseIncremental :
    JsonParser F → Text → Option (JsonParser F × StreamingParseResult) :=
  mistral.parseIncremental emitBehindArray host serde tools

def llama : Format where
  botToken := "<|python_tag|>".toList
  toolCallSeparator := ";".toList
  hasToolMarkers text := contains "<|python_tag|>".toList text || ['\x7b'].isPrefixOf (skipWhitespace text)

/-- `LlamaParser::parse_incremental`.  The parser has the fields of `JsonParser` but those about arrays. -/
def llamaParseIncremental :
    JsonParser F → Text → Option (JsonParser F × StreamingParseResult) :=
  llama.parseIncremental emitBuffer host serde tools

/-! ### Qwen -/

structure QwenParser (F : Type) extends JsonParser F where
  normalTextBuffer : Text := []

def QwenParser.new : QwenParser F := { toJsonParser := .new }

def qwen : Format := ⟨"<tool_call>\n".toList, "\n".toList, contains "<tool_call>".toList⟩

/-- `individual_tool_end_token` without its newline. -/
def individualToolEndToken : Text := "</tool_call>".toList

/-- Takes end tokens out of the normal text behind a call. -/
def QwenParser.cleanNormalText (self : QwenParser F) (result : StreamingParseResult) :
    QwenParser F × StreamingParseResult :=
  if result.normalText = [] then (self, result)
  else
    let text := self.normalTextBuffer ++ result.normalText
    if contains individualToolEndToken text then
      ({ self with normalTextBuffer := [] }, { result with normalText := removeAll individualToolEndToken text })
    else
      match endsWithPartialToken text individualToolEndToken with
      | some partialMatchLen =>
        let splitPoint := text.length - partialMatchLen
        ({ self with normalTextBuffer := text.drop splitPoint }, { result with normalText := text.take splitPoint })
      | none => ({ self with normalTextBuffer := [] }, { result with normalText := text })

def QwenParser.parseIncremental (self : QwenParser F)
    (chunk : Text) : Option (QwenParser F × StreamingParseResult) :=
  let ready := { self with buffer := self.buffer ++ chunk }
  if !qwen.hasToolStart ready.toJsonParser ready.buffer then
    if (endsWithPartialToken ready.buffer qwen.botToken).isNone then
      some ({ ready with buffer := [] }, { normalText := ready.buffer })
    else some (ready, {})
  else do
    let (next, result) ← handleJsonToolStreaming host serde tools ready.buffer
      (qwen.startIdx ready.toJsonParser ready.buffer) ready.toJsonParser
    return QwenParser.cleanNormalText { ready with toJsonParser := next } result

/-! ### Cohere -/

inductive ParseState where
  | text
  | inAction
  deriving DecidableEq, Repr

structure CohereParser (F : Type) extends JsonParser F where
  state : ParseState := .text

def CohereParser.new : CohereParser F := { toJsonParser := .new }

def startAction : Text := "<|START_ACTION|>".toList

def endAction : Text := "<|END_ACTION|>".toList

/-- `START_RESPONSE`, `END_RESPONSE`, `START_TEXT` and `END_TEXT`, in the order they are taken out. -/
def textMarkers : List Text :=
  ["<|START_RESPONSE|>".toList, "<|END_RESPONSE|>".toList, "<|START_TEXT|>".toList, "<|END_TEXT|>".toList]

def cleanText (text : Text) : Text := textMarkers.foldl (fun text marker => removeAll marker text) text

def CohereParser.parseIncremental (self : CohereParser F) (chunk : Text) :
    Option (CohereParser F × StreamingParseResult) :=
  let buffer := self.buffer ++ chunk
  match self.state with
  | .text =>
    match find startAction buffer with
    | some pos =>
      some ({ self with state := .inAction, buffer := buffer.drop (pos + startAction.length) },
        { normalText := cleanText (buffer.take pos) })
    | none =>
      if (endsWithPartialToken buffer startAction).isSome then some ({ self with buffer := buffer }, {})
      else some ({ self with buffer := [] }, { normalText := cleanText buffer })
  | .inAction =>
    match find endAction buffer with
    | some pos => do
      -- the helper works on a buffer of its own
      let (next, result) ← handleJsonToolStreaming host serde tools (buffer.take pos) 0
        { self.toJsonParser with buffer := [] }
      return ({ toJsonParser := { next with buffer := buffer.drop (pos + endAction.length) }, state := .text },
        result)
    | none => some ({ self with buffer := buffer }, {})

end ModelGateway.ToolParsers
