import ModelGateway.JsonViews
import ModelGateway.PartialJson

/-! Tool calls in JSON (`tool_parser/src/parsers/json.rs` and `helpers.rs`): the parser that reads a
complete answer, and the one that is fed an answer chunk by chunk and sends the name of a call and then
its arguments as they grow. Byte positions that are not between two characters make a slice panic,
which shows as `none`. -/
namespace ModelGateway.JsonToolParser
open Json PartialJson Utf8

/-- What the parser takes from `serde_json`. -/
structure Serde (F : Type) where
  fromStr : Text → Option (Value F)
  isCompleteJson : Text → Bool

structure FunctionCall where
  name : Text
  arguments : Text
  deriving DecidableEq, Repr

structure ToolCall where
  function : FunctionCall
  deriving DecidableEq, Repr

structure ToolCallItem where
  toolIndex : Nat
  name : Option Text
  parameters : Text
  deriving DecidableEq, Repr

structure StreamingParseResult where
  normalText : Text := []
  calls : List ToolCallItem := []
  deriving DecidableEq, Repr

variable {F : Type}

/-! ### Complete answers -/

/-- The state of `extract_json_from_text`; positions count characters. -/
structure Scan where
  inString : Bool := false
  escape : Bool := false
  stack : List Char := []
  start : Option Nat := none

/-- The loop of `extract_json_from_text` from a position on. -/
def extractLoop (serde : Serde F) (text : Text) : Scan → Nat → Text → Option (Text × Text)
  | _, _, [] => none
  | scan, position, char :: rest =>
    if scan.escape then extractLoop serde text { scan with escape := false } (position + 1) rest
    else if char = '\x5c' ∧ scan.inString = true then
      extractLoop serde text { scan with escape := true } (position + 1) rest
    else if char = '\x22' then
      extractLoop serde text { scan with inString := !scan.inString } (position + 1) rest
    else if scan.inString then extractLoop serde text scan (position + 1) rest
    else if char = '\x7b' ∨ char = '[' then
      extractLoop serde text
        { scan with start := scan.start.or (some position), stack := char :: scan.stack } (position + 1) rest
    else if char = '\x7d' ∨ char = ']' then
      match scan.stack with
      | [] => extractLoop serde text { scan with start := none } (position + 1) rest
      | opened :: stack =>
        if opened = '\x7b' ∧ char = '\x7d' ∨ opened = '[' ∧ char = ']' then
          match stack, scan.start with
          | [], some start =>
            let json := (text.take (position + 1)).drop start
            if (serde.fromStr json).isSome then some (json, text.take start ++ text.drop (position + 1))
            else extractLoop serde text { scan with start := none, stack := [] } (position + 1) rest
          | stack, _ => extractLoop serde text { scan with stack := stack } (position + 1) rest
        else extractLoop serde text { scan with start := none, stack := [] } (position + 1) rest
    else extractLoop serde text scan (position + 1) rest

def extractJsonFromText (serde : Serde F) (text : Text) : Option (Text × Text) :=
  extractLoop serde text {} 0 text

variable (fmt : F → Text)

def parseSingleObject (value : Value F) : Option ToolCall :=
  (((value.get "name".toList).or (value.get "function".toList)).bind Value.asStr).map fun name =>
    let arguments := ((value.get "arguments".toList).or (value.get "parameters".toList)).getD (.object [])
    ⟨name, serialize fmt arguments⟩

def parseJsonValue : Value F → List ToolCall
  | .array items => items.filterMap (parseSingleObject fmt)
  | .object fields => (parseSingleObject fmt (.object fields)).toList
  | _ => []

/-- `parse_complete`: the normal text and the calls. -/
def parseComplete (serde : Serde F) (fmt : F → Text) (text : Text) : Text × List ToolCall :=
  match extractJsonFromText serde text with
  | some (json, normalText) =>
    match serde.fromStr json with
    | some value => (normalText, parseJsonValue fmt value)
    | none => (text, [])
  | none => (text, [])

/-! ### Streamed answers -/

/-- `JsonParser`, without the lenient parser and the separator, which do not change. -/
structure JsonParser (F : Type) where
  buffer : Text
  prevToolCallArr : List (Value F)
  currentToolId : Int
  currentToolNameSent : Bool
  streamedArgsForTool : List Text
  isArrayFormat : Bool
  arrayClosed : Bool

def JsonParser.new : JsonParser F := ⟨[], [], -1, false, [], false, false⟩

def resizeWith {α : Type} (values : List α) (size : Nat) (filler : α) : List α :=
  values ++ List.replicate (size - values.length) filler

def ensureCapacity (self : JsonParser F) : JsonParser F :=
  if self.currentToolId < 0 then self
  else
    let needed := (self.currentToolId + 1).toNat
    { self with
      prevToolCallArr := resizeWith self.prevToolCallArr needed .null
      streamedArgsForTool := resizeWith self.streamedArgsForTool needed [] }

def resetCurrentToolState (self : JsonParser F) : JsonParser F :=
  { self with
    buffer := []
    currentToolNameSent := false
    streamedArgsForTool :=
      if self.prevToolCallArr.length < self.streamedArgsForTool.length then self.streamedArgsForTool.dropLast
      else self.streamedArgsForTool }

/-- Copies one field of an object to another that it does not have. -/
def normalizeField (source target : Text) (value : Value F) : Value F :=
  match value, value.get target, value.get source with
  | .object fields, none, some inner => .object (insertField fields target inner)
  | value, _, _ => value

def normalizeArgumentsField : Value F → Value F := normalizeField "parameters".toList "arguments".toList

def normalizeNameField : Value F → Value F := normalizeField "tool_name".toList "name".toList

def normalizeToolCallFields (value : Value F) : Value F := normalizeArgumentsField (normalizeNameField value)

def toolName (call : Value F) : Option Text := (call.get "name".toList).bind Value.asStr

/-- Case 1 of `handle_json_tool_streaming`: sends the name of the current call. -/
def streamName (tools : List Text) (call : Value F) (self : JsonParser F) :
    JsonParser F × StreamingParseResult :=
  match toolName call with
  | none => (self, {})
  | some name =>
    if name ∈ tools then
      let ready :=
        if self.currentToolId = -1 then
          { self with currentToolId := 0, streamedArgsForTool := self.streamedArgsForTool ++ [[]] }
        else if self.streamedArgsForTool.length ≤ self.currentToolId.toNat then ensureCapacity self
        else self
      ({ ready with currentToolNameSent := true }, { calls := [⟨ready.currentToolId.toNat, some name, []⟩] })
    else (self, {})

/-- What of the arguments is sent next. -/
def argumentDiff (isComplete : Bool) (sent : Nat) (current : Text) (previous : Option Text) :
    Option (Option Text) :=
  let rest (text : Text) : Option (Option Text) :=
    if sent < byteLen text then (splitAt? text sent).map fun parts => some parts.2 else some (some [])
  if isComplete then rest current
  else
    match previous with
    | some previous => if current ≠ previous then rest (commonPrefix previous current) else some none
    | none => some none

/-- Case 2 of `handle_json_tool_streaming`: sends what is new of the arguments. `remaining` is the text
behind the call. -/
def streamArguments (call arguments : Value F) (isComplete : Bool)
    (remaining : Option Text) (self : JsonParser F) : Option (JsonParser F × StreamingParseResult) := do
  let toolId := self.currentToolId.toNat
  let sent := ((self.streamedArgsForTool[toolId]?).map byteLen).getD 0
  let previous := ((self.prevToolCallArr[toolId]?).bind (Value.get "arguments".toList)).map (serialize fmt)
  let diff := ((← argumentDiff isComplete sent (serialize fmt arguments) previous)).getD []
  let streamed := { self with streamedArgsForTool := self.streamedArgsForTool.modify toolId (· ++ diff) }
  let updated :=
    if self.currentToolId < 0 then streamed
    else { ensureCapacity streamed with
      prevToolCallArr := (ensureCapacity streamed).prevToolCallArr.set toolId call }
  let calls : List ToolCallItem := if diff = [] then [] else [⟨toolId, none, diff⟩]
  if isComplete then
    return ({ updated with
      buffer := ← remaining
      currentToolNameSent := false
      currentToolId := updated.currentToolId + 1 }, { calls })
  else return (updated, { calls })

def handleJsonToolStreaming (host : Host F) (serde : Serde F) (tools : List Text) (currentText : Text)
    (startIdx : Nat) (self : JsonParser F) : Option (JsonParser F × StreamingParseResult) :=
  if byteLen currentText ≤ startIdx then some (self, {})
  else do
    let (_, jsonStr) ← splitAt? currentText startIdx
    match Settings.parse host {} jsonStr self.currentToolNameSent with
    | .error _ => return (self, {})
    | .ok (obj, endIdx) =>
      let (parsed, _) ← splitAt? jsonStr (walkBack jsonStr endIdx)
      let call := normalizeToolCallFields obj
      if (toolName call).any (· ∉ tools) then return (resetCurrentToolState self, {})
      else if !self.currentToolNameSent then return streamName tools call self
      else
        match call.get "arguments".toList with
        | none => return (self, {})
        | some arguments =>
          streamArguments host.fmt call arguments (serde.isCompleteJson parsed)
            ((splitAt? currentText (startIdx + endIdx)).map Prod.snd) self

def trim (text : Text) : Text := ((skipWhitespace text).reverse.dropWhile isWhitespace).reverse

def hasToolMarkers (text : Text) : Bool :=
  ['['].isPrefixOf (trim text) || ['\x7b'].isPrefixOf (trim text)

/-- `str::find` of a character. -/
def findChar (char : Char) : Text → Option Nat
  | [] => none
  | first :: rest => if first = char then some 0 else (findChar char rest).map (· + first.utf8Size)

def toolCallSeparator : Text := [',']

/-- Where the JSON starts in the buffered text. -/
def startIndex (currentToolId : Int) (currentText : Text) : Nat :=
  match findChar '[' currentText, findChar '\x7b' currentText with
  | some _, some brace => brace
  | some bracket, none => bracket
  | none, some brace => brace
  | none, none =>
    if 0 < currentToolId ∧ toolCallSeparator.isPrefixOf currentText = true then byteLen toolCallSeparator
    else 0

def JsonParser.parseIncremental (host : Host F) (serde : Serde F) (tools : List Text) (self : JsonParser F)
    (chunk : Text) : Option (JsonParser F × StreamingParseResult) :=
  let currentText := self.buffer ++ chunk
  let ready := { self with
    buffer := currentText
    isArrayFormat :=
      if self.currentToolId = -1 ∧ hasToolMarkers currentText = true then ['['].isPrefixOf (trim currentText)
      else self.isArrayFormat }
  let hasToolStart := (!ready.arrayClosed && hasToolMarkers currentText) ||
    (0 < ready.currentToolId && toolCallSeparator.isPrefixOf currentText)
  if !hasToolStart then
    if ready.isArrayFormat && !ready.arrayClosed && 0 < ready.currentToolId &&
        [']'].isPrefixOf currentText then
      some ({ ready with buffer := [], arrayClosed := true }, { normalText := currentText.drop 1 })
    else some ({ ready with buffer := [] }, { normalText := currentText })
  else handleJsonToolStreaming host serde tools currentText (startIndex ready.currentToolId currentText) ready

/-- `get_unstreamed_args`. -/
def JsonParser.getUnstreamedToolArgs (self : JsonParser F) :
    Option (List ToolCallItem) := do
  if self.prevToolCallArr = [] ∨ self.streamedArgsForTool = [] then none
  else
    let toolIndex := self.prevToolCallArr.length - 1
    let actual ← self.streamedArgsForTool[toolIndex]?
    let call ← self.prevToolCallArr[toolIndex]?
    let expected := serialize fmt (← call.get "arguments".toList)
    if actual.isPrefixOf expected = true ∧ expected ≠ actual then
      some [⟨toolIndex, none, expected.drop actual.length⟩]
    else none

/-- The items of the chunks of an answer, one call after the other. -/
def feed (host : Host F) (serde : Serde F) (tools : List Text) :
    JsonParser F → List Text → Option (JsonParser F × List ToolCallItem)
  | self, [] => some (self, [])
  | self, chunk :: rest => do
    let (next, result) ← self.parseIncremental host serde tools chunk
    let (last, items) ← feed host serde tools next rest
    return (last, result.calls ++ items)

end ModelGateway.JsonToolParser
