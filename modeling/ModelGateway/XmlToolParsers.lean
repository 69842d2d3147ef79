import ModelGateway.MarkedToolParsers

/-! The tool parsers whose calls are written in tags (`tool_parser/src/parsers/qwen_xml.rs` and
`minimax_m2.rs`), fed an answer chunk by chunk.  A turn of the loop of `parse_incremental` ends the loop or
goes on with a shorter buffer, so the length of the buffer bounds the number of turns.  An index out of
bounds panics, which shows as `none`. -/
namespace ModelGateway.ToolParsers
open Json PartialJson Occurrences JsonToolParser

/-- What the parsers take from elsewhere: equality of `serde_json` values, `char::is_alphanumeric`, and the
order in which a hash map lists its entries. -/
structure XmlHost (F : Type) where
  sameValue : Value F → Value F → Bool
  isAlphanumeric : Char → Bool
  hashOrder : List (Text × Value F) → List (Text × Value F)

variable {F : Type}

/-! ### Patterns -/

/-- A tag at the start of a text: its opening, one or more characters up to `stop`, and its closing. -/
def tagAt (opening : Text → Option Text) (stop : Char) (closing text : Text) : Option (Text × Text) := do
  let rest ← opening text
  let name := rest.takeWhile (· ≠ stop)
  if name = [] then none else (closing.isPrefixOf? (rest.dropWhile (· ≠ stop))).map fun post => (name, post)

/-- A tag, and the shortest text up to the ending. -/
def elementAt (tag : Text → Option (Text × Text)) (ending text : Text) : Option (Text × Text × Text) := do
  let (name, rest) ← tag text
  let (value, post) ← cutAt ending rest
  return (name, value, post)

/-- The leftmost match of a pattern. -/
def findMatch {β : Type} (pattern : Text → Option β) : Text → Option β
  | [] => pattern []
  | char :: rest => (pattern (char :: rest)).or (findMatch pattern rest)

/-- `captures_iter`: the names and values of all elements, at most as many as there are characters. -/
def elements (element : Text → Option (Text × Text × Text)) : Nat → Text → List (Text × Text)
  | 0, _ => []
  | count + 1, text =>
    match findMatch element text with
    | some (name, value, post) => (name, value) :: elements element count post
    | none => []

variable (host : Host F) (serde : Serde F) (xml : XmlHost F) (tools : List Text)

/-- Equality of maps. -/
def sameParameters (first second : List (Text × Value F)) : Bool :=
  first.length == second.length &&
    first.all fun entry => second.any fun other => other.1 = entry.1 && xml.sameValue entry.2 other.2

/-- Parameters as the fields of a JSON object, without its braces. -/
def fieldsText (fmt : F → Text) (parameters : List (Text × Value F)) : Text :=
  List.intercalate ", ".toList
    (parameters.map fun entry => quoted entry.1 ++ ": ".toList ++ serialize fmt entry.2)

/-- The object of a call is still open. -/
def isOpen (arguments : Text) : Bool := arguments.count '\x7d' < arguments.count '\x7b'

/-! ### Qwen XML -/

structure QwenXmlParser (F : Type) where
  buffer : Text := []
  prevToolCallArr : List (Value F) := []
  currentToolId : Int := -1
  currentToolNameSent : Bool := false
  streamedArgsForTool : List Text := []
  inToolCall : Bool := false
  currentFunctionName : Text := []
  currentParameters : List (Text × Value F) := []

/-- The letters, digits and hash marks behind an ampersand, and whether a semicolon ends them. -/
def scanEntity (isAlphanumeric : Char → Bool) : Text → Text × Bool × Text
  | [] => ([], false, [])
  | char :: rest =>
    if char = ';' then ([], true, rest)
    else if isAlphanumeric char || char = '#' then
      let (entity, consumedSemicolon, post) := scanEntity isAlphanumeric rest
      (char :: entity, consumedSemicolon, post)
    else ([], false, char :: rest)

/-- The character of an entity. -/
def decodeEntity : Text → Option Char
  | '#' :: number =>
    match number with
    | 'x' :: hex | 'X' :: hex => if hex ≠ [] ∧ hex.all isHexDigit then fromHex hex else none
    | digits =>
      (readDigits digits).bind fun code =>
        if code < 0xd800 ∨ (0xdfff < code ∧ code < 0x110000) then some (Char.ofNat code.toNat) else none
  | entity =>
    if entity = "amp".toList then some '&'
    else if entity = "lt".toList then some '<'
    else if entity = "gt".toList then some '>'
    else if entity = "quot".toList then some '\x22'
    else if entity = "apos".toList then some '\x27'
    else if entity = "nbsp".toList then some '\u00a0'
    else none

/-- The loop of `html_unescape`, for at most the given number of turns. -/
def htmlUnescapeLoop (isAlphanumeric : Char → Bool) : Nat → Text → Text
  | 0, text => text
  | _, [] => []
  | count + 1, char :: rest =>
    if char = '&' then
      let (entity, consumedSemicolon, post) := scanEntity isAlphanumeric rest
      match decodeEntity entity with
      | some decoded => decoded :: htmlUnescapeLoop isAlphanumeric count post
      | none =>
        '&' :: (entity ++ (if consumedSemicolon then [';'] else []) ++
          htmlUnescapeLoop isAlphanumeric count post)
    else char :: htmlUnescapeLoop isAlphanumeric count rest

def htmlUnescape (isAlphanumeric : Char → Bool) (text : Text) : Text :=
  htmlUnescapeLoop isAlphanumeric text.length text

def safeVal (raw : Text) : Value F :=
  let unescaped := htmlUnescape xml.isAlphanumeric (trim raw)
  match serde.fromStr unescaped with
  | some value => value
  | none =>
    if unescaped = "True".toList then .bool true
    else if unescaped = "False".toList then .bool false
    else if unescaped = "None".toList then .null
    else .string unescaped

namespace QwenXmlParser

def toolCallStartToken : Text := "<tool_call>".toList

def toolCallEndToken : Text := "</tool_call>".toList

/-- `<function=([^>]+)>`. -/
def xmlFunctionPattern : Text → Option (Text × Text) := tagAt "<function=".toList.isPrefixOf? '>' ['>']

/-- `(?s)<parameter=([^>]+)>(.*?)</parameter>`. -/
def xmlParamPattern : Text → Option (Text × Text × Text) :=
  elementAt (tagAt "<parameter=".toList.isPrefixOf? '>' ['>']) "</parameter>".toList

variable (self : QwenXmlParser F)

def parseAndStreamParameters :
    Option (QwenXmlParser F × List ToolCallItem) := do
  let newParams := (elements xmlParamPattern self.buffer.length self.buffer).foldl
    (fun parameters entry => insertField parameters (trim entry.1) (safeVal serde xml entry.2)) []
  if sameParameters xml newParams self.currentParameters then return (self, [])
  else
    let toolId := self.currentToolId.toNat
    let currentArgs ← self.streamedArgsForTool[toolId]?
    let newKeys := newParams.filter fun entry =>
      !self.currentParameters.any fun other => decide (other.1 = entry.1)
    let fragment :=
      if self.currentParameters = [] then '\x7b' :: fieldsText host.fmt newParams
      else if newKeys = [] then []
      else ", ".toList ++ fieldsText host.fmt newKeys
    let streamed := if self.currentParameters = [] then fragment else currentArgs ++ fragment
    let call ← self.prevToolCallArr[toolId]?
    let updated := match call with
      | .object fields => .object (insertField fields "arguments".toList (.object newParams))
      | other => other
    return ({ self with
        streamedArgsForTool := self.streamedArgsForTool.set toolId streamed
        currentParameters := newParams
        prevToolCallArr := self.prevToolCallArr.set toolId updated },
      if fragment = [] then [] else [⟨toolId, none, fragment⟩])

def resetStreamingState : QwenXmlParser F :=
  { self with
      inToolCall := false
      currentToolNameSent := false
      currentFunctionName := []
      currentParameters := [] }

/-- The name of the function is known: the call is tracked, and its name is sent. -/
def startCall (functionName post : Text) : QwenXmlParser F × ToolCallItem :=
  let currentToolId := if self.currentToolId = -1 then 0 else self.currentToolId
  let toolId := currentToolId.toNat
  ({ self with
      buffer := post
      currentFunctionName := functionName
      currentToolNameSent := true
      currentToolId := currentToolId
      prevToolCallArr := (resizeWith self.prevToolCallArr (toolId + 1) .null).set toolId
        (.object [("name".toList, .string functionName), ("arguments".toList, .object [])])
      streamedArgsForTool := resizeWith self.streamedArgsForTool (toolId + 1) [] },
    ⟨toolId, some functionName, []⟩)

/-- The end of the call is there: its object is closed. -/
def endCall (post : Text) : Option (QwenXmlParser F × List ToolCallItem) := do
  let toolId := self.currentToolId.toNat
  let currentArgs ← self.streamedArgsForTool[toolId]?
  let closes := isOpen currentArgs
  return ({ self.resetStreamingState with
      buffer := post
      streamedArgsForTool :=
        if closes then self.streamedArgsForTool.set toolId (currentArgs ++ ['\x7d']) else self.streamedArgsForTool
      currentToolId := self.currentToolId + 1 },
    if closes then [⟨toolId, none, ['\x7d']⟩] else [])

/-- A turn of the loop of `parse_incremental`, and whether the loop goes on. -/
def turn (result : StreamingParseResult) : Option (QwenXmlParser F × StreamingParseResult × Bool) :=
  if !self.inToolCall && !contains toolCallStartToken self.buffer then
    if (endsWithPartialToken self.buffer toolCallStartToken).isNone then
      some ({ self with buffer := [] }, { result with normalText := result.normalText ++ self.buffer }, false)
    else some (self, result, false)
  else if !self.inToolCall then
    match cutAt toolCallStartToken self.buffer with
    | some (pre, post) =>
      some ({ self.resetStreamingState with buffer := post, inToolCall := true },
        { result with normalText := result.normalText ++ pre }, true)
    | none => some (self, result, false)
  else if !self.currentToolNameSent then
    match findMatch xmlFunctionPattern self.buffer with
    | some (name, post) =>
      if trim name ∈ tools then
        let (next, call) := self.startCall (trim name) post
        some (next, { result with calls := result.calls ++ [call] }, true)
      else
        some ({ self.resetStreamingState with buffer := [] },
          { result with normalText := result.normalText ++ self.buffer }, false)
    | none => some (self, result, false)
  else do
    let (next, calls) ← self.parseAndStreamParameters host serde xml
    match cutAt toolCallEndToken next.buffer with
    | some (_, post) =>
      let (last, closing) ← next.endCall post
      return (last, { result with calls := result.calls ++ calls ++ closing }, true)
    | none => return (next, { result with calls := result.calls ++ calls }, false)

/-- The loop of `parse_incremental`. -/
def loop (host : Host F) (serde : Serde F) (xml : XmlHost F) (tools : List Text) :
    Nat → QwenXmlParser F → StreamingParseResult → Option (QwenXmlParser F × StreamingParseResult)
  | 0, _, _ => none
  | turns + 1, self, result => do
    let (next, result, again) ← self.turn host serde xml tools result
    if again then loop host serde xml tools turns next result else return (next, result)

def parseIncremental (chunk : Text) : Option (QwenXmlParser F × StreamingParseResult) :=
  let buffer := self.buffer ++ chunk
  loop host serde xml tools (buffer.length + 1) { self with buffer := buffer } {}

end QwenXmlParser

/-! ### MiniMax -/

structure MinimaxM2Parser (F : Type) where
  buffer : Text := []
  prevToolCallArr : List (Value F) := []
  currentToolId : Int := -1
  streamedArgsForTool : List Text := []
  currentFunctionName : Text := []
  currentParameters : List (Text × Value F) := []
  inToolCall : Bool := false
  functionNameSent : Bool := false
  waitingForToolCallEnd : Bool := false

/-- `str::replace`, behind the next `skip` characters of an occurrence that is replaced already. -/
def replaceFrom (pattern new : Text) : Nat → Text → Text
  | _, [] => []
  | skip + 1, _ :: rest => replaceFrom pattern new skip rest
  | 0, char :: rest =>
    if pattern.isPrefixOf (char :: rest) then new ++ replaceFrom pattern new (pattern.length - 1) rest
    else char :: replaceFrom pattern new 0 rest

/-- `<name\s+name="`, the opening of a tag with its name in an attribute. -/
def namedOpening (tag text : Text) : Option Text := do
  let rest ← tag.isPrefixOf? text
  if (skipWhitespace rest).length = rest.length then none
  else "name=\x22".toList.isPrefixOf? (skipWhitespace rest)

namespace MinimaxM2Parser

def toolCallStartToken : Text := "<minimax:tool_call>".toList

def toolCallEndToken : Text := "</minimax:tool_call>".toList

def invokeEndToken : Text := "</invoke>".toList

/-- `(?s)<invoke\s+name="([^"]+)">(.*?)</invoke>`. -/
def invokeExtractor : Text → Option (Text × Text × Text) :=
  elementAt (tagAt (namedOpening "<invoke".toList) '\x22' "\x22>".toList) "</invoke>".toList

/-- `(?s)<parameter\s+name="([^"]+)">(.*?)</parameter>`. -/
def paramExtractor : Text → Option (Text × Text × Text) :=
  elementAt (tagAt (namedOpening "<parameter".toList) '\x22' "\x22>".toList) "</parameter>".toList

def decodeXmlEntities (text : Text) : Text :=
  [("&lt;", "<"), ("&gt;", ">"), ("&amp;", "&"), ("&quot;", "\x22"), ("&apos;", "\x27")].foldl
    (fun text entry => replaceFrom entry.1.toList entry.2.toList 0 text) text

def parseValue (text : Text) : Value F :=
  if text = "true".toList ∨ text = "True".toList then .bool true
  else if text = "false".toList ∨ text = "False".toList then .bool false
  else if text = "null".toList ∨ text = "None".toList then .null
  else
    match parseI64 text, host.parseF64 text with
    | some number, _ => .int number
    | none, some (some number) => .float number
    | none, _ => .string text

/-- The value of a parameter; objects and arrays are read as JSON. -/
def parameterValue (raw : Text) : Value F :=
  let decoded := decodeXmlEntities raw
  if ['\x7b'].isPrefixOf decoded || ['['].isPrefixOf decoded then
    (serde.fromStr decoded).getD (parseValue host decoded)
  else parseValue host decoded

variable (self : MinimaxM2Parser F)

def parseAndStreamParameters :
    MinimaxM2Parser F × List ToolCallItem :=
  let newParams := (elements paramExtractor self.buffer.length self.buffer).foldl
    (fun parameters entry => insertField parameters (trim entry.1) (parameterValue host serde entry.2)) []
  if newParams = [] ∨ sameParameters xml newParams self.currentParameters = true then (self, [])
  else
    let toolId := self.currentToolId.toNat
    let streamedArgs := resizeWith self.streamedArgsForTool (toolId + 1) []
    let newKeys := (xml.hashOrder newParams).filter fun entry =>
      !self.currentParameters.any fun other => decide (other.1 = entry.1)
    let fragment :=
      if self.currentParameters = [] then '\x7b' :: fieldsText host.fmt (xml.hashOrder newParams)
      else if newKeys = [] then []
      else ", ".toList ++ fieldsText host.fmt newKeys
    ({ self with
        streamedArgsForTool := streamedArgs.modify toolId fun streamed =>
          if self.currentParameters = [] then fragment else streamed ++ fragment
        currentParameters := newParams
        prevToolCallArr := (resizeWith self.prevToolCallArr (toolId + 1) .null).set toolId
          (.object [("name".toList, .string self.currentFunctionName),
            ("arguments".toList, .object (xml.hashOrder newParams))]) },
      if fragment = [] then [] else [⟨toolId, none, fragment⟩])

/-- The name of the function is known: the call is tracked, and its name is sent.  The buffer goes on
behind the first closing bracket. -/
def startCall (functionName : Text) : MinimaxM2Parser F × ToolCallItem :=
  let currentToolId := if self.currentToolId = -1 then 0 else self.currentToolId
  let toolId := currentToolId.toNat
  ({ self with
      buffer := match cutAt ['>'] self.buffer with
        | some (_, post) => post
        | none => self.buffer
      currentFunctionName := functionName
      functionNameSent := true
      currentToolId := currentToolId
      prevToolCallArr := resizeWith self.prevToolCallArr (toolId + 1) .null
      streamedArgsForTool := resizeWith self.streamedArgsForTool (toolId + 1) [] },
    ⟨toolId, some functionName, []⟩)

/-- Closes the object of the call, if it has one that is open. -/
def closeArguments : MinimaxM2Parser F × List ToolCallItem :=
  let toolId := self.currentToolId.toNat
  match self.streamedArgsForTool[toolId]? with
  | some streamed =>
    if streamed ≠ [] ∧ ['\x7d'].isSuffixOf streamed = false ∧ isOpen streamed = true then
      ({ self with streamedArgsForTool := self.streamedArgsForTool.set toolId (streamed ++ ['\x7d']) },
        [⟨toolId, none, ['\x7d']⟩])
    else (self, [])
  | none => (self, [])

/-- The end of the call is there. -/
def endCall (post : Text) : MinimaxM2Parser F :=
  { self with
      buffer := post
      inToolCall := false
      waitingForToolCallEnd := false
      functionNameSent := false
      currentFunctionName := []
      currentParameters := []
      currentToolId := self.currentToolId + 1 }

/-- A turn of the loop of `parse_incremental`, and whether the loop goes on.  The normal text before a start
token replaces the one collected before. -/
def turn (result : StreamingParseResult) : MinimaxM2Parser F × StreamingParseResult × Bool :=
  if self.waitingForToolCallEnd then
    match cutAt toolCallEndToken self.buffer with
    | some (_, post) => (self.endCall post, result, true)
    | none => (self, result, false)
  else if !self.inToolCall && !contains toolCallStartToken self.buffer then
    match endsWithPartialToken self.buffer toolCallStartToken with
    | some partialLen =>
      let split := self.buffer.length - partialLen
      ({ self with buffer := self.buffer.drop split }, { result with normalText := self.buffer.take split }, false)
    | none => ({ self with buffer := [] }, { result with normalText := self.buffer }, false)
  else if !self.inToolCall then
    match cutAt toolCallStartToken self.buffer with
    | some (pre, post) =>
      ({ self with
          buffer := post
          inToolCall := true
          functionNameSent := false
          currentFunctionName := []
          currentParameters := [] }, { result with normalText := pre }, true)
    | none => (self, result, false)
  else if !self.functionNameSent then
    match findMatch invokeExtractor self.buffer with
    | some (name, _, _) =>
      if trim name ∈ tools then
        let (next, call) := self.startCall (trim name)
        (next, { result with calls := result.calls ++ [call] }, true)
      else
        ({ self with inToolCall := false, buffer := [] },
          { result with normalText := result.normalText ++ self.buffer }, false)
    | none => (self, result, false)
  else
    let (next, calls) := self.parseAndStreamParameters host serde xml
    match cutAt invokeEndToken next.buffer with
    | some (_, behind) =>
      let (closed, closing) := next.closeArguments
      let result := { result with calls := result.calls ++ calls ++ closing }
      match cutAt toolCallEndToken behind with
      | some (_, post) => (closed.endCall post, result, true)
      | none => ({ closed with buffer := behind, waitingForToolCallEnd := true }, result, false)
    | none => (next, { result with calls := result.calls ++ calls }, false)

/-- The loop of `parse_incremental`. -/
def loop (host : Host F) (serde : Serde F) (xml : XmlHost F) (tools : List Text) :
    Nat → MinimaxM2Parser F → StreamingParseResult → Option (MinimaxM2Parser F × StreamingParseResult)
  | 0, _, _ => none
  | turns + 1, self, result =>
    let (next, result, again) := self.turn host serde xml tools result
    if again then loop host serde xml tools turns next result else some (next, result)

def parseIncremental (chunk : Text) : Option (MinimaxM2Parser F × StreamingParseResult) :=
  let buffer := self.buffer ++ chunk
  loop host serde xml tools (buffer.length + 1) { self with buffer := buffer } {}

end MinimaxM2Parser
end ModelGateway.ToolParsers
