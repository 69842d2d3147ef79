import Mathlib
import ModelGateway.Json
import ModelGateway.Utf8

/-! The lenient JSON parser (`tool_parser/src/partial_json.rs`), which reads the beginning of a JSON
text and closes what is open. A parse function takes the characters from the cursor on and returns its
result with the characters it leaves. -/
namespace ModelGateway.PartialJson
open Json Utf8 Char

/-- What the parser takes from the standard library: the alphabetic characters, and floating point
numbers in `F`. A text that reads as a number that is not finite gives `some none`. -/
structure Host (F : Type) where
  isAlphabetic : Char → Bool
  alphabetic_ascii : ∀ char : Char, char.toNat < 128 → isAlphabetic char = char.isAlpha
  parseF64 : Text → Option (Option F)
  parseF64_sign : parseF64 ['-'] = none
  fmt : F → Text

inductive ParserError
  | parsingFailed (message : String)
  | depthExceeded (maxDepth : Nat)
  deriving DecidableEq, Repr

/-- `char::is_whitespace`. -/
def isWhitespace (char : Char) : Bool :=
  (9 ≤ char.toNat && char.toNat ≤ 13) || char.toNat == 0x20 || char.toNat == 0x85 || char.toNat == 0xa0 ||
    char.toNat == 0x1680 || (0x2000 ≤ char.toNat && char.toNat ≤ 0x200a) || char.toNat == 0x2028 ||
    char.toNat == 0x2029 || char.toNat == 0x202f || char.toNat == 0x205f || char.toNat == 0x3000

/-- The settings of a `Parser`. -/
structure Parser where
  maxDepth : Nat
  allowIncomplete : Bool
  allowPartialStrings : Bool

abbrev Parsed (α : Type) := Except ParserError α × Text

variable {F : Type}

def failed {α : Type} (message : String) (text : Text) : Parsed α := (.error (.parsingFailed message), text)

def skipWhitespace (text : Text) : Text := text.dropWhile isWhitespace

/-! ### Strings -/

def isHexDigit (char : Char) : Bool :=
  char.isDigit || ('a' ≤ char && char ≤ 'f') || ('A' ≤ char && char ≤ 'F')

def hexValue (char : Char) : Nat :=
  if char.isDigit then char.toNat - '0'.toNat
  else if 'a' ≤ char then char.toNat - 'a'.toNat + 10
  else char.toNat - 'A'.toNat + 10

/-- `u32::from_str_radix` and `char::from_u32`. -/
def fromHex (hex : Text) : Option Char :=
  let code := hex.foldl (fun value char => value * 16 + hexValue char) 0
  if code < 0xd800 ∨ (0xdfff < code ∧ code < 0x110000) then some (ofNat code) else none

def unescape (char : Char) : Char :=
  if char = 'b' then '\x08'
  else if char = 'f' then '\x0c'
  else if char = 'n' then '\x0a'
  else if char = 'r' then '\x0d'
  else if char = 't' then '\x09'
  else char

/-- Where the loop of `parse_string` is: in the text, behind a backslash, or among the digits of
`parse_unicode_escape`. -/
inductive Mode
  | plain
  | escaped
  | unicode (hex : Text)

/-- The loop of `parse_string`. -/
def stringLoop (parser : Parser) : Text → Mode → Text → Parsed Text
  | string, .plain, [] | string, .escaped, [] =>
    if parser.allowIncomplete && parser.allowPartialStrings then (.ok string, [])
    else failed "Unterminated string" []
  | string, .unicode _, [] =>
    if parser.allowIncomplete then
      if parser.allowPartialStrings then (.ok (string ++ ['\ufffd']), []) else failed "Unterminated string" []
    else failed "Incomplete unicode escape" []
  | string, .plain, char :: rest =>
    if char = '\x5c' then stringLoop parser string .escaped rest
    else if char = '\x22' then (.ok string, rest)
    else stringLoop parser (string ++ [char]) .plain rest
  | string, .escaped, char :: rest =>
    if char = 'u' then stringLoop parser string (.unicode []) rest
    else stringLoop parser (string ++ [unescape char]) .plain rest
  | string, .unicode hex, char :: rest =>
    if isHexDigit char then
      if hex.length = 3 then
        match fromHex (hex ++ [char]) with
        | some code => stringLoop parser (string ++ [code]) .plain rest
        | none => failed "Invalid unicode escape" rest
      else stringLoop parser string (.unicode (hex ++ [char])) rest
    else if parser.allowIncomplete then
      -- the escape is short, and the character is read as one of the text
      if char = '\x5c' then stringLoop parser (string ++ ['\ufffd']) .escaped rest
      else if char = '\x22' then (.ok (string ++ ['\ufffd']), rest)
      else stringLoop parser (string ++ ['\ufffd', char]) .plain rest
    else failed "Incomplete unicode escape" (char :: rest)

variable (host : Host F) (parser : Parser)

def parseString : Text → Parsed Text
  | '\x22' :: rest => stringLoop parser [] .plain rest
  | text => failed "Expected '\x22'" text

/-! ### Numbers -/

def takeSign : Text → Text × Text
  | '-' :: rest => (['-'], rest)
  | text => ([], text)

def takeDigits (text : Text) : Text × Text := (text.takeWhile isDigit, text.dropWhile isDigit)

def takeWhole : Text → Text × Text
  | '0' :: rest => (['0'], rest)
  | text => takeDigits text

def takeFraction : Text → Text × Text
  | '.' :: rest => ('.' :: (takeDigits rest).1, (takeDigits rest).2)
  | text => ([], text)

def takeExponent : Text → Text × Text
  | char :: rest =>
    if char = 'e' ∨ char = 'E' then
      let signed : Text × Text := match rest with
        | '+' :: rest => (['+'], rest)
        | '-' :: rest => (['-'], rest)
        | rest => ([], rest)
      (char :: (signed.1 ++ (takeDigits signed.2).1), (takeDigits signed.2).2)
    else ([], char :: rest)
  | [] => ([], [])

def readDigits (digits : Text) : Option Int :=
  if digits ≠ [] ∧ digits.all isDigit then some (Nat.ofDigitChars 10 digits 0 : Nat) else none

/-- `str::parse::<i64>`. -/
def parseI64 (number : Text) : Option Int :=
  let value := match number with
    | '-' :: digits => (readDigits digits).map (- ·)
    | '+' :: digits => readDigits digits
    | digits => readDigits digits
  value.filter fun value => -2 ^ 63 ≤ value ∧ value < 2 ^ 63

def numberValue (number : Text) : Except ParserError (Value F) :=
  match parseI64 number with
  | some value => .ok (.int value)
  | none =>
    match host.parseF64 number with
    | some (some value) => .ok (.float value)
    | some none => .ok (.int 0)
    | none => if parser.allowIncomplete then .ok (.int 0) else .error (.parsingFailed "Invalid number")

def parseNumber (text : Text) : Parsed (Value F) :=
  let sign := takeSign text
  let whole := takeWhole sign.2
  let fraction := takeFraction whole.2
  let exponent := takeExponent fraction.2
  (numberValue host parser (sign.1 ++ whole.1 ++ fraction.1 ++ exponent.1), exponent.2)

/-! ### Words -/

/-- The letters at the cursor, up to a number of bytes. -/
def peekWord (isAlphabetic : Char → Bool) (limit : Nat) : Text → Text → Text
  | word, [] => word
  | word, char :: rest =>
    if isAlphabetic char && byteLen word < limit then peekWord isAlphabetic limit (word ++ [char]) rest
    else word

def parseBool (text : Text) : Parsed (Value F) :=
  let peeked := peekWord host.isAlphabetic 5 [] text
  if peeked = "true".toList ∨ peeked = "false".toList ∨ (parser.allowIncomplete = true ∧
      (peeked <+: "true".toList ∨ peeked <+: "false".toList)) then
    let word := text.takeWhile host.isAlphabetic
    let rest := text.dropWhile host.isAlphabetic
    if word = "true".toList then (.ok (.bool true), rest)
    else if word = "false".toList then (.ok (.bool false), rest)
    else if parser.allowIncomplete = true ∧ word <+: "true".toList then (.ok (.bool true), rest)
    else if parser.allowIncomplete = true ∧ word <+: "false".toList then (.ok (.bool false), rest)
    else failed "Invalid boolean" rest
  else failed "Invalid boolean" text

def parseNull (text : Text) : Parsed (Value F) :=
  let peeked := peekWord host.isAlphabetic 4 [] text
  if peeked = "null".toList ∨ (parser.allowIncomplete = true ∧ peeked <+: "null".toList) then
    let word := text.takeWhile host.isAlphabetic
    let rest := text.dropWhile host.isAlphabetic
    if word = "null".toList ∨ (parser.allowIncomplete = true ∧ word <+: "null".toList) then (.ok .null, rest)
    else failed "Invalid null" rest
  else failed "Invalid null" text

/-! ### Arrays and objects -/

/-- The loop of `parse_object`. A round consumes a quote, so that the characters bound the rounds. -/
def objectLoop (parser : Parser) (parseValue : Text → Parsed (Value F)) :
    Nat → List (Text × Value F) → Text → Parsed (Value F)
  | 0, fields, text => (.ok (.object fields), text)
  | rounds + 1, fields, text =>
    match parseString parser text with
    | (.error error, text) =>
      if parser.allowIncomplete then (.ok (.object fields), text) else (.error error, text)
    | (.ok key, text) =>
      match skipWhitespace text with
      | ':' :: text =>
        match parseValue (skipWhitespace text) with
        | (.error error, text) =>
          if parser.allowIncomplete then
            if parser.allowPartialStrings then (.ok (.object (insertField fields key .null)), text)
            else (.ok (.object fields), text)
          else (.error error, text)
        | (.ok value, text) =>
          match skipWhitespace text with
          | ',' :: text =>
            match skipWhitespace text with
            | '\x7d' :: text => (.ok (.object (insertField fields key value)), text)
            | text => objectLoop parser parseValue rounds (insertField fields key value) text
          | '\x7d' :: text => (.ok (.object (insertField fields key value)), text)
          | text =>
            if parser.allowIncomplete then (.ok (.object (insertField fields key value)), text)
            else failed "Expected ',' or '\x7d'" text
      | text =>
        if parser.allowIncomplete then (.ok (.object (insertField fields key .null)), text)
        else failed "Expected ':'" text

/-- `parse_object`, behind the opening brace. -/
def parseObject (parseValue : Text → Parsed (Value F)) (text : Text) : Parsed (Value F) :=
  match skipWhitespace text with
  | '\x7d' :: text => (.ok (.object []), text)
  | text => objectLoop parser parseValue (text.length + 1) [] text

/-- The loop of `parse_array`. A round that goes on consumes a comma. -/
def arrayLoop (parser : Parser) (parseValue : Text → Parsed (Value F)) :
    Nat → List (Value F) → Text → Parsed (Value F)
  | 0, items, text => (.ok (.array items), text)
  | rounds + 1, items, text =>
    match parseValue text with
    | (.error error, text) =>
      if parser.allowIncomplete then (.ok (.array items), text) else (.error error, text)
    | (.ok value, text) =>
      match skipWhitespace text with
      | ',' :: text =>
        match skipWhitespace text with
        | ']' :: text => (.ok (.array (items ++ [value])), text)
        | text => arrayLoop parser parseValue rounds (items ++ [value]) text
      | ']' :: text => (.ok (.array (items ++ [value])), text)
      | text =>
        if parser.allowIncomplete then (.ok (.array (items ++ [value])), text)
        else failed "Expected ',' or ']'" text

/-- `parse_array`, behind the opening bracket. -/
def parseArray (parseValue : Text → Parsed (Value F)) (text : Text) : Parsed (Value F) :=
  match skipWhitespace text with
  | ']' :: text => (.ok (.array []), text)
  | text => arrayLoop parser parseValue (text.length + 1) [] text

/-- The choice of `parse_value` by the next character. -/
def dispatch (object array : Text → Parsed (Value F)) (text : Text) :
    Parsed (Value F) :=
  match skipWhitespace text with
  | [] => if parser.allowIncomplete then (.ok .null, []) else failed "Unexpected character" []
  | char :: rest =>
    if char = '\x7b' then object rest
    else if char = '[' then array rest
    else if char = '\x22' then
      ((parseString parser (char :: rest)).1.map Value.string, (parseString parser (char :: rest)).2)
    else if char = 't' ∨ char = 'f' then parseBool host parser (char :: rest)
    else if char = 'n' then parseNull host parser (char :: rest)
    else if char = '-' ∨ char.isDigit = true then parseNumber host parser (char :: rest)
    else if parser.allowIncomplete then (.ok .null, char :: rest)
    else failed "Unexpected character" (char :: rest)

/-- `parse_value`, with the number of levels that `max_depth` still allows. -/
def parseValue (host : Host F) (parser : Parser) : Nat → Text → Parsed (Value F)
  | 0 => dispatch host parser (fun rest => (.error (.depthExceeded parser.maxDepth), '\x7b' :: rest))
      (fun rest => (.error (.depthExceeded parser.maxDepth), '[' :: rest))
  | levels + 1 => dispatch host parser (parseObject parser (parseValue host parser levels))
      (parseArray parser (parseValue host parser levels))

/-- `PartialJson`. -/
structure Settings where
  maxDepth : Nat := 32
  allowIncomplete : Bool := true

/-- `PartialJson::parse_value`: the value and the number of characters read. -/
def Settings.parse (settings : Settings) (input : Text) (allowPartialStrings : Bool) :
    Except ParserError (Value F × Nat) :=
  let parsed := parseValue host ⟨settings.maxDepth, settings.allowIncomplete, allowPartialStrings⟩
    settings.maxDepth input
  parsed.1.map fun value => (value, input.length - parsed.2.length)

end ModelGateway.PartialJson
