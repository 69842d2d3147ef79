import ModelGateway.EarliestMatch

/-! The decoder that watches generated text for stop tokens and stop strings (`stop.rs`). Text that
may still become part of a stop string is held in a buffer. Slicing off a character boundary is a
panic. What the tokenizer decodes, and which of the stop strings that end at one place the search
reports, are parameters. -/
namespace ModelGateway.StopDecoder
open Utf8 EarliestMatch

abbrev Text := List Char

abbrev TokenId := UInt32

inductive SequenceDecoderOutput
  | text (text : Text)
  | held
  | stopped
  | stoppedWithText (text : Text)
  deriving DecidableEq, Repr

/-- The text an output carries. -/
def SequenceDecoderOutput.shown : SequenceDecoderOutput → Text
  | .text shown => shown
  | .held => []
  | .stopped => []
  | .stoppedWithText shown => shown

structure StopSequenceConfig where
  stopTokens : List TokenId := []
  stopSequences : List Text := []
  visibleStopTokens : List TokenId := []
  visibleStopSequences : List Text := []

namespace StopSequenceConfig
variable (config : StopSequenceConfig)

/-- The patterns of the automaton: the hidden stop strings, then the visible ones. -/
def patterns : List Text :=
  config.stopSequences.filter (· ≠ []) ++ config.visibleStopSequences.filter (· ≠ [])

def visibleBoundaryIdx : Nat := (config.stopSequences.filter (· ≠ [])).length

def jailMaxBytes : Nat :=
  ((config.stopSequences ++ config.visibleStopSequences).map byteLen).foldr max 0

def tokenOnly : Bool := config.patterns.isEmpty

end StopSequenceConfig

/-- A tokenizer with the state of a `Sequence`: `append_token` and `decode`. -/
structure Tokenizer (σ : Type) where
  start : σ
  appendToken : σ → TokenId → σ × Except String Text
  decode : List TokenId → Except String Text

structure StopSequenceDecoder (σ : Type) where
  sequence : σ
  jailBuffer : Text
  stopped : Bool
  deriving DecidableEq, Repr

structure Match where
  pattern : Nat
  start : Nat
  stop : Nat

namespace StopSequenceDecoder
variable {σ : Type}

def new (tokenizer : Tokenizer σ) : StopSequenceDecoder σ := ⟨tokenizer.start, [], false⟩

variable (config : StopSequenceConfig)

/-- Where the search starts: a match that starts earlier would have been found before. -/
def searchStart (oldLen : Nat) (buffer : Text) : Nat :=
  if config.jailMaxBytes ≤ oldLen then
    let raw := oldLen + 1 - config.jailMaxBytes
    walkForward buffer (byteLen buffer - raw) raw
  else 0

/-- `ac.find` on the bytes of the buffer from a position on. -/
def find (pick : List Nat → Nat) (patterns : List Text) (buffer : Text) (start : Nat) : Option Match :=
  (scan pick (patterns.map bytes) [] ((bytes buffer).drop start)).map fun (pattern, length) =>
    ⟨pattern, start + length - byteLen (patterns.getD pattern []), start + length⟩

variable (self : StopSequenceDecoder σ)

/-- The output for a found stop string. -/
def stopAt (buffer : Text) (found : Match) :
    Option (StopSequenceDecoder σ × SequenceDecoderOutput) :=
  let stopped := { self with jailBuffer := [], stopped := true }
  if config.visibleBoundaryIdx ≤ found.pattern then
    (splitAt? buffer found.stop).map fun parts => (stopped, .stoppedWithText parts.1)
  else
    (splitAt? buffer found.start).map fun parts =>
      (stopped, if parts.1 = [] then .stopped else .stoppedWithText parts.1)

/-- Emits what is too old to be part of a later match, and holds the rest. -/
def drain (buffer : Text) :
    Option (StopSequenceDecoder σ × SequenceDecoderOutput) :=
  if config.jailMaxBytes < byteLen buffer then
    let drainTo := walkBack buffer (byteLen buffer - config.jailMaxBytes)
    if 0 < drainTo then
      (splitAt? buffer drainTo).map fun parts => ({ self with jailBuffer := parts.2 }, .text parts.1)
    else some ({ self with jailBuffer := buffer }, .held)
  else some ({ self with jailBuffer := buffer }, .held)

/-- What `process_token` does with newly decoded text when there are stop strings. -/
def processText (pick : List Nat → Nat) (self : StopSequenceDecoder σ)
    (newText : Text) : Option (StopSequenceDecoder σ × SequenceDecoderOutput) :=
  let buffer := self.jailBuffer ++ newText
  let start := searchStart config (byteLen self.jailBuffer) buffer
  -- `Input::span` panics on a span that starts beyond the text
  if byteLen buffer + 1 < start then none
  else match find pick config.patterns buffer start with
    | some found => stopAt config self buffer found
    | none => drain config self buffer

/-- `process_token`. `none` is a panic. -/
def processToken (tokenizer : Tokenizer σ) (config : StopSequenceConfig) (pick : List Nat → Nat)
    (self : StopSequenceDecoder σ) (tokenId : TokenId) :
    Option (StopSequenceDecoder σ × Except String SequenceDecoderOutput) :=
  if self.stopped then some (self, .ok .stopped)
  else if tokenId ∈ config.stopTokens then
    if self.jailBuffer ≠ [] then
      some ({ self with jailBuffer := [], stopped := true }, .ok (.stoppedWithText self.jailBuffer))
    else some ({ self with stopped := true }, .ok .stopped)
  else if tokenId ∈ config.visibleStopTokens then
    match tokenizer.decode [tokenId] with
    | .error error => some ({ self with stopped := true }, .error error)
    | .ok stopText => some ({ self with jailBuffer := [], stopped := true },
        .ok (.stoppedWithText (self.jailBuffer ++ stopText)))
  else
    match tokenizer.appendToken self.sequence tokenId with
    | (sequence, .error error) => some ({ self with sequence := sequence }, .error error)
    | (sequence, .ok newText) =>
      if config.tokenOnly then
        some ({ self with sequence := sequence }, .ok (if newText = [] then .held else .text newText))
      else (processText config pick { self with sequence := sequence } newText).map fun (next, output) =>
        (next, .ok output)

/-- `process_tokens`: ends after the first output that stops. -/
def processTokens (tokenizer : Tokenizer σ) (config : StopSequenceConfig) (pick : List Nat → Nat) :
    StopSequenceDecoder σ → List TokenId → Option (StopSequenceDecoder σ × Except String (List SequenceDecoderOutput))
  | self, [] => some (self, .ok [])
  | self, tokenId :: rest =>
    match processToken tokenizer config pick self tokenId with
    | none => none
    | some (next, .error error) => some (next, .error error)
    | some (next, .ok .stopped) => some (next, .ok [.stopped])
    | some (next, .ok (.stoppedWithText text)) => some (next, .ok [.stoppedWithText text])
    | some (next, .ok output) => (processTokens tokenizer config pick next rest).map
        fun (last, outputs) => (last, outputs.map (output :: ·))

def flush : StopSequenceDecoder σ × SequenceDecoderOutput :=
  if self.jailBuffer = [] then (self, .held)
  else ({ self with jailBuffer := [] }, .text self.jailBuffer)

/-- A call of `process_token` for each token, also after a stop; `none` if one panics or fails. -/
def run (tokenizer : Tokenizer σ) (config : StopSequenceConfig) (pick : List Nat → Nat) :
    StopSequenceDecoder σ → List TokenId → Option (StopSequenceDecoder σ × List SequenceDecoderOutput)
  | self, [] => some (self, [])
  | self, tokenId :: rest =>
    match processToken tokenizer config pick self tokenId with
    | some (next, .ok output) => (run tokenizer config pick next rest).map
        fun (last, outputs) => (last, output :: outputs)
    | _ => none

end StopSequenceDecoder

/-- The results of `append_token` for each token; `none` if one fails. -/
def Tokenizer.pieces {σ : Type} (tokenizer : Tokenizer σ) : σ → List TokenId → Option (List Text)
  | _, [] => some []
  | sequence, tokenId :: rest =>
    match tokenizer.appendToken sequence tokenId with
    | (next, .ok piece) => (tokenizer.pieces next rest).map (piece :: ·)
    | _ => none

/-- The text of a list of outputs. -/
def shownText (outputs : List SequenceDecoderOutput) : Text := outputs.flatMap (·.shown)

end ModelGateway.StopDecoder
