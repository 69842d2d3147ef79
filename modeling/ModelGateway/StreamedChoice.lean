import ModelGateway.StopDecoderProofs

/-! One choice of a streamed chat completion (`streaming.rs`) beside its non-streaming processing
(`processor.rs`). Both decode the tokens through the stop decoder; the streaming path hands the text
of each chunk to the parsers, and sends what the decoder still holds at completion as content. The
reasoning parser is a parameter; of the tool-call parser only what it is given matters. -/
namespace ModelGateway.StreamedChoice
open Utf8 EarliestMatch StopDecoder StopSequenceDecoder List Option

/-- What the request and the configured parsers decide for the whole stream. -/
structure ParserSettings where
  separateReasoning : Bool
  reasoningParserAvailable : Bool
  hasTools : Bool
  toolChoiceEnabled : Bool
  toolParserAvailable : Bool
  usedJsonSchema : Bool

namespace ParserSettings

variable (settings : ParserSettings)

def parsesReasoning : Bool :=
  settings.separateReasoning && settings.reasoningParserAvailable

def parsesTools : Bool :=
  settings.hasTools && settings.toolChoiceEnabled && (settings.toolParserAvailable || settings.usedJsonSchema)

/-- The part of a text that reaches a parser. -/
def parsed (text : Text) : Text :=
  if settings.parsesReasoning || settings.parsesTools then text else []

end ParserSettings

structure ParserResult where
  normalText : Text
  reasoningText : Text

/-- `parse_reasoning_streaming_incremental` and `is_in_reasoning`. -/
structure ReasoningParser (ρ : Type) where
  start : ρ
  parse : ρ → Text → ρ × Except String ParserResult
  isInReasoning : ρ → Bool

/-! ### Streaming -/

/-- The state kept for the index of the choice, with what was given to each parser and what was
sent as content. -/
structure Choice (σ ρ : Type) where
  stopDecoder : Option (StopSequenceDecoder σ) := none
  reasoningParser : ρ
  streamBuffer : Text := []
  givenToReasoning : Text := []
  givenToTools : Text := []
  content : Text := []
  flushedContent : Text := []

section Stream
variable {σ ρ : Type} (tokenizer : Tokenizer σ) (config : StopSequenceConfig) (pick : List Nat → Nat)
  (parser : ReasoningParser ρ) (settings : ParserSettings)

/-- `process_chunk_tokens`. A token that fails to decode is treated as held. -/
def processChunkTokens : StopSequenceDecoder σ → List TokenId →
    Option (StopSequenceDecoder σ × Text × Bool)
  | decoder, [] => some (decoder, [], false)
  | decoder, tokenId :: rest =>
    match decoder.processToken tokenizer config pick tokenId with
    | none => none
    | some (next, .error _) => processChunkTokens next rest
    | some (next, .ok .held) => processChunkTokens next rest
    | some (next, .ok (.text text)) => (processChunkTokens next rest).map
        fun (last, more, stop) => (last, text ++ more, stop)
    | some (next, .ok (.stoppedWithText text)) => some (next, text, true)
    | some (next, .ok .stopped) => some (next, [], true)

/-- `process_reasoning_stream`: the new parser state, the normal text and whether the parser is
in a reasoning block. -/
def processReasoningStream (state : ρ) (delta : Text) : ρ × Text × Bool :=
  match parser.parse state delta with
  | (next, .ok result) => (next, result.normalText, parser.isInReasoning next)
  | (next, .error _) => (next, delta, false)

variable (self : Choice σ ρ)

/-- Hands the text of a chunk to the parsers. -/
def Choice.deliver (chunkText : Text) : Choice σ ρ :=
  let buffered := { self with streamBuffer := self.streamBuffer ++ chunkText }
  let (parsed, delta, inReasoning) :=
    if settings.parsesReasoning then
      let (state, normalText, inReasoning) :=
        processReasoningStream parser self.reasoningParser chunkText
      ({ buffered with
          reasoningParser := state
          givenToReasoning := self.givenToReasoning ++ chunkText }, normalText, inReasoning)
    else (buffered, chunkText, false)
  if settings.parsesTools && !inReasoning then
    { parsed with givenToTools := parsed.givenToTools ++ delta }
  else { parsed with content := parsed.content ++ delta }

/-- The handling of a chunk. -/
def Choice.chunk (tokenIds : List TokenId) : Option (Choice σ ρ) :=
  (processChunkTokens tokenizer config pick (self.stopDecoder.getD (.new tokenizer)) tokenIds).map
    fun (decoder, chunkText, _) =>
      let decoded := { self with stopDecoder := some decoder }
      if chunkText = [] then decoded else decoded.deliver parser settings chunkText

/-- The handling of the completion: held text is sent as content. -/
def Choice.complete : Choice σ ρ :=
  match self.stopDecoder with
  | none => self
  | some decoder =>
    match decoder.flush with
    | (next, .text text) => { self with
        stopDecoder := some next
        streamBuffer := self.streamBuffer ++ text
        content := self.content ++ text
        flushedContent := self.flushedContent ++ text }
    | (next, _) => { self with stopDecoder := some next }

/-- The main loop over the chunks of a choice. -/
def Choice.chunks : Choice σ ρ → List (List TokenId) → Option (Choice σ ρ)
  | self, [] => some self
  | self, tokenIds :: rest =>
    match self.chunk tokenizer config pick parser settings tokenIds with
    | none => none
    | some next => Choice.chunks next rest

/-- The stream of a choice: its chunks and then the completion. -/
def stream (tokenIds : List (List TokenId)) : Option (Choice σ ρ) :=
  (Choice.chunks tokenizer config pick parser settings { reasoningParser := parser.start } tokenIds).map
    Choice.complete

/-- The text given to the first parser that is on. -/
def Choice.given : Text :=
  if settings.parsesReasoning then self.givenToReasoning else self.givenToTools

/-! ### Without streaming -/

/-- The text `process_single_choice` parses: `process_tokens` followed by `flush`. -/
def finalText (outputIds : List TokenId) : Option (Except String Text) :=
  ((StopSequenceDecoder.new tokenizer).processTokens tokenizer config pick outputIds).map
    fun (decoder, outputs) => outputs.map fun outputs => shownText outputs ++ decoder.flush.2.shown

end Stream

/-! ### The chunks of a stream are its tokens -/

variable {σ ρ : Type} {tokenizer : Tokenizer σ} {config : StopSequenceConfig} {pick : List Nat → Nat}
  {parser : ReasoningParser ρ} {settings : ParserSettings}

/-- An output that stops leaves the decoder stopped. -/
def Stops : SequenceDecoderOutput → Prop
  | .stopped => True
  | .stoppedWithText _ => True
  | _ => False

variable {decoder next : StopSequenceDecoder σ} {output : SequenceDecoderOutput} {tokenId : TokenId}
  {last : StopSequenceDecoder σ} {rest : List TokenId} {outputs : List SequenceDecoderOutput}
  {tokenIds : List TokenId} {sequence : σ} {processed : Text} {texts : List Text}

theorem stopped_of_processToken (step : decoder.processToken tokenizer config pick tokenId = some (next, .ok output))
    (stops : Stops output) : next.stopped = true := by
  simp only [processToken] at step
  split at step
  · cases step
    assumption
  split at step
  · split at step <;> cases step <;> rfl
  split at step
  · split at step <;> cases step
    rfl
  split at step
  · cases step
  · split at step
    · cases step
      split at stops <;> exact stops.elim
    · obtain ⟨⟨other, result⟩, inner, values⟩ := map_eq_some_iff.mp step
      cases values
      rcases (processText_frame inner).2 with stopped | rfl | ⟨shown, rfl⟩
      · exact stopped
      · exact stops.elim
      · exact stops.elim

/-- What a successful `process_tokens` does with its first token. -/
theorem processTokens_cons
    (done : decoder.processTokens tokenizer config pick (tokenId :: rest) = some (last, .ok outputs)) :
    ∃ next output, decoder.processToken tokenizer config pick tokenId = some (next, .ok output) ∧
      (Stops output ∧ last = next ∧ outputs = [output] ∨
        ¬ Stops output ∧ ∃ more, next.processTokens tokenizer config pick rest = some (last, .ok more) ∧
          outputs = output :: more) := by
  rw [processTokens] at done
  cases step : decoder.processToken tokenizer config pick tokenId with
  | none =>
    rw [step] at done
    cases done
  | some outcome =>
    obtain ⟨next, result⟩ := outcome
    rw [step] at done
    have continued {output : SequenceDecoderOutput} (done : (next.processTokens tokenizer config pick rest).map
          (fun (last, outputs) => (last, outputs.map (output :: ·))) = some (last, .ok outputs)) :
        ∃ more, next.processTokens tokenizer config pick rest = some (last, .ok more) ∧ outputs = output :: more := by
      obtain ⟨⟨final, results⟩, inner, values⟩ := map_eq_some_iff.mp done
      cases results with
      | error error => cases values
      | ok more =>
        cases values
        exact ⟨more, inner, rfl⟩
    cases result with
    | error error => cases done
    | ok output =>
      refine ⟨next, output, rfl, ?_⟩
      cases output with
      | text | held => exact .inr ⟨not_false, continued done⟩
      | stopped | stoppedWithText =>
        cases done
        exact .inl ⟨trivial, rfl, rfl⟩

theorem processTokens_of_stopped (tokenizer : Tokenizer σ) (config : StopSequenceConfig)
    (pick : List Nat → Nat) (stopped : decoder.stopped = true) (tokenIds : List TokenId) :
    ∃ outputs, decoder.processTokens tokenizer config pick tokenIds = some (decoder, .ok outputs) ∧
      shownText outputs = [] := by
  cases tokenIds with
  | nil => exact ⟨[], rfl, rfl⟩
  | cons tokenId rest =>
    refine ⟨[.stopped], ?_, rfl⟩
    rw [processTokens, processToken, if_pos stopped]

/-- A chunk of the tokens shows its part of the text and leaves the others to be processed. -/
theorem processChunkTokens_append {first second : List TokenId}
    (done : decoder.processTokens tokenizer config pick (first ++ second) = some (last, .ok outputs)) :
    ∃ middle pre stop post, processChunkTokens tokenizer config pick decoder first = some (middle, pre, stop) ∧
      middle.processTokens tokenizer config pick second = some (last, .ok post) ∧
      shownText outputs = pre ++ shownText post := by
  induction first generalizing decoder outputs with
  | nil => exact ⟨decoder, [], false, outputs, rfl, done, rfl⟩
  | cons tokenId rest ih =>
    obtain ⟨next, output, step, ⟨stops, rfl, rfl⟩ | ⟨goes, more, remaining, rfl⟩⟩ := processTokens_cons done
    · obtain ⟨post, idle, none⟩ := processTokens_of_stopped tokenizer config pick
        (stopped_of_processToken step stops) second
      refine ⟨last, shownText [output], true, post, ?_, idle, by rw [none, append_nil]⟩
      rw [processChunkTokens, step]
      cases output with
      | text | held => exact stops.elim
      | stopped => rfl
      | stoppedWithText shown =>
        rw [shownText_cons, shownText, flatMap_nil, append_nil]
        rfl
    · obtain ⟨middle, pre, stop, post, inner, later, shown⟩ := ih remaining
      refine ⟨middle, output.shown ++ pre, stop, post, ?_, later, ?_⟩
      · rw [processChunkTokens, step]
        cases output with
        | text shown => simp only [inner, map_some]; rfl
        | held => simp only [inner]; rfl
        | stopped | stoppedWithText => exact absurd trivial goes
      · rw [shownText_cons, shown, append_assoc]

open ParserSettings (parsed)

theorem given_deliver (self : Choice σ ρ) (chunkText : Text) :
    (self.deliver parser settings chunkText).given settings = self.given settings ++ settings.parsed chunkText := by
  simp only [Choice.deliver, Choice.given, parsed]
  cases reasoning : settings.parsesReasoning with
  | true =>
    simp only [if_true, Bool.true_or]
    split <;> rfl
  | false =>
    cases tools : settings.parsesTools with
    | true => rfl
    | false => exact (append_nil _).symm

theorem parsed_append (settings : ParserSettings) (first second : Text) :
    settings.parsed (first ++ second) = settings.parsed first ++ settings.parsed second := by
  rw [parsed, parsed, parsed]
  split <;> rfl

theorem parsed_nil (settings : ParserSettings) : settings.parsed [] = [] := by
  rw [parsed, ite_self]

/-- The parsers are given what `process_tokens` shows of all tokens of the chunks. -/
theorem chunks_given (parser : ReasoningParser ρ) (settings : ParserSettings) {self : Choice σ ρ}
    {chunks : List (List TokenId)}
    (done : (self.stopDecoder.getD (.new tokenizer)).processTokens tokenizer config pick chunks.flatten =
      some (last, .ok outputs)) :
    ∃ choice, self.chunks tokenizer config pick parser settings chunks = some choice ∧
      choice.stopDecoder.getD (.new tokenizer) = last ∧
      choice.given settings = self.given settings ++ settings.parsed (shownText outputs) ∧
      choice.flushedContent = self.flushedContent := by
  induction chunks generalizing self outputs with
  | nil =>
    cases done
    refine ⟨self, rfl, rfl, ?_, rfl⟩
    rw [shownText, flatMap_nil, parsed_nil, append_nil]
  | cons tokenIds rest ih =>
    rw [flatten_cons] at done
    obtain ⟨middle, pre, stop, post, chunk, later, shown⟩ := processChunkTokens_append done
    have step : ∃ next, self.chunk tokenizer config pick parser settings tokenIds = some next ∧
        next.stopDecoder = some middle ∧
        next.given settings = self.given settings ++ settings.parsed pre ∧
        next.flushedContent = self.flushedContent := by
      rw [Choice.chunk, chunk, map_some]
      refine ⟨_, rfl, ?_⟩
      dsimp only
      split
      · rename_i nothing
        rw [nothing, parsed_nil, append_nil]
        exact ⟨rfl, rfl, rfl⟩
      · refine ⟨?_, given_deliver _ _, ?_⟩ <;> simp only [Choice.deliver]
        · split <;> split <;> rfl
        · split <;> split <;> rfl
    obtain ⟨next, step, decoder, given, flushed⟩ := step
    have remaining : (next.stopDecoder.getD (.new tokenizer)).processTokens tokenizer config pick
        rest.flatten = some (last, .ok post) := by
      rw [decoder]
      exact later
    obtain ⟨choice, steps, final, givenAll, flushedAll⟩ := ih remaining
    refine ⟨choice, ?_, final, ?_, flushedAll.trans flushed⟩
    · rw [Choice.chunks, step]
      exact steps
    · rw [givenAll, given, shown, parsed_append, append_assoc]

theorem complete_eq (settings : ParserSettings) (self : Choice σ ρ) (tokenizer : Tokenizer σ) :
    self.complete.given settings = self.given settings ∧ self.complete.flushedContent = self.flushedContent ++
        (self.stopDecoder.getD (.new tokenizer)).jailBuffer := by
  rw [Choice.complete]
  cases self.stopDecoder with
  | none => exact ⟨rfl, (append_nil _).symm⟩
  | some decoder =>
    by_cases empty : decoder.jailBuffer = []
    · simp only [flush, if_pos empty, getD_some]
      exact ⟨rfl, by rw [empty, append_nil]⟩
    · simp only [flush, if_neg empty, getD_some]
      exact ⟨rfl, trivial⟩

/-! ### When nothing is held -/

/-- A stop is reached: by a stop token, or by a stop string in the text decoded before. -/
def ReachesStop (tokenizer : Tokenizer σ) (config : StopSequenceConfig) (sequence : σ) (processed : Text)
    (tokenIds : List TokenId) : Prop :=
  (∃ tokenId ∈ tokenIds, ¬ Ordinary config tokenId) ∨
    ∃ pre post texts, tokenIds = pre ++ post ∧ tokenizer.pieces sequence pre = some texts ∧
      ∃ string ∈ config.patterns, string <:+: processed ++ texts.flatten

theorem ReachesStop.cons {next : σ} {piece : Text}
    (decoded : tokenizer.appendToken sequence tokenId = (next, .ok piece))
    (reaches : ReachesStop tokenizer config next (processed ++ piece) rest) :
    ReachesStop tokenizer config sequence processed (tokenId :: rest) := by
  rcases reaches with ⟨other, mem, stop⟩ | ⟨pre, post, texts, rfl, pieces, string, mem, occurs⟩
  · exact .inl ⟨other, mem_cons_of_mem _ mem, stop⟩
  · refine .inr ⟨tokenId :: pre, post, piece :: texts, rfl, ?_, string, mem, ?_⟩
    · rw [Tokenizer.pieces, decoded]
      simp only [pieces, map_some]
    · rwa [flatten_cons, ← append_assoc]

theorem appendToken_of_processToken (running : decoder.stopped = false) (ordinary : Ordinary config tokenId)
    (step : decoder.processToken tokenizer config pick tokenId = some (next, .ok output)) :
    ∃ sequence piece, tokenizer.appendToken decoder.sequence tokenId = (sequence, .ok piece) := by
  rw [processToken, if_neg (by simp [running]), if_neg ordinary.1, if_neg ordinary.2] at step
  split at step
  · cases step
  · exact ⟨_, _, ‹_›⟩

theorem halted_of_stopToken (running : decoder.stopped = false) (stop : ¬ Ordinary config tokenId)
    (step : decoder.processToken tokenizer config pick tokenId = some (next, .ok output)) :
    Halted next := by
  rw [processToken, if_neg (by simp [running])] at step
  by_cases hidden : tokenId ∈ config.stopTokens
  · rw [if_pos hidden] at step
    by_cases empty : decoder.jailBuffer = []
    · rw [if_neg (by simp [empty])] at step
      cases step
      exact ⟨rfl, empty⟩
    · rw [if_pos empty] at step
      cases step
      exact ⟨rfl, rfl⟩
  · have visible : tokenId ∈ config.visibleStopTokens := by
      by_contra absent
      exact stop ⟨hidden, absent⟩
    rw [if_neg hidden, if_pos visible] at step
    split at step
    · cases step
    · cases step
      exact ⟨rfl, rfl⟩

/-- Tokens that `process_tokens` gets through either leave a running decoder, all of them ordinary,
or reach a stop. -/
theorem processTokens_holding {emitted : Text} (picks : Picks pick)
    (holding : Holding config processed emitted decoder)
    (done : decoder.processTokens tokenizer config pick tokenIds = some (last, .ok outputs)) :
    (∃ texts, tokenizer.pieces decoder.sequence tokenIds = some texts ∧
      (∀ tokenId ∈ tokenIds, Ordinary config tokenId) ∧
      Holding config (processed ++ texts.flatten) (emitted ++ shownText outputs) last) ∨
    Halted last ∧ ReachesStop tokenizer config decoder.sequence processed tokenIds := by
  induction tokenIds generalizing decoder processed emitted outputs with
  | nil =>
    cases done
    refine .inl ⟨[], rfl, nofun, ?_⟩
    rwa [flatten_nil, append_nil, shownText, flatMap_nil, append_nil]
  | cons tokenId rest ih =>
    obtain ⟨next, output, step, outcome⟩ := processTokens_cons done
    -- a decoder that has stopped stays as it is
    have halt (halted : Halted next) : last = next := by
      rcases outcome with ⟨-, same, -⟩ | ⟨-, more, remaining, -⟩
      · exact same
      · obtain ⟨idle, unchanged, -⟩ := processTokens_of_stopped tokenizer config pick halted.stopped rest
        rw [unchanged] at remaining
        exact (Prod.mk.inj (some.inj remaining)).1.symm
    by_cases ordinary : Ordinary config tokenId
    · obtain ⟨sequence, piece, decoded⟩ := appendToken_of_processToken holding.running ordinary step
      obtain ⟨other, result, stepToo, post⟩ := holding.processToken picks ordinary decoded
      rw [step] at stepToo
      cases stepToo
      rcases post with ⟨held, rfl⟩ | ⟨halted, added, left, rfl, first, -⟩
      · obtain ⟨stops, -, -⟩ | ⟨-, more, remaining, rfl⟩ := outcome
        · exact absurd (stopped_of_processToken step stops) (by simp [held.running])
        · rcases ih held remaining with ⟨texts, pieces, others, final⟩ | ⟨halted, reaches⟩
          · refine .inl ⟨piece :: texts, ?_, ?_, ?_⟩
            · rw [Tokenizer.pieces, decoded]
              simp only [pieces, map_some]
            · exact forall_mem_cons.mpr ⟨ordinary, others⟩
            · rwa [flatten_cons, ← append_assoc, shownText_cons, ← append_assoc]
          · exact .inr ⟨halted, reaches.cons decoded⟩
      · rw [halt halted]
        refine .inr ⟨halted, .inr ⟨[tokenId], rest, [added ++ left], rfl, ?_, ?_⟩⟩
        · rw [Tokenizer.pieces, decoded]
          rfl
        · obtain ⟨index, candidate⟩ := exists_mem_of_ne_nil _ first.ends
          obtain ⟨string, listed, start, ends⟩ := mem_endingAt.mp candidate
          refine ⟨string, mem_of_getElem? listed, start, left, ?_⟩
          simp only [ends, flatten_cons, flatten_nil, append_nil, append_assoc]
    · have halted := halted_of_stopToken holding.running ordinary step
      rw [halt halted]
      exact .inr ⟨halted, .inl ⟨tokenId, mem_cons_self, ordinary⟩⟩

/-- The condition: without stop strings nothing is ever held, a stop empties the buffer, and no
text leaves it empty. -/
def Released (tokenizer : Tokenizer σ) (config : StopSequenceConfig) (tokenIds : List TokenId) : Prop :=
  config.tokenOnly = true ∨ ReachesStop tokenizer config tokenizer.start [] tokenIds ∨
    ∃ texts, tokenizer.pieces tokenizer.start tokenIds = some texts ∧ texts.flatten = []

theorem pieces_prefix {pre post : List TokenId} {fewer : List Text}
    (all : tokenizer.pieces sequence (pre ++ post) = some texts)
    (some : tokenizer.pieces sequence pre = some fewer) : fewer <+: texts := by
  induction pre generalizing sequence texts fewer with
  | nil =>
    cases some
    exact nil_prefix
  | cons tokenId rest ih =>
    obtain ⟨next, piece, others, appended, remaining, rfl⟩ := Tokenizer.pieces_cons some
    obtain ⟨nextToo, pieceToo, othersToo, appendedToo, remainingToo, rfl⟩ := Tokenizer.pieces_cons all
    rw [appended] at appendedToo
    cases appendedToo
    exact (prefix_cons_inj piece).mpr (ih remainingToo remaining)

theorem not_reachesStop (decoded : tokenizer.pieces tokenizer.start tokenIds = some texts)
    (ordinary : ∀ tokenId ∈ tokenIds, Ordinary config tokenId) (clear : Clear config.patterns texts.flatten) :
    ¬ ReachesStop tokenizer config tokenizer.start [] tokenIds := by
  rintro (⟨tokenId, mem, stop⟩ | ⟨pre, post, fewer, rfl, pieces, string, mem, occurs⟩)
  · exact stop (ordinary tokenId mem)
  · obtain ⟨more, rfl⟩ := pieces_prefix decoded pieces
    rw [flatten_append] at clear
    refine clear_iff.mp clear string mem (occurs.trans ?_)
    exact (prefix_append _ _).isInfix

theorem jailBuffer_eq_nil (picks : Picks pick)
    (done : (StopSequenceDecoder.new tokenizer).processTokens tokenizer config pick tokenIds =
      some (last, .ok outputs)) : last.jailBuffer = [] ↔ Released tokenizer config tokenIds := by
  rcases processTokens_holding picks (holding_new config tokenizer) done with
    ⟨texts, decoded, ordinary, holding⟩ | ⟨halted, reaches⟩
  · rw [nil_append, nil_append] at holding
    constructor
    · intro empty
      rcases holding.window with none | long
      · refine .inr (.inr ⟨texts, decoded, ?_⟩)
        rw [holding.split, none, empty, append_nil]
      · rw [empty, byteLen_nil] at long
        refine .inl (Bool.not_eq_false _ ▸ fun strings => ?_)
        have := jailMaxBytes_pos strings
        omega
    · rintro (tokens | reaches | ⟨others, decodedToo, none⟩)
      · exact holding.unused tokens
      · exact absurd reaches (not_reachesStop decoded ordinary holding.clear)
      · cases decoded.symm.trans decodedToo
        have nothing := holding.split
        rw [none] at nothing
        exact (append_eq_nil_iff.mp nothing.symm).2
  · exact ⟨fun _ => .inr (.inl reaches), fun _ => halted.empty⟩

/-- A parser without reasoning. -/
def plainParser : ReasoningParser Unit where
  start := ()
  parse _ delta := ((), .ok ⟨delta, []⟩)
  isInReasoning _ := false

/-- A tool-call parser and nothing else. -/
def toolSettings : ParserSettings where
  separateReasoning := false
  reasoningParserAvailable := false
  hasTools := true
  toolChoiceEnabled := true
  toolParserAvailable := true
  usedJsonSchema := false

/-- With the stop string `END`, the two characters of a JSON object are held to the end of the stream
and then sent as content: the tool-call parser is given nothing. -/
theorem held_object_sent : finalText letters { stopSequences := [['E', 'N', 'D']] } (·.headD 0) [123, 125] =
        some (.ok ['\x7b', '\x7d']) ∧
      (stream letters { stopSequences := [['E', 'N', 'D']] } (·.headD 0) plainParser toolSettings
        [[123], [125]]).map (fun choice => (choice.given toolSettings, choice.flushedContent)) =
        some ([], ['\x7b', '\x7d']) := by
  decide

/-- For every chunking of tokens that the non-streaming path gets through, the streaming path gives
the parsers the text the non-streaming path parses, with nothing of it sent as content from the
stop decoder, exactly if no parser is on or the decoder holds nothing after the last token. -/
theorem streamed_text_parsed (parser : ReasoningParser ρ) (settings : ParserSettings)
    {chunks : List (List TokenId)} {text : Text} (picks : Picks pick)
    (done : finalText tokenizer config pick chunks.flatten = some (.ok text)) :
    ∃ choice, stream tokenizer config pick parser settings chunks = some choice ∧
      ((choice.given settings = settings.parsed text ∧ settings.parsed choice.flushedContent = []) ↔
        (settings.parsesReasoning || settings.parsesTools) = false ∨ Released tokenizer config chunks.flatten) := by
  obtain ⟨⟨last, result⟩, processed, values⟩ := map_eq_some_iff.mp done
  cases result with
  | error error => cases values
  | ok outputs =>
    have final : shownText outputs ++ last.flush.2.shown = text := Except.ok.inj values
    have started : (({ reasoningParser := parser.start } : Choice σ ρ).stopDecoder.getD
        (.new tokenizer)).processTokens tokenizer config pick chunks.flatten =
        some (last, .ok outputs) := processed
    obtain ⟨choice, steps, decoder, given, flushed⟩ := chunks_given parser settings started
    obtain ⟨givenAll, flushedAll⟩ := complete_eq settings choice tokenizer
    have nothing : settings.parsed last.jailBuffer = [] ↔ (settings.parsesReasoning || settings.parsesTools) = false ∨
          Released tokenizer config chunks.flatten := by
      rw [parsed, ← jailBuffer_eq_nil picks processed]
      cases settings.parsesReasoning || settings.parsesTools <;> simp
    refine ⟨choice.complete, by rw [stream, steps, map_some], ?_⟩
    have givenText : choice.given settings = settings.parsed (shownText outputs) := by
      rw [given, Choice.given, ite_self, nil_append]
    have flushedText : choice.complete.flushedContent = last.jailBuffer := by
      rw [flushedAll, flushed, decoder]
      rfl
    rw [givenAll, givenText, flushedText, ← nothing, ← final, shown_flush, parsed_append]
    exact ⟨fun both => both.2, fun none => ⟨by rw [none, append_nil], none⟩⟩

theorem stopped_object_parsed : ∃ choice,
    stream letters { stopSequences := [['E']] } (·.headD 0) plainParser toolSettings
      [[123], [125, 69]] = some choice ∧ choice.given toolSettings = ['\x7b', '\x7d'] := by
  have done : finalText letters { stopSequences := [['E']] } (·.headD 0) [[123], [125, 69]].flatten =
      some (.ok ['\x7b', '\x7d']) := by decide
  obtain ⟨choice, steps, agrees⟩ := streamed_text_parsed plainParser toolSettings picks_head done
  refine ⟨choice, steps, (agrees.mpr (.inr (.inr (.inl (.inr ?_))))).1⟩
  exact ⟨[123, 125, 69], [], [['\x7b'], ['\x7d'], ['E']], rfl, by decide, ['E'], by decide, ['\x7b', '\x7d'], [], rfl⟩

end ModelGateway.StreamedChoice
