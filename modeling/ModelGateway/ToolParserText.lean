import ModelGateway.JsonToolRuns
import ModelGateway.WithheldText
import ModelGateway.XmlToolParsers

/-! The normal text of an answer without a call: which part of it the tool parsers let through. -/
namespace ModelGateway.ToolParsers
open Json PartialJson Utf8 Occurrences JsonToolParser WithheldText Option Format Prod
open List (append_nil append_assoc flatten_cons length_append nil_append)

variable {F P : Type} {parse : P → Text → Option (P × StreamingParseResult)} {chunks : List Text}

/-! ### Beginnings of a token -/

theorem endsWithPartialToken_eq_some {buffer token : Text} {size : Nat}
    (found : endsWithPartialToken buffer token = some size) :
    IsPart token (token.take size) ∧ token.take size <:+ buffer ∧ (token.take size).length = size := by
  unfold endsWithPartialToken at found
  split at found
  · cases found
  · have range := List.mem_of_find?_eq_some found
    rw [List.mem_range'_1] at range
    have ends := List.find?_some found
    refine ⟨isPart_iff_take.mpr ⟨size, by omega, by omega, rfl⟩, List.isSuffixOf_iff_suffix.mp ends, ?_⟩
    rw [List.length_take]
    omega

theorem endsWithPartialToken_isNone {buffer token : Text} :
    (endsWithPartialToken buffer token).isNone = true ↔ ¬ EndsPartly token buffer := by
  rw [isNone_iff_eq_none]
  constructor
  · rintro none_found ⟨part, is, ends⟩
    obtain ⟨size, pos, inside, rfl⟩ := isPart_iff_take.mp is
    unfold endsWithPartialToken at none_found
    split at none_found
    · next empty =>
      rcases empty with rfl | rfl
      · exact is.nonempty (List.suffix_nil.mp ends)
      · exact absurd inside (Nat.not_lt_zero _)
    · rw [List.find?_eq_none] at none_found
      apply none_found size
      · rw [List.mem_range'_1]
        omega
      · exact List.isSuffixOf_iff_suffix.mpr ends
  · intro clear
    cases found : endsWithPartialToken buffer token with
    | none => rfl
    | some size =>
      obtain ⟨is, ends, -⟩ := endsWithPartialToken_eq_some found
      exact absurd ⟨_, is, ends⟩ clear

theorem kept_partly {token seen emitted buffer chunk : Text} (holds : Holds token seen emitted buffer)
    (partly : ¬ (endsWithPartialToken (buffer ++ chunk) token).isNone = true) :
    Holds token (seen ++ chunk) (emitted ++ []) (buffer ++ chunk) := by
  rw [endsWithPartialToken_isNone, not_not] at partly
  rw [append_nil]
  exact holds.keep partly

/-! ### Chunks -/

/-- The normal text of all the chunks is the answer. -/
def Passes {P : Type} (parse : P → Text → Option (P × StreamingParseResult)) (self : P) (chunks : List Text) :
    Prop :=
  (streamText parse self chunks).map snd = some chunks.flatten

section
variable {buffer : P → Text} {Idle : P → Prop} {token : Text} {clear : Text → Prop}
  (shorter : ∀ {first second}, clear (first ++ second) → clear first)
  (step : ∀ {self chunk seen emitted}, Idle self → Holds token seen emitted (buffer self) → clear
    (seen ++ chunk) → ∃ next result, parse self chunk = some (next, result) ∧ Idle next ∧ Holds
    token (seen ++ chunk) (emitted ++ result.normalText) (buffer next))
include shorter step

theorem streamText_holds : ∀ (chunks : List Text) {self : P} {seen emitted : Text}, Idle self →
      Holds token seen emitted (buffer self) → clear (seen ++ chunks.flatten) →
      ∃ last more, streamText parse self chunks = some (last, more) ∧
        Holds token (seen ++ chunks.flatten) (emitted ++ more) (buffer last)
  | [], self, seen, emitted, _, holds, _ => by
    refine ⟨self, [], rfl, ?_⟩
    rw [List.flatten_nil, append_nil, append_nil]
    exact holds
  | chunk :: rest, self, seen, emitted, idle, holds, unmarked => by
    rw [flatten_cons, ← append_assoc] at unmarked ⊢
    obtain ⟨next, result, parsed, still, post⟩ := step idle holds (shorter unmarked)
    obtain ⟨last, more, streamed, final⟩ := streamText_holds rest still post unmarked
    refine ⟨last, result.normalText ++ more, ?_, ?_⟩
    · simp only [streamText, parsed, streamed, bind_eq_bind, bind_some, pure_def]
    · rw [← append_assoc]
      exact final

theorem passes_iff {self : P} (idle : Idle self) (holds : Holds token [] [] (buffer self))
    (unmarked : clear chunks.flatten) : Passes parse self chunks ↔ ¬ EndsPartly token chunks.flatten := by
  obtain ⟨last, more, streamed, final⟩ := streamText_holds shorter step chunks idle holds unmarked
  rw [Passes, streamed, map_some, some.injEq]
  exact final.complete

end

/-- The text does not contain the marker. -/
def Unmarked (marker text : Text) : Prop := ¬ marker <:+: text

instance (marker text : Text) : Decidable (Unmarked marker text) :=
  inferInstanceAs (Decidable (¬ marker <:+: text))

theorem Unmarked.shorter {marker first second : Text} (unmarked : Unmarked marker (first ++ second)) :
    Unmarked marker first :=
  fun inside => unmarked (inside.trans (List.prefix_append _ _).isInfix)

theorem Unmarked.buffer {marker token seen emitted buffer chunk : Text}
    (unmarked : Unmarked marker (seen ++ chunk)) (holds : Holds token seen emitted buffer) :
    contains marker (buffer ++ chunk) = false := by
  rw [← Bool.not_eq_true, contains_iff]
  intro inside
  apply unmarked
  rw [← holds.whole, append_assoc]
  exact inside.trans (List.suffix_append _ _).isInfix

/-! ### JSON behind a token -/

section
variable {host : Host F} {serde : Serde F} {tools : List Text} {format : Format}

theorem hasToolStart_eq {self : JsonParser F} (idle : self.currentToolId = -1) {text : Text} :
    format.hasToolStart self text = format.hasToolMarkers text := by
  simp [hasToolStart, idle]

theorem Format.step {emit : JsonParser F → JsonParser F × StreamingParseResult} {self : JsonParser F}
    {chunk seen emitted : Text}
    (emits : ∀ self : JsonParser F, self.currentToolId = -1 → emit self = emitBuffer self)
    (idle : self.currentToolId = -1) (holds : Holds format.botToken seen emitted self.buffer)
    (unmarked : format.hasToolMarkers (self.buffer ++ chunk) = false) :
    ∃ next result, format.parseIncremental emit host serde tools self chunk = some (next, result) ∧
      next.currentToolId = -1 ∧
      Holds format.botToken (seen ++ chunk) (emitted ++ result.normalText) next.buffer ∧
      (next.buffer = [] ∨ next.buffer = self.buffer ++ chunk) := by
  have starts := @hasToolStart_eq F format { self with buffer := self.buffer ++ chunk } idle (self.buffer ++ chunk)
  simp only [parseIncremental, starts, unmarked, Bool.not_false, if_true]
  split
  · next clear =>
    rw [emits { self with buffer := self.buffer ++ chunk } idle]
    exact ⟨_, _, rfl, idle, holds.flush (endsWithPartialToken_isNone.mp clear), .inl rfl⟩
  · next partly => exact ⟨_, _, rfl, idle, kept_partly holds partly, .inr rfl⟩

theorem mistral_passes (unmarked : Unmarked "[TOOL_CALLS]".toList chunks.flatten) :
    Passes (mistralParseIncremental host serde tools) .new chunks ↔ ¬ EndsPartly mistral.botToken chunks.flatten := by
  refine @passes_iff _ _ chunks JsonParser.buffer (fun self => self.currentToolId = -1) _ _ Unmarked.shorter ?_ _
    rfl holds_nil unmarked
  intro self chunk seen emitted idle holds clear
  obtain ⟨next, result, parsed, still, post, -⟩ :=
    @Format.step F host serde tools mistral emitBehindArray self chunk seen emitted
      (fun _ idle => by simp [emitBehindArray, idle]) idle holds (clear.buffer holds)
  exact ⟨next, result, parsed, still, post⟩

theorem qwen_passes (unmarked : Unmarked "<tool_call>".toList chunks.flatten) :
    Passes (QwenParser.parseIncremental host serde tools) .new chunks ↔
      ¬ EndsPartly qwen.botToken chunks.flatten := by
  refine @passes_iff _ _ chunks (fun self => self.buffer) (fun self => self.currentToolId = -1) _ _
    Unmarked.shorter ?_ _ rfl holds_nil unmarked
  intro self chunk seen emitted idle holds clear
  have starts := @hasToolStart_eq F qwen { self.toJsonParser with buffer := self.buffer ++ chunk } idle
    (self.buffer ++ chunk)
  have absent : qwen.hasToolMarkers (self.buffer ++ chunk) = false := clear.buffer holds
  simp only [QwenParser.parseIncremental, starts, absent, Bool.not_false, if_true]
  split
  · next whole => exact ⟨_, _, rfl, idle, holds.flush (endsWithPartialToken_isNone.mp whole)⟩
  · next partly => exact ⟨_, _, rfl, idle, kept_partly holds partly⟩

/-! ### Cohere -/

theorem cleanText_eq {text : Text} (clean : ∀ marker ∈ textMarkers, contains marker text = false) :
    cleanText text = text := by
  refine List.foldlRecOn (motive := (· = text)) textMarkers _ rfl ?_
  rintro _ rfl marker mem
  exact removeAll_of_not_contains (clean marker mem)

theorem cohere_passes (unmarked : ∀ marker ∈ startAction :: textMarkers, Unmarked marker chunks.flatten) :
    Passes (CohereParser.parseIncremental host serde tools) .new chunks ↔
      ¬ EndsPartly startAction chunks.flatten := by
  refine @passes_iff _ _ chunks (fun self => self.buffer) (fun self => self.state = .text) _
    (fun text => ∀ marker ∈ startAction :: textMarkers, Unmarked marker text)
    (fun clear marker mem => (clear marker mem).shorter) ?_ _ rfl holds_nil unmarked
  intro self chunk seen emitted idle holds clear
  have absent : find startAction (self.buffer ++ chunk) = none := by
    rw [← not_isSome_iff_eq_none, Bool.not_eq_true]
    exact (clear startAction List.mem_cons_self).buffer holds
  simp only [CohereParser.parseIncremental, idle, absent]
  split
  · next partly =>
    rw [← not_isNone, Bool.not_eq_true', Bool.eq_false_iff] at partly
    exact ⟨_, _, rfl, rfl, kept_partly holds partly⟩
  · next whole =>
    rw [Bool.not_eq_true, isSome_eq_false_iff, endsWithPartialToken_isNone] at whole
    refine ⟨_, _, rfl, rfl, ?_⟩
    dsimp only
    rw [cleanText_eq fun marker mem => (clear marker (List.mem_cons_of_mem _ mem)).buffer holds]
    exact holds.flush whole

end

/-! ### Tags -/

section
variable {host : Host F} {serde : Serde F} {xml : XmlHost F} {tools : List Text}

theorem qwenXml_passes (unmarked : Unmarked QwenXmlParser.toolCallStartToken chunks.flatten) :
    Passes (QwenXmlParser.parseIncremental host serde xml tools) {} chunks ↔
      ¬ EndsPartly QwenXmlParser.toolCallStartToken chunks.flatten := by
  refine @passes_iff _ _ chunks QwenXmlParser.buffer (fun self => self.inToolCall = false) _ _ Unmarked.shorter ?_ _
    rfl holds_nil unmarked
  intro self chunk seen emitted idle holds clear
  have absent := clear.buffer holds
  simp only [QwenXmlParser.parseIncremental, QwenXmlParser.loop, QwenXmlParser.turn, idle, absent,
    Bool.not_false, Bool.and_self, if_true]
  split
  · next whole => exact ⟨_, _, rfl, rfl, holds.flush (endsWithPartialToken_isNone.mp whole)⟩
  · next partly => exact ⟨_, _, rfl, rfl, kept_partly holds partly⟩

theorem minimax_passes (unmarked : Unmarked MinimaxM2Parser.toolCallStartToken chunks.flatten) :
    Passes (MinimaxM2Parser.parseIncremental host serde xml tools) {} chunks ↔
      ¬ EndsPartly MinimaxM2Parser.toolCallStartToken chunks.flatten := by
  refine @passes_iff _ _ chunks MinimaxM2Parser.buffer
    (fun self => self.inToolCall = false ∧ self.waitingForToolCallEnd = false) _ _ Unmarked.shorter ?_ _
    ⟨rfl, rfl⟩ holds_nil unmarked
  intro self chunk seen emitted idle holds clear
  have absent := clear.buffer holds
  simp only [MinimaxM2Parser.parseIncremental, MinimaxM2Parser.loop, MinimaxM2Parser.turn, idle.1, idle.2, absent,
    Bool.not_false, Bool.and_self, if_true, Bool.false_eq_true, if_false]
  cases found : endsWithPartialToken (self.buffer ++ chunk) MinimaxM2Parser.toolCallStartToken with
  | none =>
    refine ⟨_, _, rfl, ⟨rfl, rfl⟩, ?_⟩
    exact holds.flush (endsWithPartialToken_isNone.mp (by rw [found]; rfl))
  | some size =>
    obtain ⟨is, ⟨front, whole⟩, length⟩ := endsWithPartialToken_eq_some found
    have split : (self.buffer ++ chunk).length - size = front.length := by
      rw [← whole, length_append, length, Nat.add_sub_cancel]
    refine ⟨_, _, rfl, ⟨rfl, rfl⟩, ?_⟩
    dsimp only
    rw [split, ← whole, List.take_left, List.drop_left]
    exact holds.cut rfl (by decide) is whole

end

/-! ### Text that starts like JSON -/

section
variable {host : Host F} {serde : Serde F} {tools rest : List Text} {self next : JsonParser F}
  {result : StreamingParseResult}

theorem streamName_frame (call : Value F) :
    (streamName tools call self).1.buffer = self.buffer ∧ (streamName tools call self).2.normalText = [] := by
  unfold streamName
  split
  · exact ⟨rfl, rfl⟩
  · split
    · refine ⟨?_, rfl⟩
      dsimp only
      split
      · rfl
      · split
        · unfold ensureCapacity
          split <;> rfl
        · rfl
    · exact ⟨rfl, rfl⟩

theorem streamArguments_frame {call arguments : Value F} {isComplete : Bool} {remaining : Option Text}
    (streamed : streamArguments host.fmt call arguments isComplete remaining self = some (next, result)) :
    result.normalText = [] ∧ (next.buffer = self.buffer ∨ isComplete = true ∧ remaining = some next.buffer) := by
  simp only [streamArguments, bind_eq_bind, pure_def] at streamed
  obtain ⟨diff, -, rest⟩ := bind_eq_some_iff.mp streamed
  split at rest
  · next complete =>
    obtain ⟨behind, there, last⟩ := bind_eq_some_iff.mp rest
    cases last
    exact ⟨rfl, .inr ⟨complete, there⟩⟩
  · cases rest
    refine ⟨rfl, .inl ?_⟩
    split
    · rfl
    · unfold ensureCapacity
      split <;> rfl

/-- Inside a call no text is let through, and the buffer stays or loses text. -/
theorem handle_shrinks {text : Text} {startIdx : Nat} (blank : serde.isCompleteJson [] = false)
    (here : self.buffer = text)
    (handled : handleJsonToolStreaming host serde tools text startIdx self = some (next, result)) :
    result.normalText = [] ∧ (next.buffer = text ∨ next.buffer.length < text.length) := by
  unfold handleJsonToolStreaming at handled
  split at handled
  · cases handled
    exact ⟨rfl, .inl here⟩
  · simp only [bind_eq_bind, pure_def] at handled
    obtain ⟨⟨front, jsonStr⟩, cut, handled⟩ := bind_eq_some_iff.mp handled
    split at handled
    · cases handled
      exact ⟨rfl, .inl here⟩
    · next obj endIdx read =>
      obtain ⟨⟨parsed, rest⟩, ended, handled⟩ := bind_eq_some_iff.mp handled
      split at handled
      · cases handled
        refine ⟨rfl, (List.eq_nil_or_concat text).imp Eq.symm ?_⟩
        rintro ⟨front, char, whole⟩
        simp [whole, resetCurrentToolState]
      · split at handled
        · have frame := @streamName_frame F tools self (normalizeToolCallFields obj)
          rw [some.injEq] at handled
          rw [handled] at frame
          exact ⟨frame.2, .inl (frame.1.trans here)⟩
        · split at handled
          · cases handled
            exact ⟨rfl, .inl here⟩
          · obtain ⟨quiet, same | ⟨complete, behind⟩⟩ := streamArguments_frame handled
            · exact ⟨quiet, .inl (same.trans here)⟩
            · refine ⟨quiet, .inr ?_⟩
              obtain ⟨⟨pre, post⟩, split, rfl⟩ := map_eq_some_iff.mp behind
              obtain ⟨whole, size⟩ := splitAt?_eq_some.mp split
              -- complete JSON is not empty, so the text behind it is shorter
              have read_some : parsed ≠ [] := by
                rintro rfl
                rw [blank] at complete
                cases complete
              have pos := Nat.pos_of_ne_zero (mt byteLen_eq_zero.mp read_some)
              have within := walkBack_le jsonStr endIdx
              rw [← (splitAt?_eq_some.mp ended).2] at within
              have front_some : pre ≠ [] := by
                rintro rfl
                rw [byteLen_nil] at size
                omega
              have length := List.length_pos_iff.mpr front_some
              rw [whole, length_append]
              omega

/-- The text starts with a brace, behind whitespace. -/
def startsWithBrace (text : Text) : Bool := ['\x7b'].isPrefixOf (skipWhitespace text)

theorem skipWhitespace_append {text : Text} (visible : skipWhitespace text ≠ []) (more : Text) :
    skipWhitespace (text ++ more) = skipWhitespace text ++ more := by
  unfold skipWhitespace at visible ⊢
  rw [List.dropWhile_append, if_neg (by simpa using visible)]

theorem startsWithBrace_append {text : Text} (visible : skipWhitespace text ≠ []) (more : Text) :
    startsWithBrace (text ++ more) = startsWithBrace text := by
  unfold startsWithBrace
  rw [skipWhitespace_append visible]
  cases rest : skipWhitespace text with
  | nil => exact absurd rest visible
  | cons first rest => simp [List.isPrefixOf]

theorem visible_of_endsPartly {text : Text} (partly : EndsPartly llama.botToken text) : skipWhitespace text ≠ [] := by
  obtain ⟨part, is, ends⟩ := partly
  intro blank
  rw [skipWhitespace, List.dropWhile_eq_nil_iff] at blank
  obtain ⟨behind, whole⟩ := is.begins
  cases part with
  | nil => exact is.nonempty rfl
  | cons first rest =>
    have less : first = '<' := (List.cons.inj whole).1
    have white := blank first (ends.subset List.mem_cons_self)
    rw [less] at white
    exact absurd white (by decide)

/-- Every chunk that follows text of which nothing is held back starts without a brace. -/
def Unbraced (seen : Text) (chunks : List Text) : Prop :=
  ∀ pre chunk post, chunks = pre ++ chunk :: post →
    ¬ EndsPartly llama.botToken (seen ++ pre.flatten) → startsWithBrace chunk = false

theorem unbraced_nil {seen : Text} : Unbraced seen [] := by
  intro pre chunk post split
  exact absurd split (by simp)

theorem unbraced_cons {seen chunk : Text} : Unbraced seen (chunk :: rest) ↔
      (¬ EndsPartly llama.botToken seen → startsWithBrace chunk = false) ∧ Unbraced (seen ++ chunk) rest := by
  constructor
  · intro unbraced
    refine ⟨fun clear => unbraced [] chunk rest rfl (by rwa [List.flatten_nil, append_nil]), ?_⟩
    intro pre other post split clear
    refine unbraced (chunk :: pre) other post (by rw [split, List.cons_append]) ?_
    rwa [flatten_cons, ← append_assoc]
  · rintro ⟨here, later⟩ pre other post split clear
    cases pre with
    | nil =>
      obtain ⟨rfl, rfl⟩ := List.cons.inj split
      rw [List.flatten_nil, append_nil] at clear
      exact here clear
    | cons first pre =>
      rw [List.cons_append, List.cons.injEq] at split
      obtain ⟨rfl, split⟩ := split
      refine later pre other post split ?_
      rwa [flatten_cons, ← append_assoc] at clear

theorem streamText_cons {self last : P} {chunk more : Text}
    (streamed : streamText parse self (chunk :: rest) = some (last, more)) :
    ∃ next result later, parse self chunk = some (next, result) ∧
      streamText parse next rest = some (last, later) ∧ more = result.normalText ++ later := by
  simp only [streamText, bind_eq_bind, pure_def] at streamed
  obtain ⟨⟨next, result⟩, parsed, streamed⟩ := bind_eq_some_iff.mp streamed
  obtain ⟨⟨final, later⟩, post, streamed⟩ := bind_eq_some_iff.mp streamed
  cases streamed
  exact ⟨next, result, later, parsed, post, rfl⟩

variable (blank : serde.isCompleteJson [] = false)
include blank

theorem llama_call {chunk : Text} (brace : startsWithBrace (self.buffer ++ chunk) = true)
    (parsed : llamaParseIncremental host serde tools self chunk = some (next, result)) :
    result.normalText = [] ∧
      (next.buffer = self.buffer ++ chunk ∨ next.buffer.length < (self.buffer ++ chunk).length) := by
  have starts : llama.hasToolStart { self with buffer := self.buffer ++ chunk } (self.buffer ++ chunk) = true := by
    show (_ || startsWithBrace (self.buffer ++ chunk) || _) = true
    rw [brace, Bool.or_true, Bool.true_or]
  simp only [llamaParseIncremental, parseIncremental, starts, Bool.not_true, Bool.false_eq_true, if_false] at parsed
  exact handle_shrinks blank rfl parsed

theorem llama_weight {chunk : Text}
    (parsed : llamaParseIncremental host serde tools self chunk = some (next, result)) :
    result.normalText.length + next.buffer.length ≤ self.buffer.length + chunk.length := by
  simp only [llamaParseIncremental, parseIncremental] at parsed
  split at parsed
  · split at parsed
    · cases parsed
      simp
    · cases parsed
      simp
  · rw [← @length_append _ self.buffer]
    have shrinks : result.normalText = [] ∧
        (next.buffer = self.buffer ++ chunk ∨ next.buffer.length < (self.buffer ++ chunk).length) :=
      handle_shrinks blank rfl parsed
    obtain ⟨quiet, same | less⟩ := shrinks
    · rw [quiet, same]
      exact (Nat.zero_add _).le
    · rw [quiet, List.length_nil, Nat.zero_add]
      exact less.le

theorem streamText_weight : ∀ (chunks : List Text) {self last : JsonParser F} {more : Text},
      streamText (llamaParseIncremental host serde tools) self chunks = some (last, more) →
      more.length + last.buffer.length ≤ self.buffer.length + chunks.flatten.length
  | [], self, last, more, streamed => by
    cases streamed
    simp
  | chunk :: rest, self, last, more, streamed => by
    obtain ⟨next, result, later, parsed, post, rfl⟩ := streamText_cons streamed
    have first := llama_weight blank parsed
    have others := streamText_weight rest post
    rw [flatten_cons, length_append, length_append]
    omega

/-- Once a buffer starts with a brace, some of the text is lost. -/
theorem llama_loses : ∀ (rest : List Text) {self last : JsonParser F} {chunk more : Text},
      startsWithBrace (self.buffer ++ chunk) = true →
      streamText (llamaParseIncremental host serde tools) self (chunk :: rest) = some (last, more) →
      more.length < self.buffer.length + (chunk :: rest).flatten.length := by
  intro rest
  induction rest with
  | nil =>
    intro self last chunk more brace streamed
    obtain ⟨next, result, later, parsed, post, rfl⟩ := streamText_cons streamed
    cases post
    have some_ : self.buffer ++ chunk ≠ [] := by
      intro empty
      rw [empty] at brace
      cases brace
    have length := List.length_pos_iff.mpr some_
    rw [(llama_call blank brace parsed).1]
    simpa using length
  | cons other rest ih =>
    intro self last chunk more brace streamed
    obtain ⟨next, result, later, parsed, post, rfl⟩ := streamText_cons streamed
    obtain ⟨quiet, same | less⟩ := llama_call blank brace parsed
    · have still : startsWithBrace (next.buffer ++ other) = true := by
        rw [same, startsWithBrace_append (fun empty => ?_), brace]
        rw [startsWithBrace, empty] at brace
        cases brace
      have lost := ih still post
      rw [same] at lost
      rw [quiet, nil_append]
      simpa [Nat.add_assoc] using lost
    · have others := streamText_weight blank (other :: rest) post
      rw [quiet, nil_append]
      rw [length_append] at less
      rw [flatten_cons, length_append]
      omega

/-- What comes through of the chunks that are left. -/
theorem llama_streams : ∀ (chunks : List Text) {self : JsonParser F} {seen emitted : Text}, self.currentToolId = -1 →
      Holds llama.botToken seen emitted self.buffer → startsWithBrace self.buffer = false →
      Unmarked "<|python_tag|>".toList (seen ++ chunks.flatten) →
      ((∃ last more, streamText (llamaParseIncremental host serde tools) self chunks = some (last, more) ∧
        emitted ++ more = seen ++ chunks.flatten) ↔
      ¬ EndsPartly llama.botToken (seen ++ chunks.flatten) ∧ Unbraced seen chunks) := by
  intro chunks
  induction chunks with
  | nil =>
    intro self seen emitted _ holds _ _
    have complete := holds.complete
    rw [List.flatten_nil, append_nil, ← complete]
    constructor
    · rintro ⟨last, more, streamed, whole⟩
      cases streamed
      exact ⟨by rwa [append_nil] at whole, unbraced_nil⟩
    · rintro ⟨whole, -⟩
      exact ⟨self, [], rfl, by rwa [append_nil]⟩
  | cons chunk rest ih =>
    intro self seen emitted idle holds plain unmarked
    rw [unbraced_cons, flatten_cons, ← append_assoc]
    rw [flatten_cons, ← append_assoc] at unmarked
    cases brace : startsWithBrace (self.buffer ++ chunk) with
    | true =>
      have empty : self.buffer = [] := by
        by_contra some
        rw [startsWithBrace_append (visible_of_endsPartly (holds.waits some)), plain] at brace
        cases brace
      have clear := holds.empty_iff.mp empty
      constructor
      · rintro ⟨last, more, streamed, whole⟩
        have lost := llama_loses blank rest brace streamed
        rw [holds.complete.mpr clear, append_assoc] at whole
        rw [List.append_cancel_left whole, empty] at lost
        simp at lost
      · rintro ⟨-, here, -⟩
        rw [empty, nil_append, here clear] at brace
        cases brace
    | false =>
      have absent : llama.hasToolMarkers (self.buffer ++ chunk) = false := by
        show (contains _ _ || startsWithBrace (self.buffer ++ chunk)) = false
        rw [brace, Bool.or_false]
        exact unmarked.shorter.buffer holds
      obtain ⟨next, result, parsed, still, post, kept⟩ :=
        @Format.step F host serde tools llama _ self chunk seen emitted (fun _ _ => rfl) idle holds absent
      have unbraced : startsWithBrace next.buffer = false := by
        rcases kept with empty | all
        · rw [empty]
          rfl
        · rw [all, brace]
      have later := ih still post unbraced unmarked
      have first : ¬ EndsPartly llama.botToken seen → startsWithBrace chunk = false := by
        intro clear
        rwa [holds.empty_iff.mpr clear, nil_append] at brace
      rw [and_iff_right first, ← later]
      constructor
      · rintro ⟨last, more, streamed, whole⟩
        obtain ⟨_, _, others, here, streams, rfl⟩ := streamText_cons streamed
        cases some.inj (here.symm.trans parsed)
        exact ⟨last, others, streams, by rwa [append_assoc]⟩
      · rintro ⟨last, more, streamed, whole⟩
        refine ⟨last, result.normalText ++ more, ?_, by rwa [← append_assoc]⟩
        simp only [streamText, llamaParseIncremental, parsed, bind_eq_bind, bind_some, pure_def]
        simp only [llamaParseIncremental] at streamed
        rw [streamed, bind_some]

theorem llama_passes (unmarked : Unmarked "<|python_tag|>".toList chunks.flatten) :
    Passes (llamaParseIncremental host serde tools) .new chunks ↔
      ¬ EndsPartly llama.botToken chunks.flatten ∧ Unbraced [] chunks := by
  have streams := @llama_streams F host serde tools blank chunks .new [] [] rfl holds_nil rfl unmarked
  rw [nil_append] at streams
  rw [← streams, Passes, map_eq_some_iff]
  constructor
  · rintro ⟨⟨last, more⟩, streamed, whole⟩
    exact ⟨last, more, streamed, whole⟩
  · rintro ⟨last, more, streamed, whole⟩
    exact ⟨(last, more), streamed, whole⟩

end

/-! ### Every parser -/

/-- Of an answer without markers a parser lets all through exactly when the answer does not end with a beginning of
the parser's token.  With Llama, a chunk that starts with a brace where nothing is held back is lost as well. -/
theorem marker_free_text_passes (host : Host F) (serde : Serde F) (xml : XmlHost F) (tools : List Text)
    (blank : serde.isCompleteJson [] = false) (chunks : List Text) :
    (Unmarked "[TOOL_CALLS]".toList chunks.flatten → (Passes (mistralParseIncremental host serde tools) .new chunks ↔
        ¬ EndsPartly mistral.botToken chunks.flatten)) ∧
    (Unmarked "<tool_call>".toList chunks.flatten →
      (Passes (QwenParser.parseIncremental host serde tools) .new chunks ↔
        ¬ EndsPartly qwen.botToken chunks.flatten)) ∧
    (Unmarked "<|python_tag|>".toList chunks.flatten → (Passes (llamaParseIncremental host serde tools) .new chunks ↔
        ¬ EndsPartly llama.botToken chunks.flatten ∧ Unbraced [] chunks)) ∧
    (Unmarked QwenXmlParser.toolCallStartToken chunks.flatten →
      (Passes (QwenXmlParser.parseIncremental host serde xml tools) {} chunks ↔
        ¬ EndsPartly QwenXmlParser.toolCallStartToken chunks.flatten)) ∧
    (Unmarked MinimaxM2Parser.toolCallStartToken chunks.flatten →
      (Passes (MinimaxM2Parser.parseIncremental host serde xml tools) {} chunks ↔
        ¬ EndsPartly MinimaxM2Parser.toolCallStartToken chunks.flatten)) ∧
    ((∀ marker ∈ startAction :: textMarkers, Unmarked marker chunks.flatten) →
      (Passes (CohereParser.parseIncremental host serde tools) .new chunks ↔
        ¬ EndsPartly startAction chunks.flatten)) :=
  ⟨mistral_passes, qwen_passes, llama_passes blank, qwenXml_passes, minimax_passes, cohere_passes⟩

/-- A host that takes no text for JSON. -/
def noJson : Serde Empty := ⟨fun _ => none, fun _ => false⟩

def plainXml : XmlHost Empty := ⟨fun _ _ => false, Char.isAlphanum, id⟩

/-- What looks like the beginning of a token is let through with the chunk that shows it is none. -/
theorem comparison_passes :
    let chunks := ["a [".toList, "i <".toList, " j".toList]
    Passes (mistralParseIncremental noFloats noJson []) .new chunks ∧
    Passes (QwenParser.parseIncremental noFloats noJson []) .new chunks ∧
    Passes (llamaParseIncremental noFloats noJson []) .new chunks ∧
    Passes (QwenXmlParser.parseIncremental noFloats noJson plainXml []) {} chunks ∧
    Passes (MinimaxM2Parser.parseIncremental noFloats noJson plainXml []) {} chunks ∧
    Passes (CohereParser.parseIncremental noFloats noJson []) .new chunks := by
  intro chunks
  obtain ⟨forMistral, forQwen, forLlama, forQwenXml, forMinimax, forCohere⟩ :=
    marker_free_text_passes noFloats noJson plainXml [] rfl chunks
  have clear {token : Text} (none_found : (endsWithPartialToken chunks.flatten token).isNone = true) :
      ¬ EndsPartly token chunks.flatten := endsWithPartialToken_isNone.mp none_found
  have unbraced : Unbraced [] chunks := by
    refine unbraced_cons.mpr ⟨fun _ => rfl, unbraced_cons.mpr ⟨fun _ => rfl, ?_⟩⟩
    exact unbraced_cons.mpr ⟨fun _ => rfl, unbraced_nil⟩
  exact ⟨(forMistral (by decide)).mpr (clear rfl), (forQwen (by decide)).mpr (clear rfl),
    (forLlama (by decide)).mpr ⟨clear rfl, unbraced⟩, (forQwenXml (by decide)).mpr (clear rfl),
    (forMinimax (by decide)).mpr (clear rfl), (forCohere (by decide)).mpr (clear rfl)⟩

/-- An answer that ends with a bracket, and with Llama also one that goes on with a brace, is not all let through. -/
theorem last_bracket_swallowed :
    (streamText (mistralParseIncremental noFloats noJson []) .new ["a[".toList]).map snd = some [] ∧
    (streamText (QwenParser.parseIncremental noFloats noJson []) .new ["i <".toList]).map snd = some [] ∧
    (streamText (llamaParseIncremental noFloats noJson []) .new ["i <".toList]).map snd = some [] ∧
    (streamText (llamaParseIncremental noFloats noJson []) .new ["a ".toList, "\x7bb\x7d".toList]).map snd =
      some "a ".toList ∧
    (streamText (QwenXmlParser.parseIncremental noFloats noJson plainXml []) {} ["i <".toList]).map snd = some [] ∧
    (streamText (MinimaxM2Parser.parseIncremental noFloats noJson plainXml []) {} ["i <".toList]).map snd =
      some "i ".toList ∧
    (streamText (CohereParser.parseIncremental noFloats noJson []) .new ["i <".toList]).map snd = some [] ∧
    (∀ marker ∈ ["<tool_call>".toList, "<|python_tag|>".toList, QwenXmlParser.toolCallStartToken,
        MinimaxM2Parser.toolCallStartToken] ++ startAction :: textMarkers, Unmarked marker "i <".toList) ∧
    Unmarked "[TOOL_CALLS]".toList "a[".toList ∧
    Unmarked "<|python_tag|>".toList "a \x7bb\x7d".toList ∧ startsWithBrace "a \x7bb\x7d".toList = false :=
  ⟨rfl, rfl, rfl, rfl, rfl, rfl, rfl, by decide, by decide, by decide, rfl⟩

end ModelGateway.ToolParsers
