import ModelGateway.Occurrences
import ModelGateway.Utf8

/-! The base reasoning parser (`reasoning_parser/src/parsers/base.rs`): it separates the text of a
reasoning block, between a start and an end marker, from the normal text, chunk by chunk. Which
characters are whitespace is a parameter. -/
namespace ModelGateway.ReasoningParser
open Occurrences Utf8 Bool

abbrev Text := List Char

structure ParserConfig where
  thinkStartToken : Text
  thinkEndToken : Text
  streamReasoning : Bool
  maxBufferSize : Nat
  alwaysInReasoning : Bool

def ParserConfig.default : ParserConfig :=
  ⟨"<think>".toList, "</think>".toList, true, 4 * 1024 * 1024, false⟩

structure ParserResult where
  normalText : Text := []
  reasoningText : Text := []
  deriving DecidableEq, Repr

inductive ParseError
  | bufferOverflow (size : Nat)
  deriving DecidableEq, Repr

structure BaseReasoningParser where
  config : ParserConfig
  inReasoning : Bool
  buffer : Text := []
  strippedThinkStart : Bool := false

/-- `str::trim`. -/
def trim (isWhitespace : Char → Bool) (text : Text) : Text :=
  ((text.dropWhile isWhitespace).reverse.dropWhile isWhitespace).reverse

namespace BaseReasoningParser

def new (config : ParserConfig) : BaseReasoningParser := ⟨config, config.alwaysInReasoning, [], false⟩

variable (isWhitespace : Char → Bool) (self : BaseReasoningParser) (text : Text)

/-- The text is a prefix of one of the markers, and not all of it. -/
def isPartialToken : Bool :=
  text.isPrefixOf self.config.thinkStartToken && self.config.thinkStartToken != text ||
    text.isPrefixOf self.config.thinkEndToken && self.config.thinkEndToken != text

/-- The rest of a call, once the start marker is stripped from the buffer. -/
def finish :
    BaseReasoningParser × ParserResult :=
  match if self.inReasoning then cutAt self.config.thinkEndToken self.buffer else none with
  | some (reasoning, normal) =>
    ({ self with buffer := [], inReasoning := false }, ⟨normal, trim isWhitespace reasoning⟩)
  | none =>
    if self.inReasoning && self.config.streamReasoning then
      ({ self with buffer := [] }, { reasoningText := self.buffer })
    else if !self.inReasoning then ({ self with buffer := [] }, { normalText := self.buffer })
    else (self, {})

/-- `parse_reasoning_streaming_incremental`. -/
def parseIncremental :
    BaseReasoningParser × Except ParseError ParserResult :=
  if self.config.maxBufferSize < byteLen self.buffer + byteLen text then
    (self, .error (.bufferOverflow (byteLen self.buffer + byteLen text)))
  else
    let currentText := self.buffer ++ text
    if self.isPartialToken currentText then ({ self with buffer := currentText }, .ok {})
    else
      let opened :=
        if !self.strippedThinkStart && contains self.config.thinkStartToken currentText then
          { self with
            buffer := removeAll self.config.thinkStartToken currentText
            strippedThinkStart := true
            inReasoning := true }
        else { self with buffer := currentText }
      ((opened.finish isWhitespace).1, .ok (opened.finish isWhitespace).2)

/-- The results of the chunks of a text, concatenated. -/
def feed (isWhitespace : Char → Bool) : BaseReasoningParser → List Text → Except ParseError ParserResult
  | _, [] => .ok {}
  | self, chunk :: rest =>
    match self.parseIncremental isWhitespace chunk with
    | (_, .error error) => .error error
    | (next, .ok result) => (feed isWhitespace next rest).map fun more =>
        ⟨result.normalText ++ more.normalText, result.reasoningText ++ more.reasoningText⟩

/-! ### What a call makes of its text -/

/-- The text has a start marker to be stripped. -/
def opens : Bool :=
  !self.strippedThinkStart && contains self.config.thinkStartToken text

/-- The text without the start markers that are stripped. -/
def body : Text :=
  if self.opens text then removeAll self.config.thinkStartToken text else text

/-- The result for a text that is not held back. -/
def settle : ParserResult :=
  if self.inReasoning || self.opens text then
    match cutAt self.config.thinkEndToken (self.body text) with
    | some (reasoning, normal) => ⟨normal, trim isWhitespace reasoning⟩
    | none => ⟨[], self.body text⟩
  else ⟨text, []⟩

/-- The parser behind a text that is not held back. -/
def settled : BaseReasoningParser where
  config := self.config
  inReasoning := (self.inReasoning || self.opens text) && (cutAt self.config.thinkEndToken (self.body text)).isNone
  buffer := []
  strippedThinkStart := self.strippedThinkStart || self.opens text

variable {isWhitespace : Char → Bool} {self : BaseReasoningParser}

theorem body_of_not_opens {text : Text} (closed : self.opens text = false) : self.body text = text := by
  rw [body, if_neg (by simp [closed])]

/-- With streamed reasoning, a call either holds its text back or settles it. -/
theorem parseIncremental_eq {text : Text} (streaming : self.config.streamReasoning = true)
    (fits : byteLen self.buffer + byteLen text ≤ self.config.maxBufferSize) :
    self.parseIncremental isWhitespace text =
      if self.isPartialToken (self.buffer ++ text) then
        ({ self with buffer := self.buffer ++ text }, .ok {})
      else (self.settled (self.buffer ++ text), .ok (self.settle isWhitespace (self.buffer ++ text))) := by
  rw [parseIncremental, if_neg (Nat.not_lt.mpr fits)]
  dsimp only
  split
  · rfl
  · cases stripping : self.opens (self.buffer ++ text) with
    | true =>
      have strips := stripping
      rw [opens] at strips
      simp only [finish, settled, settle, body, stripping, strips, streaming, Bool.or_true, if_true, Bool.true_and]
      cases cutAt self.config.thinkEndToken (removeAll self.config.thinkStartToken (self.buffer ++ text)) <;> rfl
    | false =>
      have keeps := stripping
      rw [opens] at keeps
      simp only [finish, settled, settle, body, stripping, keeps, streaming, Bool.or_false, false_eq_true, if_false]
      cases on : self.inReasoning with
      | false => rfl
      | true =>
        simp only [if_true, Bool.true_and]
        cases cutAt self.config.thinkEndToken (self.buffer ++ text) <;> rfl

/-! ### Whitespace -/

end BaseReasoningParser

/-- The characters of a text that are not whitespace. -/
def printed (isWhitespace : Char → Bool) (text : Text) : Text := text.filter fun char => !isWhitespace char

section Printed
variable {isWhitespace : Char → Bool} (text : Text)

@[simp] theorem printed_nil : printed isWhitespace [] = [] := rfl

theorem printed_append (first second : Text) :
    printed isWhitespace (first ++ second) = printed isWhitespace first ++ printed isWhitespace second :=
  List.filter_append _ _

theorem printed_reverse : printed isWhitespace text.reverse = (printed isWhitespace text).reverse :=
  List.filter_reverse

theorem printed_dropWhile :
    printed isWhitespace (text.dropWhile isWhitespace) = printed isWhitespace text := by
  induction text with
  | nil => rfl
  | cons first rest ih =>
    by_cases blank : isWhitespace first = true
    · rw [List.dropWhile_cons_of_pos blank, ih, printed, printed, List.filter_cons_of_neg (by simp [blank])]
    · rw [List.dropWhile_cons_of_neg blank]

theorem printed_trim : printed isWhitespace (trim isWhitespace text) = printed isWhitespace text := by
  rw [trim, printed_reverse, printed_dropWhile, printed_reverse, printed_dropWhile, List.reverse_reverse]

end Printed

/-- Two results with the same characters, whitespace aside. -/
structure Alike (isWhitespace : Char → Bool) (first second : ParserResult) : Prop where
  reasoning : printed isWhitespace first.reasoningText = printed isWhitespace second.reasoningText
  normal : printed isWhitespace first.normalText = printed isWhitespace second.normalText

/-- One result after the other. -/
def ParserResult.append (first second : ParserResult) : ParserResult :=
  ⟨first.normalText ++ second.normalText, first.reasoningText ++ second.reasoningText⟩

theorem Alike.append {isWhitespace : Char → Bool} {second other whole : ParserResult} (first : ParserResult)
    (alike : Alike isWhitespace second other) (joined : Alike isWhitespace whole (first.append other)) :
    Alike isWhitespace (first.append second) whole where
  reasoning := by
    rw [joined.reasoning, ParserResult.append, ParserResult.append, printed_append, printed_append, alike.reasoning]
  normal := by
    rw [joined.normal, ParserResult.append, ParserResult.append, printed_append, printed_append, alike.normal]

namespace BaseReasoningParser

variable {isWhitespace : Char → Bool} {left right : Text} {self : BaseReasoningParser} {chunks : List Text}

/-! ### A cut that changes nothing -/

/-- No start marker that is to be stripped lies across the cut, and none comes behind it unless the
text before is whitespace or reasoning without a marker. While reasoning, no end marker lies across
the cut. -/
structure CleanCut (isWhitespace : Char → Bool) (parser : BaseReasoningParser) (left right : Text) :
    Prop where
  start : parser.strippedThinkStart = true ∨ ¬ Straddles parser.config.thinkStartToken left right
  once : parser.opens right = true → parser.opens left = false ∧ cutAt parser.config.thinkEndToken left = none ∧
    (parser.inReasoning = true ∨ printed isWhitespace left = [])
  stop : (parser.inReasoning || parser.opens left || parser.opens right) = true →
    cutAt parser.config.thinkEndToken (parser.body left) = none →
    ¬ Straddles parser.config.thinkEndToken (parser.body left) (parser.body right)

instance (isWhitespace : Char → Bool) (parser : BaseReasoningParser) (left right : Text) :
    Decidable (CleanCut isWhitespace parser left right) :=
  decidable_of_iff (_ ∧ _ ∧ _)
    ⟨fun ⟨start, once, stop⟩ => ⟨start, once, stop⟩, fun clean => ⟨clean.start, clean.once, clean.stop⟩⟩

section
variable (clean : CleanCut isWhitespace self left right)
include clean

theorem CleanCut.opens_append : self.opens (left ++ right) = (self.opens left || self.opens right) := by
  rcases clean.start with stripped | whole
  · simp [opens, stripped]
  · rw [opens, contains_append whole, and_or_distrib_left]
    rfl

theorem CleanCut.body_append : self.body (left ++ right) = self.body left ++ self.body right := by
  have removed {text : Text} (fresh : self.strippedThinkStart = false) :
      self.body text = removeAll self.config.thinkStartToken text := by
    rw [body]
    split
    · rfl
    · rename_i closed
      rw [removeAll_of_not_contains]
      simpa [opens, fresh] using closed
  cases fresh : self.strippedThinkStart with
  | true => simp [body, opens, fresh]
  | false =>
    have whole := clean.start.resolve_left (by simp [fresh])
    rw [removed fresh, removed fresh, removed fresh]
    exact removeFrom_append whole (Nat.zero_le _)

theorem CleanCut.opens_settled : (self.settled left).opens right = self.opens right := by
  cases first : self.opens left with
  | false =>
    have same : (self.settled left).strippedThinkStart = self.strippedThinkStart := by
      change (self.strippedThinkStart || self.opens left) = _
      rw [first, Bool.or_false]
    rw [opens, opens, same]
    rfl
  | true =>
    cases second : self.opens right with
    | false =>
      rw [opens] at second ⊢
      simp only [settled, first, Bool.or_true, Bool.not_true, Bool.false_and]
    | true => simp [(clean.once second).1] at first

theorem CleanCut.body_settled : (self.settled left).body right = self.body right := by
  rw [body, body, clean.opens_settled]
  rfl

/-- A text cut cleanly gives the characters of the whole text, on both sides. -/
theorem CleanCut.settle_append : Alike isWhitespace (self.settle isWhitespace (left ++ right))
      ((self.settle isWhitespace left).append ((self.settled left).settle isWhitespace right)) := by
  have config : (self.settled left).config = self.config := rfl
  rw [settle, settle, settle, clean.opens_settled, clean.opens_append, clean.body_append, clean.body_settled, config]
  cases reasoning : self.inReasoning || self.opens left with
  | true =>
    have mem : (self.settled left).inReasoning = (cutAt self.config.thinkEndToken (self.body left)).isNone := by
      rw [settled, reasoning, Bool.true_and]
    rw [← Bool.or_assoc, reasoning, Bool.true_or, if_pos rfl, if_pos rfl, mem]
    cases cut : cutAt self.config.thinkEndToken (self.body left) with
    | some parts =>
      have closed : self.opens right = false := by
        by_contra later
        obtain ⟨keeps, uncut, -⟩ := clean.once (not_eq_false _ ▸ later)
        rw [body_of_not_opens keeps, uncut] at cut
        cases cut
      rw [cutAt_append_left _ cut, closed, body_of_not_opens closed]
      exact ⟨by simp [ParserResult.append], rfl⟩
    | none =>
      have whole := clean.stop (by rw [reasoning, Bool.true_or]) cut
      rw [cutAt_append_right cut whole, Option.isNone_none, Bool.true_or, if_pos rfl]
      cases cutAt self.config.thinkEndToken (self.body right) with
      | none => exact ⟨rfl, rfl⟩
      | some parts =>
        refine ⟨?_, rfl⟩
        simp only [Option.map_some, ParserResult.append, printed_trim, printed_append]
  | false =>
    obtain ⟨outside, keeps⟩ := or_eq_false_iff.mp reasoning
    have still : (self.settled left).inReasoning = false := by
      rw [settled, reasoning, Bool.false_and]
    rw [← Bool.or_assoc, reasoning, still, Bool.false_or, body_of_not_opens keeps]
    cases opening : self.opens right with
    | false => exact ⟨rfl, rfl⟩
    | true =>
      obtain ⟨-, uncut, blank⟩ := clean.once opening
      replace blank := blank.resolve_left (by simp [outside])
      have whole := clean.stop (by rw [opening, Bool.or_true])
      rw [body_of_not_opens keeps] at whole
      rw [if_pos rfl, if_pos rfl, if_neg Bool.false_ne_true, cutAt_append_right uncut (whole uncut)]
      cases cutAt self.config.thinkEndToken (self.body right) with
      | none => constructor <;> simp [ParserResult.append, printed_append, blank]
      | some parts => constructor <;> simp [ParserResult.append, printed_append, printed_trim, blank]

end

/-! ### Nothing is lost -/

/-- Apart from removed start markers and one end marker, the printed characters of the text are those
of the result: the reasoning before the end marker, the normal text behind it. -/
def Kept (isWhitespace : Char → Bool) (config : ParserConfig) (text : Text) (result : ParserResult) : Prop :=
  ∃ body, (body = text ∨ body = removeAll config.thinkStartToken text) ∧
    (printed isWhitespace result.reasoningText ++ printed isWhitespace result.normalText = printed isWhitespace body ∨
      ∃ pre post, body = pre ++ config.thinkEndToken ++ post ∧
        printed isWhitespace result.reasoningText = printed isWhitespace pre ∧
        printed isWhitespace result.normalText = printed isWhitespace post)

theorem kept_settle (self : BaseReasoningParser) (text : Text) :
    Kept isWhitespace self.config text (self.settle isWhitespace text) := by
  have source : self.body text = text ∨ self.body text = removeAll self.config.thinkStartToken text := by
    rw [body]
    split
    · exact .inr rfl
    · exact .inl rfl
  rw [settle]
  split
  · cases cut : cutAt self.config.thinkEndToken (self.body text) with
    | none => exact ⟨self.body text, source, .inl (List.append_nil _)⟩
    | some parts =>
      exact ⟨self.body text, source, .inr ⟨parts.1, parts.2, cutAt_eq_some cut, printed_trim _, rfl⟩⟩
  · exact ⟨text, .inl rfl, .inl rfl⟩

theorem Kept.congr {config : ParserConfig} {text : Text} {first second : ParserResult}
    (kept : Kept isWhitespace config text second) (alike : Alike isWhitespace first second) :
    Kept isWhitespace config text first := by
  rw [Kept, alike.reasoning, alike.normal]
  exact kept

theorem settle_blank {text : Text} (blank : printed isWhitespace text = []) :
    Alike isWhitespace {} (self.settle isWhitespace text) := by
  obtain ⟨body, source, parts⟩ := kept_settle self text
  have none : printed isWhitespace body = [] := by
    rcases source with rfl | rfl
    · exact blank
    · exact List.sublist_nil.mp (blank ▸ (removeFrom_sublist _ _ 0).filter _)
  rcases parts with whole | ⟨pre, post, rfl, first, second⟩
  · rw [none, List.append_eq_nil_iff] at whole
    exact ⟨whole.1.symm, whole.2.symm⟩
  · rw [printed_append, printed_append, List.append_eq_nil_iff, List.append_eq_nil_iff] at none
    exact ⟨by rw [first, none.1.1, printed_nil], by rw [second, none.2, printed_nil]⟩

/-! ### Chunks -/

/-- Each chunk that does not leave the start of a marker in the buffer ends in a clean cut, and the
last one leaves only whitespace there. -/
def Aligned (isWhitespace : Char → Bool) : BaseReasoningParser → List Text → Prop
  | parser, [] => printed isWhitespace parser.buffer = []
  | parser, chunk :: rest =>
    (parser.isPartialToken (parser.buffer ++ chunk) = true ∨
      CleanCut isWhitespace parser (parser.buffer ++ chunk) rest.flatten) ∧
    Aligned isWhitespace (parser.parseIncremental isWhitespace chunk).1 rest

instance decidableAligned (isWhitespace : Char → Bool) :
    (parser : BaseReasoningParser) → (chunks : List Text) → Decidable (Aligned isWhitespace parser chunks)
  | parser, [] => inferInstanceAs (Decidable (printed isWhitespace parser.buffer = []))
  | parser, chunk :: rest =>
    have := decidableAligned isWhitespace (parser.parseIncremental isWhitespace chunk).1 rest
    inferInstanceAs (Decidable ((parser.isPartialToken (parser.buffer ++ chunk) = true ∨
      CleanCut isWhitespace parser (parser.buffer ++ chunk) rest.flatten) ∧
      Aligned isWhitespace (parser.parseIncremental isWhitespace chunk).1 rest))

theorem isPartialToken_of_append {first second : Text}
    (held : self.isPartialToken (first ++ second) = true) : self.isPartialToken first = true := by
  have shorter {token : Text} (longer : ((first ++ second).isPrefixOf token && token != first ++ second) = true) :
      (first.isPrefixOf token && token != first) = true := by
    simp only [and_eq_true, List.isPrefixOf_iff_prefix, bne_iff_ne] at longer ⊢
    refine ⟨(List.prefix_append _ _).trans longer.1, fun whole => longer.2 ?_⟩
    rw [whole] at longer ⊢
    exact ((List.prefix_append first second).eq_of_length_le longer.1.length_le)
  rw [isPartialToken, or_eq_true] at held ⊢
  exact held.imp shorter shorter

/-- The results of aligned chunks are those of settling their text at once, and a text that is
held back to the end is whitespace. -/
theorem feed_aligned (self : BaseReasoningParser) (streaming : self.config.streamReasoning = true)
    (fits : byteLen self.buffer + byteLen chunks.flatten ≤ self.config.maxBufferSize)
    (aligned : Aligned isWhitespace self chunks) :
    ∃ result, self.feed isWhitespace chunks = .ok result ∧
      Alike isWhitespace result (self.settle isWhitespace (self.buffer ++ chunks.flatten)) ∧
      (self.isPartialToken (self.buffer ++ chunks.flatten) = true →
        printed isWhitespace (self.buffer ++ chunks.flatten) = []) := by
  induction chunks generalizing self with
  | nil =>
    refine ⟨{}, rfl, ?_⟩
    rw [List.flatten_nil, List.append_nil]
    exact ⟨settle_blank aligned, fun _ => aligned⟩
  | cons chunk rest ih =>
    obtain ⟨cut, aligned⟩ := aligned
    rw [List.flatten_cons, byteLen_append, ← Nat.add_assoc] at fits
    have call : self.parseIncremental isWhitespace chunk = _ :=
      parseIncremental_eq streaming (Nat.le_trans (Nat.le_add_right _ _) fits)
    rw [List.flatten_cons, ← List.append_assoc, feed]
    by_cases held : self.isPartialToken (self.buffer ++ chunk) = true
    · rw [if_pos held] at call
      rw [call] at aligned
      obtain ⟨more, fed, agrees⟩ := ih { self with buffer := self.buffer ++ chunk } streaming
        (by rw [byteLen_append]; exact fits) aligned
      rw [call]
      exact ⟨more, by simp only [fed]; rfl, agrees⟩
    · rw [if_neg held] at call
      rw [call] at aligned
      obtain ⟨more, fed, alike, -⟩ := ih (self.settled (self.buffer ++ chunk)) streaming
        (Nat.le_trans (by rw [settled, byteLen_nil]; omega) fits) aligned
      rw [call]
      exact ⟨(self.settle isWhitespace (self.buffer ++ chunk)).append more, by simp only [fed]; rfl,
        alike.append _ (cut.resolve_left held).settle_append,
        fun whole => absurd (isPartialToken_of_append whole) held⟩

/-- Aligned chunks give the printed characters of the whole text in one chunk, and lose none. -/
theorem aligned_chunks_agree {parser : BaseReasoningParser} {chunks : List Text}
    (streaming : parser.config.streamReasoning = true) (fresh : parser.buffer = [])
    (fits : byteLen chunks.flatten ≤ parser.config.maxBufferSize)
    (aligned : Aligned isWhitespace parser chunks) :
    ∃ result whole, parser.feed isWhitespace chunks = .ok result ∧
      parser.feed isWhitespace [chunks.flatten] = .ok whole ∧
      Alike isWhitespace result whole ∧ Kept isWhitespace parser.config chunks.flatten result := by
  have room : byteLen parser.buffer + byteLen chunks.flatten ≤ parser.config.maxBufferSize := by
    rw [fresh, byteLen_nil, Nat.zero_add]
    exact fits
  obtain ⟨result, fed, alike, blank⟩ := feed_aligned parser streaming room aligned
  rw [fresh, List.nil_append] at alike blank
  have kept := (kept_settle parser chunks.flatten).congr alike
  have call : parser.parseIncremental isWhitespace chunks.flatten = _ := parseIncremental_eq streaming room
  rw [fresh, List.nil_append] at call
  by_cases held : parser.isPartialToken chunks.flatten = true
  · rw [if_pos held] at call
    have none : Alike isWhitespace {} (parser.settle isWhitespace chunks.flatten) := settle_blank (blank held)
    exact ⟨result, {}, fed, by rw [feed, call]; rfl,
      ⟨alike.reasoning.trans none.reasoning.symm, alike.normal.trans none.normal.symm⟩, kept⟩
  · rw [if_neg held] at call
    refine ⟨result, parser.settle isWhitespace chunks.flatten, fed, ?_, alike, kept⟩
    rw [feed, call]
    simp [feed, Except.map]

/-- Both markers are cut and the block is still found. -/
theorem cut_markers_agree :
    let chunks := ["<thi".toList, "nk>a ".toList, "</think".toList, ">b".toList]
    Aligned Char.isWhitespace (new .default) chunks ∧
    ∃ result whole, (new .default).feed Char.isWhitespace chunks = .ok result ∧
      (new .default).feed Char.isWhitespace [chunks.flatten] = .ok whole ∧
      Alike Char.isWhitespace result whole ∧ Kept Char.isWhitespace .default chunks.flatten result :=
  ⟨by decide, aligned_chunks_agree rfl rfl (by decide) (by decide)⟩

/-- A start marker that is cut behind other text is shown as normal text. -/
theorem cut_marker_shown : (new .default).feed Char.isWhitespace ["x<think".toList, ">y".toList] =
      .ok ⟨"x<think>y".toList, []⟩ ∧
    (new .default).feed Char.isWhitespace ["x<think>y".toList] = .ok ⟨[], "xy".toList⟩ := by
  decide

end BaseReasoningParser

end ModelGateway.ReasoningParser
