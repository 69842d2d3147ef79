import ModelGateway.ToolParserText

/-! The search for a beginning of a marker at the end of a text, on bytes: `ends_with_partial_token` cuts
the marker at every byte position, and a cut inside a character panics.  The marker of `step3.rs` has
characters of three bytes. -/
namespace ModelGateway.ToolParsers
open Json Utf8 Occurrences JsonToolParser WithheldText Option
open List (range')

/-- `ends_with_partial_token` as it slices the token; nothing is returned where a slice panics. -/
def endsWithPartialToken? (buffer token : Text) : Option (Option Nat) :=
  if buffer = [] ∨ token = [] then some none
  else (range' 1 (byteLen token - 1)).findM? fun i =>
    (splitAt? token i).map fun parts => parts.1.isSuffixOf buffer

/-- The fields that `parse_incremental` uses in front of the tool block. -/
structure Step3Parser where
  buffer : Text := []
  inToolBlock : Bool := false
  toolBlockFinished : Bool := false

namespace Step3Parser

def botToken : Text := "<｜tool_calls_begin｜>".toList

/-- `parse_incremental`.  What it does inside the tool block is a parameter; no marker is sliced there. -/
def parseIncremental (inBlock : Step3Parser → Option (Step3Parser × StreamingParseResult))
    (self : Step3Parser) (chunk : Text) : Option (Step3Parser × StreamingParseResult) :=
  let self := { self with buffer := self.buffer ++ chunk }
  if self.toolBlockFinished then some ({ self with buffer := [] }, { normalText := self.buffer })
  else if self.inToolBlock then inBlock self
  else
    match cutAt botToken self.buffer with
    | some (pre, post) =>
      some ({ self with buffer := post, inToolBlock := true }, { normalText := pre })
    | none => do
      let found ← endsWithPartialToken? self.buffer botToken
      if found.isSome then return (self, {})
      return ({ self with buffer := [] }, { normalText := self.buffer })

/-- The chunks of an answer; nothing is returned where a slice panics. -/
def run (inBlock : Step3Parser → Option (Step3Parser × StreamingParseResult)) :
    Step3Parser → List Text → Option Step3Parser
  | self, [] => some self
  | self, chunk :: rest => (self.parseIncremental inBlock chunk).bind fun next => run inBlock next.1 rest

/-- Inside the tool block the parser returns, in the block or behind it. -/
def Stays (inBlock : Step3Parser → Option (Step3Parser × StreamingParseResult)) : Prop :=
  ∀ self, ∃ next, inBlock self = some next ∧ (next.1.inToolBlock || next.1.toolBlockFinished) = true

/-- A text that the parser can be given in front of the block. -/
def Checked (text : Text) : Prop := text = [] ∨ ['<'] <:+ text ∨ botToken <:+: text

end Step3Parser

/-- The markers that the other parsers ask about. -/
def askedMarkers : List Text :=
  [mistral.botToken, qwen.botToken, individualToolEndToken, llama.botToken, startAction,
    QwenXmlParser.toolCallStartToken, MinimaxM2Parser.toolCallStartToken]

theorem findM?_eq_some {α : Type} {check : α → Option Bool} {holds : α → Bool} {items : List α}
    (total : ∀ item ∈ items, check item = some (holds item)) :
    items.findM? check = some (items.find? holds) := by
  induction items with
  | nil => rfl
  | cons first rest ih =>
    obtain ⟨here, others⟩ := List.forall_mem_cons.mp total
    rw [List.findM?, here, List.find?]
    cases holds first with
    | true => rfl
    | false => exact ih others

theorem endsWithPartialToken?_of_ascii {token : Text} (ascii : Ascii token) (buffer : Text) :
    endsWithPartialToken? buffer token = some (endsWithPartialToken buffer token) := by
  rw [endsWithPartialToken?, endsWithPartialToken, ascii.byteLen]
  split
  · rfl
  · refine findM?_eq_some fun i mem => ?_
    have inside := List.mem_range'_1.mp mem
    have part : Ascii (token.take i) := fun char among => ascii char (List.mem_of_mem_take among)
    have cut : splitAt? token i = some (token.take i, token.drop i) := by
      refine splitAt?_eq_some.mpr ⟨(List.take_append_drop i token).symm, ?_⟩
      rw [part.byteLen, List.length_take]
      omega
    rw [cut, map_some]

theorem step3_check (buffer : Text) : (endsWithPartialToken? buffer Step3Parser.botToken =
      if buffer = [] then some none else if ['<'].isSuffixOf buffer then some (some 1) else none) := by
  by_cases empty : buffer = []
  · simp [empty, endsWithPartialToken?]
  · -- the first slice is the first character, and the second ends inside the next one
    have positions : range' 1 (byteLen Step3Parser.botToken - 1) = 1 :: 2 :: range' 3 21 := rfl
    have first : splitAt? Step3Parser.botToken 1 = some (['<'], Step3Parser.botToken.tail) := rfl
    have second : splitAt? Step3Parser.botToken 2 = none := rfl
    have some_ : ¬ (buffer = [] ∨ Step3Parser.botToken = []) := not_or.mpr ⟨empty, nofun⟩
    rw [endsWithPartialToken?, if_neg some_, if_neg empty, positions, List.findM?, first, List.findM?, second, map_some]
    cases ['<'].isSuffixOf buffer with
    | true => simp
    | false => simp

namespace Step3Parser
variable {inBlock : Step3Parser → Option (Step3Parser × StreamingParseResult)} {self : Step3Parser}

theorem run_inside (stays : Stays inBlock) (inside : (self.inToolBlock || self.toolBlockFinished) = true)
    (chunks : List Text) : run inBlock self chunks ≠ none := by
  induction chunks generalizing self with
  | nil => exact some_ne_none _
  | cons chunk rest ih =>
    cases finished : self.toolBlockFinished with
    | true =>
      have step : self.parseIncremental inBlock chunk =
          some ({ self with buffer := [] }, { normalText := self.buffer ++ chunk }) := by
        rw [parseIncremental, if_pos finished]
      rw [run, step]
      exact ih inside
    | false =>
      obtain ⟨next, returned, stays⟩ := stays { self with buffer := self.buffer ++ chunk }
      rw [finished, Bool.or_false] at inside
      have step : self.parseIncremental inBlock chunk = some next := by
        rw [parseIncremental, if_neg (by simp [finished]), if_pos inside, returned]
      rw [run, step]
      exact ih stays

theorem cutAt_botToken {text : Text} (uncut : cutAt botToken text = none) : ¬ botToken <:+: text := by
  intro inside
  obtain ⟨index, found⟩ := isSome_iff_exists.mp (find_isSome.mpr inside)
  obtain ⟨pre, post, whole, rfl⟩ := find_eq_some found
  have size := congrArg List.length whole
  rw [cutAt, found] at uncut
  simp only [List.length_append, show botToken.length = 20 from rfl] at size
  simp only [show pre.length < text.length by omega, if_true] at uncut
  cases uncut

/-- In front of the block the buffer is the text so far. -/
theorem run_front (stays : Stays inBlock) {seen : Text} (front : Checked seen) (chunks : List Text) :
    run inBlock { buffer := seen } chunks ≠ none ↔ ∀ pre, pre <+: chunks → Checked (seen ++ pre.flatten) := by
  induction chunks generalizing seen with
  | nil =>
    refine iff_of_true (some_ne_none _) fun pre inside => ?_
    rw [List.prefix_nil.mp inside, List.flatten_nil, List.append_nil]
    exact front
  | cons chunk rest ih =>
    have prefixes : (∀ pre, pre <+: chunk :: rest → Checked (seen ++ pre.flatten)) ↔
        ∀ pre, pre <+: rest → Checked (seen ++ chunk ++ pre.flatten) := by
      simp only [List.prefix_cons_iff, or_imp, forall_and, forall_eq, List.flatten_nil, List.append_nil, front, true_and]
      exact ⟨fun all pre inside => by simpa using all _ ⟨pre, rfl, inside⟩,
        by rintro all _ ⟨pre, rfl, inside⟩; simpa using all pre inside⟩
    rw [prefixes, run, parseIncremental]
    simp only [Bool.false_eq_true, if_false]
    cases cut : cutAt botToken (seen ++ chunk) with
    | some parts =>
      have marked : botToken <:+: seen ++ chunk := ⟨parts.1, parts.2, (cutAt_eq_some cut).symm⟩
      refine iff_of_true (run_inside stays rfl rest) fun pre _ => .inr (.inr ?_)
      exact marked.trans (List.prefix_append _ _).isInfix
    | none =>
      simp only [step3_check]
      by_cases empty : seen ++ chunk = []
      · rw [if_pos empty]
        have blank : Checked (seen ++ chunk) := .inl empty
        have next := ih blank
        rw [empty] at next ⊢
        exact next
      · rw [if_neg empty]
        cases ends : ['<'].isSuffixOf (seen ++ chunk) with
        | true => exact ih (.inr (.inl (List.isSuffixOf_iff_suffix.mp ends)))
        | false =>
          refine iff_of_false (not_not_intro rfl) fun all => ?_
          have here := all [] List.nil_prefix
          rw [List.flatten_nil, List.append_nil] at here
          rcases here with none | shown | marked
          · exact empty none
          · rw [List.isSuffixOf_iff_suffix.mpr shown] at ends
            cases ends
          · exact cutAt_botToken cut marked

end Step3Parser

end ModelGateway.ToolParsers
