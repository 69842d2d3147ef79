import ModelGateway.JsonToolComplete
import ModelGateway.JsonToolSteps

/-! Answers that are fed chunk by chunk. The text of an answer is cut into segments, each up to the end of
a name or of a call. When no chunk holds the ends of two segments, every call is sent: its name, and then
the arguments that the parser of complete answers returns. -/
namespace ModelGateway.JsonToolParser
open Json PartialJson Utf8 List Option ToolCallItem

variable {F : Type} {segment rest behind more : Text}

/-! ### Segments -/

section Segments
variable (fmt : F → Text) (style : Style)

/-- The texts of calls, cut behind each name and behind each call. -/
def segments : Text → List (Call F) → List Text
  | _, [] => []
  | front, call :: later =>
    (front ++ call.nameText style) :: call.argumentsText fmt style :: segments (',' :: style.afterComma) later

def Answer.front : Answer F → Text
  | .array _ => ['[']
  | .object _ => []

def Answer.tail : Answer F → Text
  | .array _ => [']']
  | .object _ => []

def Answer.segments (answer : Answer F) : List Text :=
  JsonToolParser.segments fmt style answer.front answer.calls

theorem segments_flatten (front : Text) (call : Call F) (later : List (Call F)) :
    (segments fmt style front (call :: later)).flatten =
      front ++ (call.text fmt style ++ (segments fmt style (',' :: style.afterComma) later).flatten) := by
  rw [segments, flatten_cons, flatten_cons, call.text_eq, append_assoc, append_assoc]

theorem renderMoreItems_calls (calls : List (Call F)) :
    renderMoreItems fmt style (calls.map Call.value) =
      (segments fmt style (',' :: style.afterComma) calls).flatten ++ [']'] := by
  induction calls with
  | nil => rw [map_nil, renderMoreItems, segments, flatten_nil, nil_append]
  | cons call later ih =>
    rw [map_cons, renderMoreItems, ih, segments_flatten, Call.text]
    simp only [cons_append, append_assoc]

theorem Answer.text_eq {answer : Answer F} (nonempty : answer.calls ≠ []) :
    answer.text fmt style = (answer.segments fmt style).flatten ++ answer.tail := by
  cases answer with
  | array calls =>
    obtain ⟨call, later, rfl⟩ := exists_cons_of_ne_nil (show calls ≠ [] from nonempty)
    rw [Answer.text, Answer.value, render, map_cons, renderItems, renderMoreItems_calls, Answer.segments,
      Answer.calls, segments_flatten]
    simp only [Answer.front, Answer.tail, Call.text, cons_append, nil_append, append_assoc]
  | object call =>
    rw [Answer.segments, Answer.calls, segments_flatten]
    simp only [Answer.text, Answer.value, Answer.front, Answer.tail, JsonToolParser.segments, Call.text, nil_append,
      append_nil, flatten_nil]

end Segments

/-- What is left of some segments behind a number of characters. -/
def advance : List Text → Nat → List Text
  | [], _ => []
  | segment :: later, count =>
    if count < segment.length then segment.drop count :: later else advance later (count - segment.length)

/-- No chunk holds the ends of two segments. -/
def Paced : List Text → List Text → Prop
  | _, [] => True
  | segments, chunk :: chunks =>
    segments.length ≤ (advance segments chunk.length).length + 1 ∧ Paced (advance segments chunk.length) chunks

instance Paced.decide : (segments chunks : List Text) → Decidable (Paced segments chunks)
  | _, [] => .isTrue trivial
  | segments, chunk :: chunks =>
    have := Paced.decide (advance segments chunk.length) chunks
    inferInstanceAs (Decidable (_ ∧ _))

theorem advance_length_le (segments : List Text) (count : Nat) :
    (advance segments count).length ≤ segments.length := by
  induction segments generalizing count with
  | nil => exact le_refl _
  | cons segment later ih =>
    rw [advance]
    split
    · exact le_refl _
    · exact Nat.le_succ_of_le (ih _)

theorem advance_cases {chunk : Text} (later : List Text) (text : chunk ++ rest = segment ++ behind) :
    (∃ after, after ≠ [] ∧ segment = chunk ++ after ∧ rest = after ++ behind ∧
      advance (segment :: later) chunk.length = after :: later) ∨
    ∃ more, chunk = segment ++ more ∧ more ++ rest = behind ∧
      advance (segment :: later) chunk.length = advance later more.length := by
  by_cases short : chunk.length < segment.length
  · obtain ⟨after, rfl⟩ : chunk <+: segment := prefix_of_prefix_length_le ⟨rest, text⟩ ⟨behind, rfl⟩ (le_of_lt short)
    rw [append_assoc, append_cancel_left_eq] at text
    refine .inl ⟨after, ?_, rfl, text, ?_⟩
    · rintro rfl
      simp at short
    · rw [advance, if_pos short, drop_left]
  · obtain ⟨more, rfl⟩ : segment <+: chunk :=
      prefix_of_prefix_length_le ⟨behind, rfl⟩ ⟨rest, text⟩ (Nat.le_of_not_lt short)
    rw [append_assoc, append_cancel_left_eq] at text
    refine .inr ⟨more, rfl, text, ?_⟩
    rw [advance, if_neg short, length_append, Nat.add_sub_cancel_left]

theorem within_next {later : List Text} (text : more ++ rest = segment ++ behind)
    (paced : (segment :: later).length ≤ (advance (segment :: later) more.length).length) :
    ∃ after, after ≠ [] ∧ segment = more ++ after ∧ rest = after ++ behind ∧
      advance (segment :: later) more.length = after :: later := by
  rcases advance_cases later text with mem | ⟨beyond, -, -, advanced⟩
  · exact mem
  · have bound := advance_length_le later beyond.length
    rw [advanced, length_cons] at paced
    omega

/-! ### What is sent -/

section Streams
variable (fmt : F → Text)

/-- The items of some calls, one after the other: the name, and then the arguments in parts. -/
def Streams : Nat → List (Call F) → List ToolCallItem → Prop
  | _, [], items => items = []
  | index, call :: later, items => ∃ (parts : List Text) (rest : List ToolCallItem),
      items = ⟨index, some call.name, []⟩ :: (parts.map (ToolCallItem.mk index none) ++ rest) ∧
        parts.flatten = serialize fmt call.arguments ∧ Streams (index + 1) later rest

/-- The items behind a beginning of the arguments of a call. -/
def Continues (index : Nat) (call : Call F) (part : Text) (later : List (Call F)) (items : List ToolCallItem) : Prop :=
  ∃ (parts : List Text) (rest : List ToolCallItem), items = parts.map (ToolCallItem.mk index none) ++ rest ∧
    part ++ parts.flatten = serialize fmt call.arguments ∧ Streams fmt (index + 1) later rest

variable {fmt} {index : Nat} {call : Call F} {part diff : Text} {later calls : List (Call F)}
  {items : List ToolCallItem}

theorem Continues.named (continues : Continues fmt index call [] later items) :
    Streams fmt index (call :: later) ([⟨index, some call.name, []⟩] ++ items) := by
  obtain ⟨parts, rest, rfl, whole, streams⟩ := continues
  exact ⟨parts, rest, rfl, whole, streams⟩

theorem Continues.extend (continues : Continues fmt index call (part ++ diff) later items) :
    Continues fmt index call part later (itemsFor index diff ++ items) := by
  obtain ⟨parts, rest, rfl, whole, streams⟩ := continues
  rw [append_assoc] at whole
  rw [itemsFor]
  split
  · rename_i none
    rw [none, nil_append] at whole
    exact ⟨parts, rest, rfl, whole, streams⟩
  · exact ⟨diff :: parts, rest, rfl, whole, streams⟩

theorem Streams.finish (whole : part ++ diff = serialize fmt call.arguments)
    (streams : Streams fmt (index + 1) later items) :
    Continues fmt index call part later (itemsFor index diff ++ items) :=
  Continues.extend ⟨[], items, rfl, by rw [flatten_nil, append_nil, whole], streams⟩

theorem Streams.le_toolIndex (streams : Streams fmt index calls items) :
    ∀ item ∈ items, index ≤ item.toolIndex := by
  induction calls generalizing index items with
  | nil =>
    rw [show items = [] from streams]
    exact nofun
  | cons call later ih =>
    obtain ⟨parts, rest, rfl, -, streams⟩ := streams
    intro item mem
    rw [mem_cons, mem_append, List.mem_map] at mem
    rcases mem with rfl | ⟨part, -, rfl⟩ | mem
    · exact le_refl _
    · exact le_refl _
    · exact Nat.le_of_succ_le (ih streams item mem)

/-- The items of each call carry its name once, first, and then its arguments. -/
theorem Streams.filter (streams : Streams fmt index calls items) {offset : Nat}
    (there : calls[offset]? = some call) :
    ∃ parts : List Text, items.filter (fun item => item.toolIndex = index + offset) =
        ⟨index + offset, some call.name, []⟩ :: parts.map (mk (index + offset) none) ∧
      parts.flatten = serialize fmt call.arguments := by
  induction calls generalizing index items offset with
  | nil => cases there
  | cons first later ih =>
    obtain ⟨parts, rest, rfl, whole, streams⟩ := streams
    cases offset with
    | zero =>
      cases there
      have others : rest.filter (fun item => item.toolIndex = index) = [] := by
        refine filter_eq_nil_iff.mpr fun item mem => ?_
        have above := streams.le_toolIndex item mem
        simp only [decide_eq_true_eq]
        omega
      have same : (parts.map (mk index none)).filter (fun item => item.toolIndex = index) =
          parts.map (mk index none) := by
        refine filter_eq_self.mpr fun item mem => ?_
        obtain ⟨part, -, rfl⟩ := mem_map.mp mem
        exact decide_eq_true rfl
      refine ⟨parts, ?_, whole⟩
      rw [Nat.add_zero, filter_cons_of_pos (by simp), filter_append, same, others, append_nil]
    | succ offset =>
      have none : (parts.map (mk index none)).filter (fun item => item.toolIndex = index + (offset + 1)) = [] := by
        refine filter_eq_nil_iff.mpr fun item mem => ?_
        obtain ⟨part, -, rfl⟩ := mem_map.mp mem
        simp only [decide_eq_true_eq]
        omega
      rw [filter_cons_of_neg (by simp), filter_append, none, nil_append,
        show index + (offset + 1) = index + 1 + offset by omega]
      exact ih streams there

end Streams

/-! ### Stages -/

/-- What is assumed of a call: it is offered and plain, its text is of one-byte characters, and
`serde_json` takes its text and no beginning of it. -/
structure Streamable (host : Host F) (serde : Serde F) (tools : List Text) (style : Style) (call : Call F) : Prop where
  offered : call.name ∈ tools
  plain : call.Plain
  ascii : Ascii (call.text host.fmt style)
  complete : serde.isCompleteJson (call.text host.fmt style) = true
  incomplete : ∀ cut, cut <+: call.text host.fmt style → cut ≠ call.text host.fmt style →
    serde.isCompleteJson cut = false

section Stages
variable (host : Host F) (serde : Serde F) (tools : List Text) (style : Style)

/-- Where the parser is: the segments and the text that are left, and what is due to be sent. -/
inductive Stage (parser : JsonParser F) : List Text → Text → (List ToolCallItem → Prop) → Prop
  | waiting {sent : List Text} {call : Call F} {later : List (Call F)} {front pending tail left : Text} :
      Waiting host.fmt sent parser → Front style sent.length front →
      parser.buffer ++ pending = front ++ call.nameText style → pending ≠ [] →
      (∀ other ∈ call :: later, Streamable host serde tools style other) → (tail = [] ∨ tail = [']']) →
      left = pending ++ (call.argumentsText host.fmt style ++
        ((segments host.fmt style (',' :: style.afterComma) later).flatten ++ tail)) →
      Stage parser (pending :: call.argumentsText host.fmt style ::
        segments host.fmt style (',' :: style.afterComma) later) left
        (Streams host.fmt sent.length (call :: later))
  | sending {sent : List Text} {call : Call F} {later : List (Call F)} {front part more pending tail left : Text} :
      Sending host.fmt sent call part parser → Front style sent.length front →
      parser.buffer = front ++ (call.nameText style ++ more) →
      more ++ pending = call.argumentsText host.fmt style → pending ≠ [] →
      (∀ other ∈ call :: later, Streamable host serde tools style other) → (tail = [] ∨ tail = [']']) →
      left = pending ++ ((segments host.fmt style (',' :: style.afterComma) later).flatten ++ tail) →
      Stage parser (pending :: segments host.fmt style (',' :: style.afterComma) later) left
        (Continues host.fmt sent.length call part later)
  | finished {sent : List Text} {left : Text} : parser.streamedArgsForTool = sent →
      parser.prevToolCallArr.map (shownArguments host.fmt) = sent.map some →
      (parser.buffer ++ left = [] ∨ parser.buffer ++ left = [']']) → Stage parser [] left (· = [])

variable {host serde tools style} {parser : JsonParser F} {sent ahead : List Text} {call : Call F}
  {later : List (Call F)} {front pending tail chunk rest left : Text} {due : List ToolCallItem → Prop}

theorem stage_behind (waiting : Waiting host.fmt sent parser) (some : sent ≠ [])
    (each : ∀ other ∈ later, Streamable host serde tools style other) (closing : tail = [] ∨ tail = [']'])
    (coming : ahead = segments host.fmt style (',' :: style.afterComma) later)
    (text : parser.buffer ++ rest = ahead.flatten ++ tail)
    (paced : ahead.length ≤ (advance ahead parser.buffer.length).length) :
    Stage host serde tools style parser (advance ahead parser.buffer.length) rest
      (Streams host.fmt sent.length later) := by
  subst coming
  cases later with
  | nil =>
    refine .finished waiting.streamed waiting.prev ?_
    rw [text]
    exact closing
  | cons call later =>
    rw [segments] at text paced ⊢
    have pos : 0 < (sent.length : Int) := by
      have := length_pos_iff.mpr some
      omega
    rw [flatten_cons, append_assoc] at text
    obtain ⟨after, nonempty, segment, left, advanced⟩ := within_next text paced
    rw [advanced]
    refine .waiting waiting (.comma pos) segment.symm nonempty each closing ?_
    rw [left, flatten_cons, append_assoc]

theorem ends_behind (closing : tail = [] ∨ tail = [']'])
    (text : more ++ rest = (segments host.fmt style (',' :: style.afterComma) later).flatten ++ tail) :
    Ends more := by
  rintro char after rfl
  cases later with
  | nil =>
    rw [segments, flatten_nil, nil_append] at text
    rcases closing with rfl | rfl
    · cases text
    · exact .inr (.inl (cons.inj text).1)
  | cons call later =>
    rw [segments] at text
    exact .inl (cons.inj text).1

theorem unstreamed_none (streamed : parser.streamedArgsForTool = sent)
    (prev : parser.prevToolCallArr.map (shownArguments host.fmt) = sent.map some) :
    parser.getUnstreamedToolArgs host.fmt = none := by
  rw [JsonParser.getUnstreamedToolArgs, streamed]
  split
  · rfl
  · have same := congrArg (·[parser.prevToolCallArr.length - 1]?) prev
    simp only [getElem?_map] at same
    cases last : sent[parser.prevToolCallArr.length - 1]? with
    | none => simp only [last, bind_eq_bind, bind_none]
    | some actual =>
      rw [last] at same
      obtain ⟨call, current, shown⟩ := map_eq_some_iff.mp same
      obtain ⟨arguments, read, expected⟩ := map_eq_some_iff.mp shown
      simp only [last, bind_eq_bind, bind_some, current, read, expected, ne_eq, not_true_eq_false,
        and_false, if_false]

/-- A chunk takes the parser from one stage to the next, and sends a beginning of what is due. -/
theorem Stage.step (stage : Stage host serde tools style parser ahead left due)
    (text : chunk ++ rest = left) (paced : ahead.length ≤ (advance ahead chunk.length).length + 1) :
    ∃ next result due', parser.parseIncremental host serde tools chunk = some (next, result) ∧
      Stage host serde tools style next (advance ahead chunk.length) rest due' ∧
      ∀ items, due' items → due (result.calls ++ items) := by
  cases stage with
  | @waiting sent call later front pending tail _ waiting opens buffer _ each closing left =>
    obtain ⟨offered, plain, ascii, -, -⟩ := each call mem_cons_self
    rcases advance_cases (call.argumentsText host.fmt style ::
        segments host.fmt style (',' :: style.afterComma) later) (text.trans left) with
      ⟨after, some, rfl, left, advanced⟩ | ⟨more, rfl, behind, advanced⟩
    · -- the name is not complete
      rw [← append_assoc] at buffer
      have named : Ascii (call.nameText style) := by
        rw [call.text_eq] at ascii
        exact fun char mem => ascii char (mem_append_left _ mem)
      obtain ⟨next, result, parsed, silent, still, kept⟩ := waiting.chunk_unnamed opens plain named ⟨after, buffer⟩
        (by rw [← buffer]; exact fun same => some (self_eq_append_right.mp same))
      refine ⟨next, result, Streams host.fmt sent.length (call :: later), parsed, ?_, ?_⟩
      · rw [advanced]
        exact .waiting still opens (by rw [kept, buffer]) some each closing left
      · intro items due
        rw [silent]
        exact due
    · -- the name is complete and the arguments are not
      rw [advanced, length_cons, Nat.add_le_add_iff_right] at paced
      obtain ⟨after, some, arguments, left, advanced'⟩ := within_next behind paced
      obtain ⟨next, result, parsed, announced, sending, kept⟩ := waiting.chunk_named offered plain ascii opens
        (show parser.buffer ++ (pending ++ more) = front ++ (call.nameText style ++ more) by
          rw [← append_assoc, buffer, append_assoc])
        ⟨after, arguments.symm⟩ (by rw [arguments]; exact fun same => some (self_eq_append_right.mp same))
      refine ⟨next, result, Continues host.fmt sent.length call [] later, parsed, ?_, ?_⟩
      · rw [advanced, advanced']
        refine .sending sending opens ?_ arguments.symm some each closing left
        rw [kept, ← append_assoc, buffer, append_assoc]
      · intro items due
        rw [announced]
        exact due.named
  | @sending sent call later front part more pending tail _ sending opens buffer arguments _ each closing left =>
    obtain ⟨offered, plain, ascii, complete, incomplete⟩ := each call mem_cons_self
    rcases advance_cases (segments host.fmt style (',' :: style.afterComma) later) (text.trans left) with
      ⟨after, some, rfl, left, advanced⟩ | ⟨beyond, rfl, behind, advanced⟩
    · -- the arguments are not complete
      rw [← append_assoc] at arguments
      have partly : more ++ chunk ≠ call.argumentsText host.fmt style := by
        rw [← arguments]
        exact fun same => some (self_eq_append_right.mp same)
      have unfinished : serde.isCompleteJson (call.nameText style ++ (more ++ chunk)) = false := by
        refine incomplete _ ?_ ?_
        · rw [call.text_eq, ← arguments]
          exact ⟨after, by simp only [append_assoc]⟩
        · rw [call.text_eq]
          exact fun same => partly (append_cancel_left same)
      obtain ⟨next, result, diff, parsed, sends, longer, kept⟩ := sending.chunk_cut offered plain ascii opens
        (show parser.buffer ++ chunk = front ++ (call.nameText style ++ (more ++ chunk)) by
          rw [buffer]; simp only [append_assoc])
        ⟨after, arguments⟩ partly unfinished
      refine ⟨next, result, Continues host.fmt sent.length call (part ++ diff) later, parsed, ?_, ?_⟩
      · rw [advanced]
        refine .sending longer opens ?_ arguments some each closing left
        rw [kept, buffer]
        simp only [append_assoc]
      · intro items due
        rw [sends]
        exact due.extend
    · -- the call is complete
      rw [advanced, length_cons, Nat.add_le_add_iff_right] at paced
      obtain ⟨next, result, diff, parsed, sends, whole, waiting, kept⟩ := sending.chunk_whole offered plain ascii
        opens
        (show parser.buffer ++ (pending ++ beyond) = front ++ (call.text host.fmt style ++ beyond) by
          rw [buffer, call.text_eq, ← arguments]; simp only [append_assoc])
        (ends_behind closing behind) complete
      rw [← kept] at behind paced
      refine ⟨next, result, Streams host.fmt (sent ++ [serialize host.fmt call.arguments]).length later, parsed, ?_, ?_⟩
      · rw [advanced, ← kept]
        exact stage_behind waiting (by simp) (fun other mem => each other (mem_cons_of_mem _ mem))
          closing rfl behind paced
      · intro items due
        rw [sends]
        rw [length_append] at due
        exact due.finish whole
  | finished streamed prev closing =>
    subst text
    rw [← append_assoc, append_eq_nil_iff, append_eq_singleton_iff] at closing
    have flushes : parser.buffer ++ chunk = [] ∨ parser.buffer ++ chunk = [']'] := by tauto
    obtain ⟨format, closed, result, flushed, silent, -⟩ := parseIncremental_flush host serde tools chunk flushes
    refine ⟨_, result, (· = []), flushed, ?_, ?_⟩
    · refine .finished streamed prev ?_
      rw [nil_append]
      tauto
    · intro items due
      rw [silent, due]
      rfl

theorem Stage.run (stage : Stage host serde tools style parser ahead left due) {chunks : List Text}
    (text : chunks.flatten = left) (paced : Paced ahead chunks) :
    ∃ last items, feed host serde tools parser chunks = some (last, items) ∧ due items ∧
      last.getUnstreamedToolArgs host.fmt = none := by
  induction chunks generalizing parser ahead left due with
  | nil =>
    cases stage with
    | waiting _ _ _ nonempty _ _ same | sending _ _ _ _ nonempty _ _ same =>
      exact absurd (append_eq_nil_iff.mp (text.trans same).symm).1 nonempty
    | finished streamed prev => exact ⟨parser, [], rfl, rfl, unstreamed_none streamed prev⟩
  | cons chunk chunks ih =>
    obtain ⟨within, later⟩ := paced
    rw [flatten_cons] at text
    obtain ⟨next, result, due', parsed, stage, sends⟩ := stage.step text within
    obtain ⟨last, items, fed, streams, none⟩ := ih stage rfl later
    refine ⟨last, result.calls ++ items, ?_, sends items streams, none⟩
    rw [feed, parsed]
    simp only [bind_eq_bind, bind_some, fed]
    rfl

end Stages

section Answers
variable {host : Host F} {serde : Serde F} {tools : List Text} {style : Style} {answer : Answer F}

theorem Answer.stage (nonempty : answer.calls ≠ [])
    (each : ∀ call ∈ answer.calls, Streamable host serde tools style call) :
    Stage host serde tools style .new (answer.segments host.fmt style) (answer.text host.fmt style)
      (Streams host.fmt 0 answer.calls) := by
  have opens : Front style ([] : List Text).length answer.front := by
    cases answer with
    | array => exact .bracket (by simp)
    | object => exact .brace (by simp)
  have closing : answer.tail = [] ∨ answer.tail = [']'] := by
    cases answer with
    | array => exact .inr rfl
    | object => exact .inl rfl
  have text := answer.text_eq host.fmt style nonempty
  rw [Answer.segments] at text ⊢
  obtain ⟨call, later, calls⟩ := exists_cons_of_ne_nil nonempty
  rw [calls, JsonToolParser.segments] at text ⊢
  rw [calls] at each
  have waiting : Waiting host.fmt [] .new := ⟨rfl, rfl, rfl, rfl, rfl⟩
  refine .waiting waiting opens rfl ?_ each closing ?_
  · simp [Call.nameText]
  · rw [text, flatten_cons, flatten_cons]
    simp only [append_assoc]

end Answers

/-- When no chunk holds the ends of two segments, the items of each call carry its name once and first,
and then the arguments that `parse_complete` returns. -/
theorem paced_chunks_agree (host : Host F) (serde : Serde F) (tools : List Text) (style : Style)
    (answer : Answer F) (nonempty : answer.calls ≠ []) (offered : ∀ call ∈ answer.calls, call.name ∈ tools)
    (plain : ∀ call ∈ answer.calls, call.Plain)
    (ascii : ∀ call ∈ answer.calls, Ascii (call.text host.fmt style))
    (valid : serde.fromStr (answer.text host.fmt style) = some answer.value)
    (complete : ∀ call ∈ answer.calls, serde.isCompleteJson (call.text host.fmt style) = true)
    (incomplete : ∀ call ∈ answer.calls, ∀ cut, cut <+: call.text host.fmt style →
      cut ≠ call.text host.fmt style → serde.isCompleteJson cut = false)
    (chunks : List Text) (whole : chunks.flatten = answer.text host.fmt style)
    (paced : Paced (answer.segments host.fmt style) chunks) :
    ∃ last items, feed host serde tools .new chunks = some (last, items) ∧
      (parseComplete serde host.fmt (answer.text host.fmt style)).2.length = answer.calls.length ∧
      ∀ index call toolCall, answer.calls[index]? = some call →
        (parseComplete serde host.fmt (answer.text host.fmt style)).2[index]? = some toolCall →
        ∃ parts : List Text,
          (items ++ (last.getUnstreamedToolArgs host.fmt).getD []).filter (·.toolIndex = index) =
            ⟨index, some call.name, []⟩ :: parts.map (mk index none) ∧
          parts.flatten = toolCall.function.arguments := by
  have stage := Answer.stage nonempty fun call mem => Streamable.mk (offered call mem)
    (plain call mem) (ascii call mem) (complete call mem) (incomplete call mem)
  obtain ⟨last, items, fed, streams, none⟩ := stage.run whole paced
  rw [parseComplete_answer plain valid]
  refine ⟨last, items, fed, length_map _, ?_⟩
  intro index call toolCall there found
  simp only [getElem?_map, there, map_some, some.injEq] at found
  subst found
  rw [none, getD_none, append_nil]
  simpa only [Nat.zero_add] using streams.filter there

/-- A host without floating-point numbers. -/
def noFloats : Host Empty := ⟨Char.isAlpha, fun _ _ => rfl, fun _ => none, rfl, nofun⟩

/-- What `serde_json` says of one answer and its calls. -/
def serdeOf (answer : Answer Empty) : Serde Empty :=
  ⟨fun text => if text = answer.text noFloats.fmt .compact then some answer.value else none,
    fun text => text ∈ answer.calls.map (Call.text noFloats.fmt .compact)⟩

def exampleCall (name : Text) : Call Empty := ⟨name, [("q".toList, .string "x".toList)]⟩

theorem plainText_singleton (char : Char) (printable : 32 ≤ char.toNat) : PlainText [char] :=
  fun _ mem => .inl (mem_singleton.mp mem ▸ printable)

theorem exampleCall_plain {char : Char} (printable : 32 ≤ char.toNat) : (exampleCall [char]).Plain := by
  refine ⟨plainText_singleton char printable, .object ?_ (pairwise_singleton _ _) ?_, ?_⟩
  · exact forall_mem_singleton.mpr (plainText_singleton 'q' (by decide))
  · exact forall_mem_singleton.mpr (.string (plainText_singleton 'x' (by decide)))
  · exact (by decide : nesting (exampleCall []).arguments < 30)

def twoCalls : Answer Empty := .array [exampleCall "f".toList, exampleCall "g".toList]

/-- The text of two calls, character by character. -/
theorem two_calls_agree : ∃ last items, feed noFloats (serdeOf twoCalls) ["f".toList, "g".toList] .new
        ((twoCalls.text noFloats.fmt .compact).map fun char => [char]) = some (last, items) ∧
      (parseComplete (serdeOf twoCalls) noFloats.fmt (twoCalls.text noFloats.fmt .compact)).2.length =
        twoCalls.calls.length ∧ ∀ index call toolCall, twoCalls.calls[index]? = some call →
        (parseComplete (serdeOf twoCalls) noFloats.fmt
          (twoCalls.text noFloats.fmt .compact)).2[index]? = some toolCall →
        ∃ parts : List Text,
          (items ++ (last.getUnstreamedToolArgs noFloats.fmt).getD []).filter (·.toolIndex = index) =
            ⟨index, some call.name, []⟩ :: parts.map (mk index none) ∧
          parts.flatten = toolCall.function.arguments := by
  have both {P : Call Empty → Prop} (first : P (exampleCall "f".toList)) (second : P (exampleCall "g".toList)) :
      ∀ call ∈ twoCalls.calls, P call :=
    forall_mem_cons.mpr ⟨first, forall_mem_singleton.mpr second⟩
  have size := both (P := fun call => (call.text noFloats.fmt .compact).length = 34) (by decide) (by decide)
  refine paced_chunks_agree noFloats (serdeOf twoCalls) ["f".toList, "g".toList] .compact twoCalls
    (cons_ne_nil _ _) (both (by decide) (by decide))
    (both (exampleCall_plain (by decide)) (exampleCall_plain (by decide))) ?_ ?_
    (both (by decide) (by decide)) ?_ _ (by decide) (by decide)
  · exact both (P := fun call => Ascii (call.text noFloats.fmt .compact))
      (forall_mem_of_all (by decide)) (forall_mem_of_all (by decide))
  · simp only [serdeOf, if_true]
  · intro call among cut mem partly
    refine decide_eq_false fun known => ?_
    obtain ⟨other, listed, rfl⟩ := mem_map.mp known
    refine partly (mem.eq_of_length ?_)
    rw [size other listed, size call among]

/-- The text of one call in one chunk: the name is sent and the arguments never are. -/
theorem whole_chunk_drops_arguments :
    let answer : Answer Empty := .object (exampleCall "f".toList)
    let text := answer.text noFloats.fmt .compact
    ((feed noFloats (serdeOf answer) ["f".toList] .new [text]).map fun fed =>
        (fed.2, fed.1.getUnstreamedToolArgs noFloats.fmt)) = some ([⟨0, some "f".toList, []⟩], none) ∧
      (parseComplete (serdeOf answer) noFloats.fmt text).2 = [⟨"f".toList, "\x7b\"q\":\"x\"\x7d".toList⟩] := by
  decide

end ModelGateway.JsonToolParser
