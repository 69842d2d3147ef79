import ModelGateway.JsonToolProofs

/-! The states of the streaming parser between two calls of the answer and within one, and what a chunk
makes of them. -/
namespace ModelGateway.JsonToolParser
open Json PartialJson Utf8 List Option

variable {F α : Type} {part text whole pre rest : Text} {value : Value F} {values : List α} {size : Nat}

/-! ### What is sent next of the arguments -/

theorem rest_of_sent (begun : part <+: whole) (inside : text <+: whole) :
    ∃ diff, (if byteLen part < byteLen text then (splitAt? text (byteLen part)).map fun parts => some parts.2
      else some (some [])) = some (some diff) ∧ part ++ diff <+: whole ∧ (part <+: text → part ++ diff = text) := by
  obtain ⟨post, rfl⟩ := begun
  obtain ⟨behind, same⟩ := inside
  split
  · rename_i shorter
    obtain ⟨middle, rfl, -⟩ := prefix_of_byteLen_le same.symm (Nat.le_of_lt shorter)
    refine ⟨middle, by rw [splitAt?_byteLen, map_some], ?_, fun _ => rfl⟩
    exact ⟨behind, same⟩
  · rename_i longer
    refine ⟨[], rfl, by rw [append_nil]; exact prefix_append _ _, ?_⟩
    rintro ⟨more, rfl⟩
    rw [byteLen_append] at longer
    have none : more = [] := byteLen_eq_zero.mp (by omega)
    rw [none]

theorem argumentDiff_cut {fmt : F → Text} {view : Text}
    (begun : part <+: serialize fmt value) (seen : Seen fmt value view)
    {previous : Option Text}
    (pre : ∀ earlier, previous = some earlier → Seen fmt value earlier) :
    ∃ diff, argumentDiff false (byteLen part) view previous = some diff ∧
      part ++ diff.getD [] <+: serialize fmt value := by
  cases previous with
  | none => exact ⟨none, rfl, by rw [getD_none, append_nil]; exact begun⟩
  | some earlier =>
    by_cases same : view = earlier
    · refine ⟨none, ?_, by rw [getD_none, append_nil]; exact begun⟩
      rw [argumentDiff]
      simp [same]
    · have common := ((steady_seen value).agree (pre earlier rfl) seen).commonPrefix_begins (Ne.symm same)
      obtain ⟨diff, read, inside, -⟩ := rest_of_sent begun common
      refine ⟨some diff, ?_, inside⟩
      rw [argumentDiff]
      simp only [Bool.false_eq_true, if_false, ne_eq, same, not_false_eq_true, if_true]
      exact read

/-! ### States -/

/-- Between two calls: the arguments of the calls so far are sent, and no name. -/
structure Waiting (fmt : F → Text) (sent : List Text) (parser : JsonParser F) : Prop where
  id : parser.currentToolId = if sent = [] then -1 else (sent.length : Int)
  nameSent : parser.currentToolNameSent = false
  streamed : parser.streamedArgsForTool = sent
  prev : parser.prevToolCallArr.map (shownArguments fmt) = sent.map some
  notClosed : parser.arrayClosed = false

/-- Within a call: its name is sent, and a beginning of its arguments. -/
structure Sending (fmt : F → Text) (sent : List Text) (call : Call F) (part : Text)
    (parser : JsonParser F) : Prop where
  id : parser.currentToolId = sent.length
  nameSent : parser.currentToolNameSent = true
  streamed : parser.streamedArgsForTool = sent ++ [part]
  begun : part <+: serialize fmt call.arguments
  prev : ∃ earlier, earlier.map (shownArguments fmt) = sent.map some ∧
    (parser.prevToolCallArr = earlier ∨ ∃ last, parser.prevToolCallArr = earlier ++ [last] ∧
      ∀ view, shownArguments fmt last = some view → Seen fmt call.arguments view)
  notClosed : parser.arrayClosed = false

/-- The item that carries new arguments, if there are any. -/
def itemsFor (index : Nat) (diff : Text) : List ToolCallItem := if diff = [] then [] else [⟨index, none, diff⟩]

theorem resizeWith_grow (filler : α) (short : values.length = size) :
    resizeWith values (size + 1) filler = values ++ [filler] := by
  rw [resizeWith, short, Nat.add_sub_cancel_left]
  rfl

theorem resizeWith_keep (filler : α) (full : values.length = size) : resizeWith values size filler = values := by
  rw [resizeWith, full, Nat.sub_self]
  exact append_nil values

theorem ensureCapacity_eq {parser : JsonParser F} {index : Nat} (id : parser.currentToolId = index) :
    ensureCapacity parser = { parser with
      prevToolCallArr := resizeWith parser.prevToolCallArr (index + 1) .null
      streamedArgsForTool := resizeWith parser.streamedArgsForTool (index + 1) [] } := by
  have needed : ((index : Int) + 1).toNat = index + 1 := by omega
  rw [ensureCapacity, id, if_neg (by omega)]
  simp only [needed]

section Sending
variable {fmt : F → Text} {sent : List Text} {call : Call F} {part : Text} {parser : JsonParser F}
  {read : Value F}

theorem Waiting.prev_length (waiting : Waiting fmt sent parser) :
    parser.prevToolCallArr.length = sent.length := by
  simpa using congrArg length waiting.prev

theorem Waiting.streamName (waiting : Waiting fmt sent parser) {tools : List Text} {name : Text}
    (named : toolName read = some name) (offered : name ∈ tools) (call : Call F) :
    ∃ next, streamName tools read parser = (next, { calls := [⟨sent.length, some name, []⟩] }) ∧
      Sending fmt sent call [] next ∧ next.buffer = parser.buffer := by
  rw [JsonToolParser.streamName, named]
  simp only [if_pos offered]
  by_cases first : sent = []
  · subst first
    have id : parser.currentToolId = -1 := by rw [waiting.id, if_pos rfl]
    have none : parser.prevToolCallArr = [] := length_eq_zero_iff.mp waiting.prev_length
    rw [if_pos id]
    refine ⟨_, rfl, ⟨rfl, rfl, ?_, nil_prefix, ⟨[], rfl, .inl none⟩, waiting.notClosed⟩, rfl⟩
    rw [waiting.streamed]
  · have id : parser.currentToolId = sent.length := by rw [waiting.id, if_neg first]
    have full : parser.streamedArgsForTool.length ≤ parser.currentToolId.toNat := by
      rw [waiting.streamed, id, Int.toNat_natCast]
    rw [if_neg (by omega), if_pos full, ensureCapacity_eq id, id]
    refine ⟨_, rfl, ⟨rfl, rfl, ?_, nil_prefix, ⟨_, waiting.prev, .inr ⟨.null, ?_, ?_⟩⟩, waiting.notClosed⟩, rfl⟩
    · exact (resizeWith_grow [] (congrArg length waiting.streamed)).trans (by rw [waiting.streamed])
    · exact resizeWith_grow .null waiting.prev_length
    · exact fun view shown => nomatch shown

variable (sending : Sending fmt sent call part parser)
include sending

/-- The arguments so far are compared with the new ones and replaced. -/
theorem Sending.update (read arguments : Value F) (isComplete : Bool) (rest : Text) :
    ∃ earlier previous, earlier.map (shownArguments fmt) = sent.map some ∧
      (∀ view, previous = some view → Seen fmt call.arguments view) ∧
      ∀ diff, argumentDiff isComplete (byteLen part) (serialize fmt arguments) previous = some diff →
        streamArguments fmt read arguments isComplete (some rest) parser = some ({ parser with
            buffer := if isComplete then rest else parser.buffer
            prevToolCallArr := earlier ++ [read]
            currentToolId := if isComplete then sent.length + 1 else sent.length
            currentToolNameSent := !isComplete
            streamedArgsForTool := sent ++ [part ++ diff.getD []] },
            { calls := itemsFor sent.length (diff.getD []) }) := by
  obtain ⟨earlier, shown, shape⟩ := sending.prev
  have size : earlier.length = sent.length := by simpa using congrArg length shown
  have current : parser.streamedArgsForTool[sent.length]? = some part := by
    rw [sending.streamed, getElem?_concat_length]
  have modified (diff : Text) :
      parser.streamedArgsForTool.modify sent.length (· ++ diff) = sent ++ [part ++ diff] := by
    rw [sending.streamed, modify_eq_set]
    simp
  have capacity (diff : Text) : resizeWith (sent ++ [part ++ diff]) (sent.length + 1) [] = sent ++ [part ++ diff] :=
    resizeWith_keep [] (by simp)
  have replaced : (resizeWith parser.prevToolCallArr (sent.length + 1) .null).set sent.length read =
      earlier ++ [read] := by
    rcases shape with same | ⟨last, same, -⟩
    · rw [same, resizeWith_grow _ size, ← size]
      simp
    · rw [same, resizeWith_keep _ (by simp [size]), ← size]
      simp
  refine ⟨earlier, (parser.prevToolCallArr[sent.length]?).bind (shownArguments fmt), shown, ?_, ?_⟩
  · intro view there
    rcases shape with same | ⟨last, same, seen⟩
    · rw [same, getElem?_eq_none (by omega)] at there
      cases there
    · rw [same, ← size, getElem?_concat_length] at there
      exact seen view there
  · intro diff sends
    have previous : ((parser.prevToolCallArr[sent.length]?).bind (Value.get "arguments".toList)).map
        (serialize fmt) = (parser.prevToolCallArr[sent.length]?).bind (shownArguments fmt) := by
      cases parser.prevToolCallArr[sent.length]? <;> rfl
    have outside : ¬ (sent.length : Int) < 0 := by omega
    simp only [streamArguments, sending.id, Int.toNat_natCast, current, map_some, getD_some,
      previous, sends, modified, outside, if_false, bind_eq_bind, bind_some]
    rw [ensureCapacity_eq rfl]
    simp only [capacity, replaced]
    cases isComplete with
    | false =>
      rw [sending.nameSent]
      rfl
    | true => rfl

theorem Sending.stream_cut {view : Value F} (shown : shownArguments fmt read = some (serialize fmt view))
    (seen : Seen fmt call.arguments (serialize fmt view)) (rest : Text) :
    ∃ next diff, streamArguments fmt read view false (some rest) parser =
        some (next, { calls := itemsFor sent.length diff }) ∧
      Sending fmt sent call (part ++ diff) next ∧ next.buffer = parser.buffer := by
  obtain ⟨earlier, previous, kept, views, updates⟩ := sending.update read view false rest
  obtain ⟨diff, sends, begun⟩ := argumentDiff_cut sending.begun seen views
  refine ⟨_, diff.getD [], updates diff sends, ⟨rfl, rfl, rfl, begun, ⟨earlier, kept, .inr ⟨read, rfl, ?_⟩⟩,
    sending.notClosed⟩, rfl⟩
  intro other same
  rw [shown] at same
  cases same
  exact seen

theorem Sending.stream_whole (rest : Text) :
    ∃ next diff, streamArguments fmt call.value call.arguments true (some rest) parser =
        some (next, { calls := itemsFor sent.length diff }) ∧
      part ++ diff = serialize fmt call.arguments ∧
      Waiting fmt (sent ++ [serialize fmt call.arguments]) next ∧ next.buffer = rest := by
  obtain ⟨earlier, previous, kept, -, updates⟩ := sending.update call.value call.arguments true rest
  obtain ⟨diff, sends, -, all⟩ := rest_of_sent sending.begun prefix_rfl
  refine ⟨_, diff, updates (some diff) sends, all sending.begun, ⟨?_, rfl, ?_, ?_, sending.notClosed⟩, rfl⟩
  · change (sent.length : Int) + 1 = if sent ++ [serialize fmt call.arguments] = [] then -1 else _
    rw [if_neg (by simp), length_append]
    rfl
  · rw [getD_some, all sending.begun]
  · rw [map_append, map_append, kept]
    rfl

end Sending

/-! ### One chunk -/

/-- Every character is one byte. -/
def Ascii (text : Text) : Prop := ∀ char ∈ text, char.toNat < 128

theorem length_le_byteLen (text : Text) : text.length ≤ byteLen text ∧ (byteLen text = text.length ↔ Ascii text) := by
  induction text with
  | nil => exact ⟨le_rfl, fun _ => nofun, fun _ => rfl⟩
  | cons char rest ih =>
    have size := char.utf8Size_pos
    have small : char.utf8Size = 1 ↔ char.toNat < 128 := by
      rw [Char.utf8Size_eq_one_iff, UInt32.le_iff_toNat_le]
      exact Nat.lt_succ_iff.symm
    rw [byteLen_cons, length_cons, Ascii, forall_mem_cons, ← small, ← Ascii, ← ih.2]
    omega

theorem Ascii.byteLen (ascii : Ascii text) : byteLen text = text.length := (length_le_byteLen text).2.mpr ascii

theorem ascii_blank (style : Style) : Ascii (style.afterComma ++ style.afterColon) := by
  have json : ∀ char ∈ [' ', '\x09', '\x0a', '\x0d'], char.toNat < 128 := forall_mem_of_all (by decide)
  exact fun char inside => json char (style.blank char inside)

theorem walkBack_boundary {position : Nat} (boundary : isCharBoundary text position = true) :
    walkBack text position = position := by
  cases position with
  | zero => rfl
  | succ position => rw [walkBack, if_pos boundary]

section Handle
variable {host : Host F} {serde : Serde F} {tools : List Text} {parser : JsonParser F} {front : Text}
  {style : Style} {id : Int}

theorem handle_eq (front : Text) (nonempty : pre ++ rest ≠ []) (ascii : Ascii pre)
    (read : parseValue host (settings parser.currentToolNameSent) 32 (pre ++ rest) = (.ok value, rest)) :
    handleJsonToolStreaming host serde tools (front ++ (pre ++ rest)) (byteLen front) parser =
      let call := normalizeToolCallFields value
      if (toolName call).any (· ∉ tools) then some (resetCurrentToolState parser, {})
      else if !parser.currentToolNameSent then some (streamName tools call parser)
      else
        match call.get "arguments".toList with
        | none => some (parser, {})
        | some arguments =>
          streamArguments host.fmt call arguments (serde.isCompleteJson pre) (some rest) parser := by
  have longer : ¬ byteLen (front ++ (pre ++ rest)) ≤ byteLen front := by
    rw [byteLen_append]
    have some : byteLen (pre ++ rest) ≠ 0 := mt byteLen_eq_zero.mp nonempty
    omega
  have behind : splitAt? (front ++ (pre ++ rest)) (byteLen front + byteLen pre) =
      some (front ++ pre, rest) := by
    rw [← byteLen_append, ← append_assoc, splitAt?_byteLen]
  have parsed : splitAt? (pre ++ rest) (walkBack (pre ++ rest) (byteLen pre)) = some (pre, rest) := by
    rw [walkBack_boundary (isCharBoundary_byteLen pre rest), splitAt?_byteLen]
  rw [handleJsonToolStreaming, if_neg longer, splitAt?_byteLen]
  simp only [bind_eq_bind, bind_some, parse_of_parseValue read, ← ascii.byteLen, parsed, behind, map_some]
  rfl

/-- The text between the end of a call, or the start of the answer, and the next call. -/
inductive Front (style : Style) : Int → Text → Prop
  | bracket {id : Int} : id ≤ 0 → Front style id ['[']
  | brace {id : Int} : id ≤ 0 → Front style id []
  | comma {id : Int} : 0 < id → Front style id (',' :: style.afterComma)

theorem findChar_append {char : Char} (absent : ∀ other ∈ front, other ≠ char) (rest : Text) :
    findChar char (front ++ char :: rest) = some (byteLen front) := by
  induction front with
  | nil => rw [nil_append, findChar, if_pos rfl, byteLen_nil]
  | cons first front ih =>
    obtain ⟨here, others⟩ := forall_mem_cons.mp absent
    rw [cons_append, findChar, if_neg here, ih others, map_some, byteLen_cons, Nat.add_comm]

theorem findChar_none {char : Char} (absent : ∀ other ∈ text, other ≠ char) : findChar char text = none := by
  induction text with
  | nil => rfl
  | cons first text ih =>
    obtain ⟨here, others⟩ := forall_mem_cons.mp absent
    rw [findChar, if_neg here, ih others, map_none]

theorem blank_ne {char other : Char} (visible : isWhitespace other = false)
    (inside : char ∈ style.afterComma) : char ≠ other := by
  rintro rfl
  rw [afterComma_blank style char inside] at visible
  cases visible

theorem Front.ne_brace (opens : Front style id front) : ∀ char ∈ front, char ≠ '\x7b' := by
  intro char inside
  cases opens with
  | bracket => rw [mem_singleton.mp inside]; decide
  | brace => exact nomatch inside
  | comma =>
    revert char
    exact forall_mem_cons.mpr ⟨by decide, fun char inside => blank_ne (by decide) inside⟩

theorem startIndex_front (opens : Front style id front) (rest : Text) :
    startIndex id (front ++ '\x7b' :: rest) = byteLen front := by
  rw [startIndex, findChar_append opens.ne_brace]
  cases findChar '[' (front ++ '\x7b' :: rest) <;> rfl

theorem trim_cons {char : Char} (visible : isWhitespace char = false) (rest : Text) :
    ∃ more, trim (char :: rest) = char :: more := by
  rw [trim, skipWhitespace_of_head rest visible, reverse_cons, dropWhile_append]
  split
  · rw [dropWhile_cons_of_neg (by rw [visible]; exact Bool.false_ne_true)]
    exact ⟨[], rfl⟩
  · rw [reverse_append]
    exact ⟨_, rfl⟩

theorem hasToolMarkers_cons {char : Char} (marks : char = '[' ∨ char = '\x7b') (rest : Text) :
    hasToolMarkers (char :: rest) = true := by
  have visible : isWhitespace char = false := by rcases marks with rfl | rfl <;> decide
  obtain ⟨more, trimmed⟩ := trim_cons visible rest
  rw [hasToolMarkers, trimmed]
  rcases marks with rfl | rfl <;> simp

theorem Front.starts (opens : Front style id front) (rest : Text) : (hasToolMarkers (front ++ '\x7b' :: rest) ||
      (0 < id && toolCallSeparator.isPrefixOf (front ++ '\x7b' :: rest))) = true := by
  cases opens with
  | bracket =>
    rw [singleton_append, hasToolMarkers_cons (.inl rfl), Bool.true_or]
  | brace => rw [nil_append, hasToolMarkers_cons (.inr rfl), Bool.true_or]
  | comma pos =>
    rw [decide_eq_true pos, Bool.true_and, toolCallSeparator]
    simp

variable (host serde tools) in
theorem parseIncremental_start (chunk : Text) (notClosed : parser.arrayClosed = false)
    (starts : (hasToolMarkers (parser.buffer ++ chunk) ||
      (0 < parser.currentToolId && toolCallSeparator.isPrefixOf (parser.buffer ++ chunk))) = true) :
    ∃ format, parser.parseIncremental host serde tools chunk =
      handleJsonToolStreaming host serde tools (parser.buffer ++ chunk)
        (startIndex parser.currentToolId (parser.buffer ++ chunk))
        { parser with buffer := parser.buffer ++ chunk, isArrayFormat := format } := by
  rw [JsonParser.parseIncremental]
  simp only [notClosed, Bool.not_false, Bool.true_and, starts, Bool.not_true, Bool.false_eq_true, if_false]
  exact ⟨_, rfl⟩

variable (host serde tools) in
theorem parseIncremental_flush (chunk : Text) (plain : parser.buffer ++ chunk = [] ∨ parser.buffer ++ chunk = [']']) :
    ∃ format closed result, parser.parseIncremental host serde tools chunk =
        some ({ parser with buffer := [], isArrayFormat := format, arrayClosed := closed }, result) ∧
      result.calls = [] ∧ (parser.buffer ++ chunk = [] → closed = parser.arrayClosed) := by
  rw [JsonParser.parseIncremental]
  rcases plain with text | text <;> rw [text]
  · have unmarked : hasToolMarkers [] = false := by decide
    have apart : toolCallSeparator.isPrefixOf [] = false := by decide
    have unclosed : [']'].isPrefixOf ([] : Text) = false := by decide
    simp only [unmarked, apart, unclosed, Bool.and_false, Bool.or_false, Bool.not_false, if_true,
      Bool.false_eq_true, if_false]
    exact ⟨_, _, _, rfl, rfl, fun _ => rfl⟩
  · have unmarked : hasToolMarkers [']'] = false := by decide
    have apart : toolCallSeparator.isPrefixOf [']'] = false := by decide
    simp only [unmarked, apart, Bool.and_false, Bool.or_false, Bool.not_false, if_true, Bool.false_eq_true,
      and_false, if_false]
    split
    · exact ⟨_, _, _, rfl, rfl, nofun⟩
    · exact ⟨_, _, _, rfl, rfl, nofun⟩

end Handle

section Chunk
variable {host : Host F} {serde : Serde F} {tools : List Text} {style : Style} {parser : JsonParser F}
  {sent : List Text} {call : Call F} {front chunk : Text}

variable (waiting : Waiting host.fmt sent parser)
include waiting

theorem Waiting.opens (opens : Front style sent.length front) : Front style parser.currentToolId front := by
  rw [waiting.id]
  split
  · rename_i first
    subst first
    cases opens with
    | bracket => exact .bracket (by omega)
    | brace => exact .brace (by omega)
    | comma pos => exact absurd pos (by simp)
  · exact opens

theorem Waiting.renewed (text : Text) (format : Bool) :
    Waiting host.fmt sent { parser with buffer := text, isArrayFormat := format } :=
  { waiting with }

omit waiting in
theorem Sending.renewed (sending : Sending host.fmt sent call part parser) (text : Text) (format : Bool) :
    Sending host.fmt sent call part { parser with buffer := text, isArrayFormat := format } :=
  { sending with }

theorem handle_unnamed (front : Text) (nonempty : pre ≠ []) (ascii : Ascii pre)
    (value : Value F) (read : parseValue host (settings false) 32 pre = (.ok value, []))
    (unnamed : toolName (normalizeToolCallFields value) = none) :
    handleJsonToolStreaming host serde tools (front ++ pre) (byteLen front) parser = some (parser, {}) := by
  have whole : parseValue host (settings parser.currentToolNameSent) 32 (pre ++ []) = (.ok value, []) := by
    rw [waiting.nameSent, append_nil]
    exact read
  have handled : handleJsonToolStreaming host serde tools (front ++ (pre ++ [])) (byteLen front) parser = _ :=
    handle_eq front (by rwa [append_nil]) ascii whole
  rw [append_nil] at handled
  rw [handled]
  simp only [unnamed, any_none, Bool.false_eq_true, if_false, waiting.nameSent, Bool.not_false, if_true,
    JsonToolParser.streamName]

/-- A chunk within the text before a call. -/
theorem Waiting.chunk_front (opens : Front style sent.length front)
    (inside : parser.buffer ++ chunk <+: front) :
    ∃ next result, parser.parseIncremental host serde tools chunk = some (next, result) ∧ result.calls = [] ∧
      Waiting host.fmt sent next ∧ next.buffer = parser.buffer ++ chunk := by
  by_cases empty : parser.buffer ++ chunk = []
  · obtain ⟨format, closed, result, flushed, silent, kept⟩ :=
      parseIncremental_flush host serde tools chunk (.inl empty)
    exact ⟨_, result, flushed, silent, { waiting with notClosed := (kept empty).trans waiting.notClosed }, by rw [empty]⟩
  · obtain ⟨head, more, text⟩ := exists_cons_of_ne_nil empty
    have id := waiting.opens opens
    rw [text] at inside
    cases id with
    | brace => exact absurd (prefix_nil.mp inside) (cons_ne_nil _ _)
    | bracket =>
      obtain ⟨rfl, rest⟩ := cons_prefix_cons.mp inside
      obtain rfl := prefix_nil.mp rest
      obtain ⟨format, started⟩ := parseIncremental_start host serde tools chunk
        waiting.notClosed (by rw [text, hasToolMarkers_cons (.inl rfl), Bool.true_or])
      rw [text] at started ⊢
      refine ⟨_, {}, started.trans ?_, rfl, waiting.renewed _ format, rfl⟩
      exact handle_unnamed (waiting.renewed ['['] format) [] (cons_ne_nil _ _)
        (show Ascii ['['] from forall_mem_of_all (by decide)) (.array [.null]) rfl rfl
    | comma pos =>
      obtain ⟨rfl, blank⟩ := cons_prefix_cons.mp inside
      obtain ⟨format, started⟩ := parseIncremental_start host serde tools chunk
        waiting.notClosed (by rw [text, decide_eq_true pos, toolCallSeparator]; simp)
      have absent (char : Char) (visible : isWhitespace char = false) (differs : ',' ≠ char) :
          findChar char (',' :: more) = none := by
        refine findChar_none (forall_mem_cons.mpr ⟨differs, fun other among => ?_⟩)
        exact blank_ne visible (blank.subset among)
      have index : startIndex parser.currentToolId (',' :: more) = byteLen [','] := by
        rw [startIndex, absent '[' (by decide) (by decide), absent '\x7b' (by decide) (by decide)]
        exact if_pos ⟨pos, by simp [toolCallSeparator]⟩
      rw [text, index] at started
      rw [text]
      refine ⟨_, {}, started.trans ?_, rfl, waiting.renewed _ format, rfl⟩
      cases more with
      | nil => rfl
      | cons space more =>
        have only : ∀ char ∈ space :: more, isWhitespace char = true :=
          fun char among => afterComma_blank style char (blank.subset among)
        exact handle_unnamed (waiting.renewed _ format) [','] (cons_ne_nil _ _)
          (fun char among => ascii_blank style char (mem_append_left _ (blank.subset among))) .null
          (dispatch_blank rfl (skipWhitespace_eq_nil only)) rfl

omit waiting in
variable (host serde tools) {more : Text} in
theorem parseIncremental_opened (notClosed : parser.arrayClosed = false)
    (opens : Front style parser.currentToolId front) {json : Text}
    (text : parser.buffer ++ chunk = front ++ json) (begins : json = '\x7b' :: more) :
    ∃ format, parser.parseIncremental host serde tools chunk =
      handleJsonToolStreaming host serde tools (front ++ json) (byteLen front)
        { parser with buffer := front ++ json, isArrayFormat := format } := by
  subst begins
  obtain ⟨format, started⟩ := parseIncremental_start host serde tools chunk notClosed
    (by rw [text]; exact opens.starts more)
  rw [text, startIndex_front opens] at started
  exact ⟨format, started⟩

theorem Waiting.chunk_unnamed (opens : Front style sent.length front) (plain : call.Plain)
    (ascii : Ascii (call.nameText style)) (inside : parser.buffer ++ chunk <+: front ++ call.nameText style)
    (partly : parser.buffer ++ chunk ≠ front ++ call.nameText style) :
    ∃ next result, parser.parseIncremental host serde tools chunk = some (next, result) ∧ result.calls = [] ∧
      Waiting host.fmt sent next ∧ next.buffer = parser.buffer ++ chunk := by
  rcases prefix_append_cases inside with ⟨early, -⟩ | ⟨json, text, begun⟩
  · exact waiting.chunk_front opens early
  · by_cases empty : json = []
    · rw [empty, append_nil] at text
      exact waiting.chunk_front opens (by rw [text])
    · obtain ⟨head, more, cons⟩ := exists_cons_of_ne_nil empty
      have brace : head = '\x7b' := by
        rw [cons] at begun
        exact (cons_prefix_cons.mp begun).1
      have short : json ≠ call.nameText style := fun same => partly (by rw [text, same])
      obtain ⟨format, opened⟩ := parseIncremental_opened host serde tools waiting.notClosed (waiting.opens opens)
        text (by rw [cons, brace])
      obtain ⟨fields, read, unnamed⟩ := parseValue_unnamed host plain empty begun short
      rw [text]
      refine ⟨_, {}, opened.trans ?_, rfl, waiting.renewed _ format, rfl⟩
      exact handle_unnamed (waiting.renewed _ format) front empty
        (fun char among => ascii char (begun.subset among)) (.object fields) read
        (by rcases unnamed with rfl | rfl <;> rfl)

omit waiting in
theorem ascii_named (ascii : Ascii (call.text host.fmt style))
    (inside : more <+: call.argumentsText host.fmt style) :
    Ascii (call.nameText style ++ more) := by
  intro char among
  refine ascii char (IsPrefix.subset ?_ among)
  rw [call.text_eq]
  exact (prefix_append_right_inj _).mpr inside

omit waiting in
theorem handle_named (parser : JsonParser F) (front : Text) (offered : call.name ∈ tools)
    (ascii : Ascii (call.nameText style ++ more)) {seen : List (Text × Value F)}
    (read : parseValue host (settings parser.currentToolNameSent) 32 (call.nameText style ++ more) =
      (.ok (.object (("name".toList, .string call.name) :: seen)), [])) :
    handleJsonToolStreaming host serde tools (front ++ (call.nameText style ++ more)) (byteLen front) parser =
      let value := normalizeToolCallFields (.object (("name".toList, .string call.name) :: seen))
      if !parser.currentToolNameSent then some (streamName tools value parser)
      else
        match value.get "arguments".toList with
        | none => some (parser, {})
        | some arguments =>
          streamArguments host.fmt value arguments (serde.isCompleteJson (call.nameText style ++ more))
            (some []) parser := by
  have handled : handleJsonToolStreaming host serde tools (front ++ ((call.nameText style ++ more) ++ []))
      (byteLen front) parser = _ :=
    handle_eq front (by simp [Call.nameText]) ascii (by rw [append_nil]; exact read)
  rw [append_nil] at handled
  rw [handled]
  simp only [toolName_named, any_some, offered, not_true_eq_false, decide_false, Bool.false_eq_true, if_false]

variable (offered : call.name ∈ tools) (plain : call.Plain) (ascii : Ascii (call.text host.fmt style))
  (opens : Front style sent.length front)
include offered plain ascii opens

theorem Waiting.chunk_named (text : parser.buffer ++ chunk = front ++ (call.nameText style ++ more))
    (inside : more <+: call.argumentsText host.fmt style)
    (partly : more ≠ call.argumentsText host.fmt style) :
    ∃ next result, parser.parseIncremental host serde tools chunk = some (next, result) ∧
      result.calls = [⟨sent.length, some call.name, []⟩] ∧ Sending host.fmt sent call [] next ∧
      next.buffer = parser.buffer ++ chunk := by
  obtain ⟨format, opened⟩ := parseIncremental_opened host serde tools waiting.notClosed (waiting.opens opens) text rfl
  have ready := waiting.renewed (front ++ (call.nameText style ++ more)) format
  obtain ⟨seen, read, -⟩ := parseValue_named plain false inside partly
  obtain ⟨next, sends, sending, kept⟩ := ready.streamName (toolName_named call.name seen) offered call
  have handled := opened.trans
    (handle_named _ front offered (ascii_named ascii inside) (by rw [ready.nameSent]; exact read))
  simp only [waiting.nameSent, Bool.not_false, if_true] at handled
  refine ⟨next, { calls := [⟨sent.length, some call.name, []⟩] }, handled.trans ?_, rfl, sending, kept.trans text.symm⟩
  rw [← sends, waiting.nameSent]

omit waiting

/-- A chunk within the arguments of a call. -/
theorem Sending.chunk_cut (sending : Sending host.fmt sent call part parser)
    (text : parser.buffer ++ chunk = front ++ (call.nameText style ++ more))
    (inside : more <+: call.argumentsText host.fmt style)
    (partly : more ≠ call.argumentsText host.fmt style)
    (incomplete : serde.isCompleteJson (call.nameText style ++ more) = false) :
    ∃ next result diff, parser.parseIncremental host serde tools chunk = some (next, result) ∧
      result.calls = itemsFor sent.length diff ∧ Sending host.fmt sent call (part ++ diff) next ∧
      next.buffer = parser.buffer ++ chunk := by
  obtain ⟨format, opened⟩ := parseIncremental_opened host serde tools sending.notClosed
    (by rw [sending.id]; exact opens) text rfl
  have ready := sending.renewed (front ++ (call.nameText style ++ more)) format
  obtain ⟨seen, read, cut⟩ := parseValue_named plain true inside partly
  have handled := opened.trans
    (handle_named _ front offered (ascii_named ascii inside) (by rw [ready.nameSent]; exact read))
  simp only [sending.nameSent, Bool.not_true, Bool.false_eq_true, if_false, incomplete] at handled
  rcases arguments_cut plain (cut rfl) with absent | ⟨view, read, shown⟩
  · rw [absent] at handled
    refine ⟨_, _, [], handled, rfl, ?_, text.symm⟩
    rw [append_nil, ← sending.nameSent]
    exact ready
  · rw [read] at handled
    obtain ⟨next, diff, sends, longer, kept⟩ := ready.stream_cut (by rw [shownArguments, read]; rfl) shown []
    refine ⟨next, { calls := itemsFor sent.length diff }, diff, handled.trans ?_, rfl, longer, kept.trans text.symm⟩
    rw [← sends, sending.nameSent]

theorem Sending.chunk_whole (sending : Sending host.fmt sent call part parser)
    (text : parser.buffer ++ chunk = front ++ (call.text host.fmt style ++ rest))
    (ends : Ends rest) (complete : serde.isCompleteJson (call.text host.fmt style) = true) :
    ∃ next result diff, parser.parseIncremental host serde tools chunk = some (next, result) ∧
      result.calls = itemsFor sent.length diff ∧ part ++ diff = serialize host.fmt call.arguments ∧
      Waiting host.fmt (sent ++ [serialize host.fmt call.arguments]) next ∧ next.buffer = rest := by
  obtain ⟨format, opened⟩ := parseIncremental_opened host serde tools sending.notClosed
    (by rw [sending.id]; exact opens) text (by rw [call.text_eq]; rfl)
  have ready := sending.renewed (front ++ (call.text host.fmt style ++ rest)) format
  obtain ⟨next, diff, sends, whole, waiting, kept⟩ := ready.stream_whole rest
  have handled := opened.trans
    (handle_eq front (by rw [call.text_eq]; exact cons_ne_nil _ _) ascii
      ((reads_value rfl plain.value plain.nesting_le).whole (.inr ends)))
  have same : normalizeToolCallFields call.value = call.value := rfl
  have named : toolName call.value = some call.name := rfl
  simp only [same, named, any_some, offered, not_true_eq_false, decide_false, sending.nameSent,
    Bool.not_true, Bool.false_eq_true, if_false, complete] at handled
  refine ⟨next, { calls := itemsFor sent.length diff }, diff, handled.trans ?_, rfl, whole, waiting, kept⟩
  rw [← sends, sending.nameSent]
  rfl

end Chunk

end ModelGateway.JsonToolParser
