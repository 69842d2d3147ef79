import ModelGateway.JsonToolParser
import ModelGateway.PartialJsonProofs

/-! What one call of the streaming parser makes of the text of a tool call: of a text cut in the name,
cut in the arguments, or complete. -/
namespace ModelGateway.JsonToolParser
open Json PartialJson Utf8 List

variable {F : Type}

/-- A tool call of an answer. Its arguments are an object. -/
structure Call (F : Type) where
  name : Text
  fields : List (Text × Value F)

def Call.arguments (call : Call F) : Value F := .object call.fields

def Call.value (call : Call F) : Value F :=
  .object [("name".toList, .string call.name), ("arguments".toList, call.arguments)]

section Texts
variable (fmt : F → Text) (style : Style)

/-- The text of a call up to the end of its name. -/
def Call.nameText (call : Call F) : Text :=
  '\x7b' :: (quoted "name".toList ++ ':' :: (style.afterColon ++ quoted call.name))

/-- The text of a call behind its name. -/
def Call.argumentsText (call : Call F) : Text :=
  ',' :: (style.afterComma ++ renderFields fmt style [("arguments".toList, call.arguments)])

def Call.text (call : Call F) : Text := render fmt style call.value

theorem Call.text_eq (call : Call F) :
    call.text fmt style = call.nameText style ++ call.argumentsText fmt style := by
  rw [Call.text, Call.value, render, renderFields, renderMoreFields_cons, render, Call.nameText, Call.argumentsText]
  simp only [append_assoc, cons_append]

end Texts

/-- A call that the lenient parser reads back: its name and its arguments are plain, and its arguments
are not too deep. -/
structure Call.Plain (call : Call F) : Prop where
  name : PlainText call.name
  arguments : PartialJson.Plain call.arguments
  shallow : nesting call.arguments < 30

theorem plainText_name : PlainText "name".toList :=
  fun char inside => .inl (forall_mem_of_all (P := fun char => 32 ≤ char.toNat) (by decide) char inside)

theorem plainText_arguments : PlainText "arguments".toList :=
  fun char inside => .inl (forall_mem_of_all (P := fun char => 32 ≤ char.toNat) (by decide) char inside)

theorem name_not_prefix : ¬ "name".toList <+: "arguments".toList := by decide

variable {call : Call F} {host : Host F} {rest source target : Text} {fields : List (Text × Value F)}

theorem Call.Plain.value (plain : call.Plain) : PartialJson.Plain call.value := by
  refine .object ?_ ?_ ?_
  · exact forall_mem_cons.mpr ⟨plainText_name, forall_mem_singleton.mpr plainText_arguments⟩
  · exact pairwise_pair.mpr name_not_prefix
  · exact forall_mem_cons.mpr ⟨.string plain.name, forall_mem_singleton.mpr plain.arguments⟩

theorem Call.Plain.nesting_le (plain : call.Plain) : nesting call.value ≤ 32 := by
  have shallow := plain.shallow
  simp only [Call.value, nesting, nestingFields] at shallow ⊢
  omega

/-! ### The text of a call under the lenient parser -/

/-- The settings of the lenient parser in a streaming call. -/
def settings (strings : Bool) : Parser := ⟨32, true, strings⟩

theorem settings_lenient (strings : Bool) : (settings strings).allowIncomplete = true := rfl

theorem parse_of_parseValue {strings : Bool} {pre : Text} {value : Value F}
    (read : parseValue host (settings strings) 32 (pre ++ rest) = (.ok value, rest)) :
    Settings.parse host {} (pre ++ rest) strings = .ok (value, pre.length) := by
  have parsed : Settings.parse host {} (pre ++ rest) strings =
      (parseValue host (settings strings) 32 (pre ++ rest)).1.map fun value =>
        (value, (pre ++ rest).length - (parseValue host (settings strings) 32 (pre ++ rest)).2.length) := rfl
  rw [parsed, read, length_append, Nat.add_sub_cancel]
  rfl

theorem parseValue_brace (parser : Parser) {text whole : Text} (solid : Solid whole)
    (inside : text <+: whole) : parseValue host parser 32 ('\x7b' :: text) =
      objectLoop parser (parseValue host parser 31) (text.length + 1) [] text :=
  (dispatch_object text).trans (parseObject_of_solid solid inside)

section CallCut
variable {host : Host F} {style : Style} {call : Call F} (plain : call.Plain)
include plain

theorem readsName (strings : Bool) :
    Reads host.fmt (settings strings) (parseValue host (settings strings) 31) (quoted call.name)
      (.string call.name) := by
  have text : quoted call.name = render host.fmt .compact (.string call.name) := by rw [render]
  rw [text]
  exact reads_value rfl (.string plain.name) (Nat.zero_le 31)

/-- Behind its name, a call shows its name and what is read of its arguments. -/
theorem parseValue_named (strings : Bool) {more : Text} (inside : more <+: call.argumentsText host.fmt style)
    (partly : more ≠ call.argumentsText host.fmt style) :
    ∃ seen, parseValue host (settings strings) 32 (call.nameText style ++ more) =
        (.ok (.object (("name".toList, .string call.name) :: seen)), []) ∧
      (strings = true → CutFields host.fmt [("arguments".toList, call.arguments)] seen) := by
  have read := parseString_quoted (settings strings) plainText_name
    (':' :: (style.afterColon ++ (quoted call.name ++ more)))
  have value : parseValue host (settings strings) 31
      (skipWhitespace (style.afterColon ++ (quoted call.name ++ more))) = (.ok (.string call.name), more) := by
    rw [(solid_quoted call.name more).skip_blank (afterColon_blank style)]
    exact (readsName plain strings).whole (.inl trivial)
  have text : call.nameText style ++ more =
      '\x7b' :: (quoted "name".toList ++ ':' :: (style.afterColon ++ (quoted call.name ++ more))) := by
    simp only [Call.nameText, cons_append, append_assoc]
  rw [text, parseValue_brace _ (solid_quoted _ _) prefix_rfl]
  cases more with
  | nil => exact ⟨[], objectLoop_end rfl read value, fun _ => .nothing _⟩
  | cons char more =>
    obtain ⟨rfl, behind⟩ := cons_prefix_cons.mp inside
    have field : Solid (renderFields host.fmt style [("arguments".toList, call.arguments)]) := by
      rw [renderFields]
      exact solid_quoted _ _
    obtain ⟨inner, short⟩ := field.skip_cut (afterComma_blank style) behind
      fun same => partly (by rw [Call.argumentsText, same])
    have enough : (skipWhitespace more).length <
        (quoted "name".toList ++ ':' :: (style.afterColon ++ (quoted call.name ++ ',' :: more))).length := by
      have size := skipWhitespace_length_le more
      simp only [length_append, length_cons]
      omega
    rw [objectLoop_comma read value (field.ne_close (.inr rfl) inner)]
    refine objectLoop_cut ?_ ?_ ?_ rfl (cons_ne_nil _ _) [("name".toList, .string call.name)] ?_ enough inner short
    · refine forall_mem_singleton.mpr (reads_value rfl plain.arguments ?_)
      have shallow := plain.shallow
      omega
    · exact forall_mem_singleton.mpr (solid_render plain.arguments _ _)
    · exact forall_mem_singleton.mpr plainText_arguments
    · exact pairwise_pair.mpr name_not_prefix

variable (host) in
/-- Within its name, a call shows no name. -/
theorem parseValue_unnamed {cut : Text} (nonempty : cut ≠ []) (inside : cut <+: call.nameText style)
    (partly : cut ≠ call.nameText style) :
    ∃ fields, parseValue host (settings false) 32 cut = (.ok (.object fields), []) ∧
      (fields = [] ∨ fields = [("name".toList, .null)]) := by
  obtain ⟨head, more, rfl⟩ := exists_cons_of_ne_nil nonempty
  obtain ⟨rfl, within⟩ := cons_prefix_cons.mp inside
  have short := fun same => partly (congrArg ('\x7b' :: ·) same)
  rw [parseValue_brace _ (solid_quoted _ _) within]
  rcases prefix_append_cases within with ⟨early, unfinished⟩ | ⟨rest, rfl, later⟩
  · -- the cut is within the key
    refine ⟨[], ?_, .inl rfl⟩
    rcases parseString_cut (settings_lenient false) plainText_name early unfinished with
      ⟨rfl, unread⟩ | ⟨-, shown, -, unread⟩
    · exact objectLoop_noKey rfl unread
    · exact objectLoop_noKey rfl unread
  · cases rest with
    | nil => exact ⟨_, objectLoop_noColon rfl (parseString_quoted _ plainText_name []), .inr rfl⟩
    | cons char rest =>
      obtain ⟨rfl, behind⟩ := cons_prefix_cons.mp later
      have read := parseString_quoted (settings false) plainText_name (':' :: rest)
      have name : Solid (quoted call.name) := ⟨_, _, rfl, by decide, by decide, by decide⟩
      obtain ⟨inner, less⟩ := name.skip_cut (afterColon_blank style) behind fun same => short (by rw [same])
      cases cut : skipWhitespace rest with
      | nil =>
        refine ⟨_, objectLoop_end rfl read ?_, .inr rfl⟩
        rw [cut]
        exact parseValue_nil rfl 31
      | cons quote shown =>
        rw [cut] at inner less
        obtain rfl : quote = '\x22' := (cons_prefix_cons.mp inner).1
        have unread : parseString (settings false) ('\x22' :: shown) = failed "Unterminated string" [] := by
          rcases parseString_cut (settings_lenient false) plain.name inner less with
            ⟨none, -⟩ | ⟨-, _, -, unread⟩
          · cases none
          · exact unread
        have value : parseValue host (settings false) 31 (skipWhitespace rest) = failed "Unterminated string" [] := by
          rw [cut]
          exact (dispatch_string shown).trans (by rw [unread]; rfl)
        exact ⟨[], objectLoop_noValue rfl read value, .inl rfl⟩

end CallCut

/-! ### Names and arguments of what is read -/

/-- The arguments of a call as they are compared. -/
def shownArguments (fmt : F → Text) (call : Value F) : Option Text :=
  (call.get "arguments".toList).map (serialize fmt)

theorem normalizeField_of_none (absent : (Value.object fields).get source = none) :
    normalizeField source target (.object fields) = .object fields := by
  unfold normalizeField
  rw [absent]
  split
  · rename_i copied
    cases copied
  · rfl

theorem normalizeNameField_named (name : Text) (seen : List (Text × Value F)) :
    normalizeNameField (.object (("name".toList, .string name) :: seen)) =
      .object (("name".toList, .string name) :: seen) :=
  rfl

theorem toolName_named (name : Text) (seen : List (Text × Value F)) :
    toolName (normalizeToolCallFields (.object (("name".toList, .string name) :: seen))) = some name := by
  rw [normalizeToolCallFields, normalizeNameField_named, normalizeArgumentsField]
  unfold normalizeField
  split
  · rename_i fields inner same _ _
    cases same
    rw [insertField]
    split <;> rfl
  · rfl

/-- Of a call that is cut in its arguments, no arguments are read or a view of them. -/
theorem arguments_cut {fmt : F → Text} (plain : call.Plain) {seen : List (Text × Value F)}
    (cut : CutFields fmt [("arguments".toList, call.arguments)] seen) :
    let read := normalizeToolCallFields (.object (("name".toList, .string call.name) :: seen))
    read.get "arguments".toList = none ∨ ∃ view, read.get "arguments".toList = some view ∧
        Seen fmt call.arguments (serialize fmt view) := by
  intro read
  cases cut with
  | nothing => exact .inl rfl
  | @key shown _ _ _ begun =>
    by_cases whole : shown = "arguments".toList
    · subst whole
      exact .inr ⟨.null, rfl, seen_null plain.arguments fmt⟩
    · have other : shown ≠ "parameters".toList := by
        rintro rfl
        revert begun
        decide
      have fields (key : Text) (differs : shown ≠ key) (name : "name".toList ≠ key) :
          (Value.object [("name".toList, Value.string (F := F) call.name), (shown, .null)]).get key = none := by
        rw [Value.get, find?_cons_of_neg (by simpa using name), find?_cons_of_neg (by simpa using differs)]
        rfl
      left
      have unchanged : read = .object [("name".toList, .string call.name), (shown, .null)] := by
        simp only [read]
        rw [normalizeToolCallFields, normalizeNameField_named]
        exact normalizeField_of_none (fields _ other (by decide))
      rw [unchanged]
      exact fields _ whole (by decide)
  | value _ _ view => exact .inr ⟨_, rfl, view⟩
  | later _ _ more =>
    cases more with
    | nothing => exact .inr ⟨_, rfl, (steady_seen call.arguments).whole_mem⟩

end ModelGateway.JsonToolParser
