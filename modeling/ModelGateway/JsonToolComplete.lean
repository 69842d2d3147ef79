import ModelGateway.JsonToolProofs

/-! The parser of complete answers on the text of an answer: the scan for the end of the JSON runs over
it to its last bracket, and every call is returned. -/
namespace ModelGateway.JsonToolParser
open Json PartialJson Utf8 List

variable {F : Type}

/-- An answer that calls tools: an array of calls, or one call. -/
inductive Answer (F : Type)
  | array (calls : List (Call F))
  | object (call : Call F)

def Answer.calls : Answer F → List (Call F)
  | .array calls => calls
  | .object call => [call]

def Answer.value : Answer F → Value F
  | .array calls => .array (calls.map Call.value)
  | .object call => call.value

def Answer.text (fmt : F → Text) (style : Style) (answer : Answer F) : Text :=
  render fmt style answer.value

/-! ### The scan for the end of the JSON -/

section Scan
variable (serde : Serde F)

/-- The state of the scan within brackets and outside strings. -/
abbrev within (opened : Char) (stack : List Char) (start : Nat) : Scan := ⟨false, false, opened :: stack, some start⟩

/-- The scan runs over a text within brackets and comes back to its state. -/
def Passes (text : Text) : Prop :=
  ∀ (whole rest : Text) (opened : Char) (stack : List Char) (start position : Nat),
    extractLoop serde whole (within opened stack start) position (text ++ rest) =
      extractLoop serde whole (within opened stack start) (position + text.length) rest

/-- A text up to the bracket that closes it. -/
def Closes (close : Char) (text : Text) : Prop := ∃ inner, text = inner ++ [close] ∧ Passes serde inner

variable {serde} {close opening : Char}

theorem Passes.nil : Passes serde [] := fun _ _ _ _ _ _ => rfl

theorem Passes.append {first second : Text} (left : Passes serde first) (right : Passes serde second) :
    Passes serde (first ++ second) := by
  intro whole rest opened stack start position
  rw [append_assoc, left, right, length_append, Nat.add_assoc]

theorem Passes.char {char : Char} (ordinary : char ∉ ['\x22', '\x7b', '[', '\x7d', ']']) : Passes serde [char] := by
  intro whole rest opened stack start position
  simp only [mem_cons, not_mem_nil, or_false, not_or] at ordinary
  obtain ⟨quote, brace, bracket, closeBrace, closeBracket⟩ := ordinary
  rw [singleton_append, extractLoop]
  simp only [Bool.false_eq_true, and_false, if_false, quote, brace, bracket, closeBrace, closeBracket, or_self]
  rfl

theorem Passes.chars {text : Text} (ordinary : ∀ char ∈ text, char ∉ ['\x22', '\x7b', '[', '\x7d', ']']) :
    Passes serde text := by
  induction text with
  | nil => exact .nil
  | cons char text ih =>
    obtain ⟨here, others⟩ := forall_mem_cons.mp ordinary
    exact (Passes.char here).append (ih others)

theorem extractLoop_escape {text : Text} (plain : PlainText text) (whole rest : Text) (stack : List Char)
    (start : Option Nat) (position : Nat) :
    extractLoop serde whole ⟨true, false, stack, start⟩ position (escape text ++ rest) =
      extractLoop serde whole ⟨true, false, stack, start⟩ (position + (escape text).length) rest := by
  induction text generalizing position with
  | nil => rfl
  | cons char text ih =>
    obtain ⟨here, others⟩ := forall_mem_cons.mp plain
    have later := ih others
    rw [escape, flatMap_cons, ← escape, append_assoc]
    rcases escapeChar_cases here with ⟨same, slash, quote⟩ | ⟨letter, same, -, -⟩
    · rw [same, singleton_append, extractLoop]
      simp only [Bool.false_eq_true, if_false, slash, false_and, quote, if_true]
      rw [later, singleton_append, length_cons, Nat.add_right_comm, Nat.add_assoc]
    · have skipped : extractLoop serde whole ⟨true, false, stack, start⟩ position
          ('\x5c' :: letter :: (escape text ++ rest)) =
            extractLoop serde whole ⟨true, false, stack, start⟩ (position + 2) (escape text ++ rest) := rfl
      rw [same, cons_append, singleton_append, skipped, later, cons_append, singleton_append,
        length_cons, length_cons]
      congr 1
      omega

theorem Passes.quoted {text : Text} (plain : PlainText text) : Passes serde (quoted text) := by
  intro whole rest opened stack start position
  rw [Json.quoted, cons_append, append_assoc, extractLoop]
  simp only [Bool.false_eq_true, if_false, and_false, if_true, Bool.not_false]
  rw [extractLoop_escape plain, singleton_append, extractLoop]
  simp only [Bool.false_eq_true, if_false, if_true, Bool.not_true, length_cons, length_append, length_nil]
  rw [if_neg (by decide)]
  congr 1
  omega

theorem Closes.last (close : Char) : Closes serde close [close] := ⟨[], rfl, .nil⟩

theorem Closes.append {first text : Text} (closes : Closes serde close text)
    (left : Passes serde first) : Closes serde close (first ++ text) := by
  obtain ⟨inner, rfl, passes⟩ := closes
  exact ⟨first ++ inner, (append_assoc _ _ _).symm, left.append passes⟩

/-- Two brackets that belong together. -/
def Pair (opening close : Char) : Prop := opening = '\x7b' ∧ close = '\x7d' ∨ opening = '[' ∧ close = ']'

theorem extractLoop_open (pair : Pair opening close) (whole rest : Text) (stack : List Char)
    (start : Option Nat) (position : Nat) :
    extractLoop serde whole ⟨false, false, stack, start⟩ position (opening :: rest) =
      extractLoop serde whole ⟨false, false, opening :: stack, start.or (some position)⟩ (position + 1) rest := by
  rcases pair with ⟨rfl, -⟩ | ⟨rfl, -⟩ <;> rfl

theorem Passes.brackets (pair : Pair opening close) {text : Text} (closes : Closes serde close text) :
    Passes serde (opening :: text) := by
  obtain ⟨inner, rfl, passes⟩ := closes
  intro whole rest opened stack start position
  rw [cons_append, append_assoc, extractLoop_open pair]
  have closed := passes whole ([close] ++ rest) opening (opened :: stack) start (position + 1)
  have after : extractLoop serde whole (within opening (opened :: stack) start) (position + 1 + inner.length)
      ([close] ++ rest) =
        extractLoop serde whole (within opened stack start) (position + 1 + inner.length + 1) rest := by
    rcases pair with ⟨rfl, rfl⟩ | ⟨rfl, rfl⟩ <;> rfl
  refine closed.trans (after.trans ?_)
  simp only [length_cons, length_append, length_nil]
  congr 1
  omega

theorem extractJsonFromText_closed (pair : Pair opening close) {text : Text}
    (closes : Closes serde close text) (valid : (serde.fromStr (opening :: text)).isSome = true) :
    extractJsonFromText serde (opening :: text) = some (opening :: text, []) := by
  obtain ⟨inner, rfl, passes⟩ := closes
  rw [extractJsonFromText, extractLoop_open pair]
  refine (passes _ [close] opening [] 0 (0 + 1)).trans ?_
  have size : (opening :: (inner ++ [close])).length ≤ 0 + 1 + inner.length + 1 := by
    simp only [length_cons, length_append, length_nil]
    omega
  have closed : extractLoop serde (opening :: (inner ++ [close])) (within opening [] 0) (0 + 1 + inner.length)
      [close] =
        let json := ((opening :: (inner ++ [close])).take (0 + 1 + inner.length + 1)).drop 0
        if (serde.fromStr json).isSome then
          some (json, (opening :: (inner ++ [close])).take 0 ++
            (opening :: (inner ++ [close])).drop (0 + 1 + inner.length + 1))
        else none := by
    rcases pair with ⟨rfl, rfl⟩ | ⟨rfl, rfl⟩ <;> rfl
  rw [closed, take_of_length_le size, drop_zero, drop_of_length_le size]
  simp only [valid, if_true]
  rfl

end Scan

/-! ### The scan over the text of a value -/

section Render
variable {serde : Serde F} {fmt : F → Text} {style : Style}

theorem Passes.blank {text : Text} (blank : ∀ char ∈ text, char ∈ [' ', '\x09', '\x0a', '\x0d']) :
    Passes serde text := by
  have ordinary : ∀ char ∈ [' ', '\x09', '\x0a', '\x0d'], char ∉ ['\x22', '\x7b', '[', '\x7d', ']'] :=
    forall_mem_of_all (by decide)
  exact .chars fun char mem => ordinary char (blank char mem)

theorem Passes.separator {text : Text} (separator : Char)
    (ordinary : separator ∉ ['\x22', '\x7b', '[', '\x7d', ']'])
    (blank : ∀ char ∈ text, char ∈ [' ', '\x09', '\x0a', '\x0d']) : Passes serde (separator :: text) :=
  (Passes.char ordinary).append (.blank blank)

theorem Passes.comma (style : Style) : Passes serde (',' :: style.afterComma) :=
  .separator ',' (by decide) fun char mem => style.blank char (mem_append_left _ mem)

theorem closes_items {items : List (Value F)} (each : ∀ item ∈ items, Passes serde (render fmt style item)) :
    Closes serde ']' (renderItems fmt style items) := by
  induction items with
  | nil =>
    rw [renderItems]
    exact .last _
  | cons first rest ih =>
    obtain ⟨here, others⟩ := forall_mem_cons.mp each
    have later := ih others
    rw [renderItems]
    refine Closes.append ?_ here
    cases rest with
    | nil =>
      rw [renderMoreItems]
      exact .last _
    | cons next rest =>
      rw [renderMoreItems_cons]
      exact later.append (.comma style)

theorem closes_fields {fields : List (Text × Value F)} (keys : ∀ field ∈ fields, PlainText field.1)
    (each : ∀ field ∈ fields, Passes serde (render fmt style field.2)) :
    Closes serde '\x7d' (renderFields fmt style fields) := by
  induction fields with
  | nil =>
    rw [renderFields]
    exact .last _
  | cons field rest ih =>
    obtain ⟨key, otherKeys⟩ := forall_mem_cons.mp keys
    obtain ⟨value, others⟩ := forall_mem_cons.mp each
    have later := ih otherKeys others
    rw [renderFields]
    refine Closes.append ?_ (.quoted key)
    rw [← cons_append]
    refine Closes.append ?_ (.separator ':' (by decide) fun char mem =>
      style.blank char (mem_append_right _ mem))
    refine Closes.append ?_ value
    cases rest with
    | nil =>
      rw [renderMoreFields]
      exact .last _
    | cons next rest =>
      rw [renderMoreFields_cons]
      exact later.append (.comma style)

theorem passes_intText (value : Int) : Passes serde (intText value) := by
  have digits : Passes serde (Nat.toDigits 10 value.natAbs) := by
    refine .chars fun char mem => ?_
    have digit := Nat.isDigit_of_mem_toDigits (by decide) (by decide) mem
    intro special
    have none : ∀ other ∈ ['\x22', '\x7b', '[', '\x7d', ']'], other.isDigit = false := forall_mem_of_all (by decide)
    rw [none char special] at digit
    cases digit
  rw [intText]
  split
  · exact (Passes.char (by decide)).append digits
  · exact digits

theorem passes_render {value : Value F} (plain : Plain value) : Passes serde (render fmt style value) := by
  induction plain with
  | null =>
    rw [render]
    exact .chars (forall_mem_of_all (by decide))
  | bool value =>
    rw [render]
    cases value <;> exact .chars (forall_mem_of_all (by decide))
  | int =>
    rw [render]
    exact passes_intText _
  | string plain =>
    rw [render]
    exact .quoted plain
  | array _ each =>
    rw [render]
    exact .brackets (.inr ⟨rfl, rfl⟩) (closes_items each)
  | object keys _ _ each =>
    rw [render]
    exact .brackets (.inl ⟨rfl, rfl⟩) (closes_fields keys each)

end Render

/-! ### Complete answers -/

theorem parseJsonValue_answer (fmt : F → Text) (answer : Answer F) : parseJsonValue fmt answer.value =
      answer.calls.map fun call => ⟨call.name, serialize fmt call.arguments⟩ := by
  cases answer with
  | array calls =>
    rw [Answer.value, parseJsonValue, filterMap_map, Answer.calls, ← filterMap_eq_map]
    rfl
  | object call => rfl

theorem parseComplete_answer {serde : Serde F} {fmt : F → Text} {style : Style} {answer : Answer F}
    (plain : ∀ call ∈ answer.calls, call.Plain)
    (valid : serde.fromStr (answer.text fmt style) = some answer.value) :
    parseComplete serde fmt (answer.text fmt style) =
      ([], answer.calls.map fun call => ⟨call.name, serialize fmt call.arguments⟩) := by
  have isSome : (serde.fromStr (answer.text fmt style)).isSome = true := by rw [valid]; rfl
  have found : extractJsonFromText serde (answer.text fmt style) = some (answer.text fmt style, []) := by
    cases answer with
    | array calls =>
      rw [Answer.text, Answer.value, render] at isSome ⊢
      refine extractJsonFromText_closed (.inr ⟨rfl, rfl⟩) (closes_items ?_) isSome
      exact forall_mem_map.mpr fun call among => passes_render (plain call among).value
    | object call =>
      have value := (plain call (mem_singleton.mpr rfl)).value
      cases value with
      | object keys _ each =>
        rw [Answer.text, Answer.value, Call.value, render] at isSome ⊢
        exact extractJsonFromText_closed (.inl ⟨rfl, rfl⟩)
          (closes_fields keys fun field mem => passes_render (each field mem)) isSome
  rw [parseComplete, found]
  simp only [valid, parseJsonValue_answer]

end ModelGateway.JsonToolParser
