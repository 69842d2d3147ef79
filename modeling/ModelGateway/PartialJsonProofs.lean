import ModelGateway.PartialJsonTokens

/-! The lenient JSON parser reads the text of a value back, and gives a view of the value for a text
that is cut anywhere. -/
namespace ModelGateway.PartialJson
open Json List Nat

variable {F : Type} {fmt : F → Text} {text cut : Text}

/-- A value whose text is read back from every cut: integers of 64 bits as its only numbers, no unicode
escapes, and no key of an object that begins a later one. -/
inductive Plain : Value F → Prop
  | null : Plain .null
  | bool (value : Bool) : Plain (.bool value)
  | int {value : Int} : Fits value → Plain (.int value)
  | string {text : Text} : PlainText text → Plain (.string text)
  | array {items : List (Value F)} : (∀ item ∈ items, Plain item) → Plain (.array items)
  | object {fields : List (Text × Value F)} : (∀ field ∈ fields, PlainText field.1) →
      fields.Pairwise (fun earlier later => ¬ earlier.1 <+: later.1) → (∀ field ∈ fields, Plain field.2) →
      Plain (.object fields)

/-- Values whose text says where it ends. -/
def Closed : Value F → Prop
  | .string _ | .array _ | .object _ => True
  | _ => False

/-- What a parse function makes of the text of a value. -/
structure Reads (fmt : F → Text) (parser : Parser) (parse : Text → Parsed (Value F)) (text : Text)
    (value : Value F) : Prop where
  whole : ∀ {rest : Text}, Closed value ∨ Ends rest → parse (text ++ rest) = (.ok value, rest)
  cut : ∀ {cut : Text}, cut <+: text → cut ≠ text → (parse cut).2 = [] ∧ (parser.allowPartialStrings = true →
      ∃ seen, (parse cut).1 = .ok seen ∧ Seen fmt value (serialize fmt seen))

theorem Reads.cut_cases {parser : Parser} {parse : Text → Parsed (Value F)} {value : Value F}
    (reads : Reads fmt parser parse text value) (inside : cut <+: text) (partly : cut ≠ text) :
    (∃ seen, parse cut = (.ok seen, []) ∧
      (parser.allowPartialStrings = true → Seen fmt value (serialize fmt seen))) ∨
    parser.allowPartialStrings ≠ true ∧ ∃ error, parse cut = (.error error, []) := by
  obtain ⟨left, view⟩ := reads.cut inside partly
  cases result : (parse cut).1 with
  | ok seen =>
    refine .inl ⟨seen, Prod.ext result left, fun strings => ?_⟩
    obtain ⟨_, read, shown⟩ := view strings
    cases result.symm.trans read
    exact shown
  | error error =>
    refine .inr ⟨fun strings => ?_, error, Prod.ext result left⟩
    obtain ⟨_, read, -⟩ := view strings
    cases result.symm.trans read

/-! ### Arrays -/

section Array
variable {parser : Parser} {parse : Text → Parsed (Value F)} {rounds : Nat} {items : List (Value F)}
  {value : Value F} {text rest more : Text}

theorem arrayLoop_error (lenient : parser.allowIncomplete = true) {error : ParserError}
    (read : parse text = (.error error, rest)) :
    arrayLoop parser parse (rounds + 1) items text = (.ok (.array items), rest) := by
  rw [arrayLoop, read]
  simp only [lenient, if_true]

theorem arrayLoop_end (lenient : parser.allowIncomplete = true) (read : parse text = (.ok value, [])) :
    arrayLoop parser parse (rounds + 1) items text = (.ok (.array (items ++ [value])), []) := by
  rw [arrayLoop, read]
  simp only [skipWhitespace, dropWhile_nil, lenient, if_true]

theorem arrayLoop_close (read : parse text = (.ok value, ']' :: rest)) :
    arrayLoop parser parse (rounds + 1) items text = (.ok (.array (items ++ [value])), rest) := by
  rw [arrayLoop, read]
  simp only [skipWhitespace_of_head rest (show isWhitespace ']' = false by decide)]

theorem arrayLoop_comma (read : parse text = (.ok value, ',' :: rest))
    (goes : ∀ more, skipWhitespace rest ≠ ']' :: more) :
    arrayLoop parser parse (rounds + 1) items text =
      arrayLoop parser parse rounds (items ++ [value]) (skipWhitespace rest) := by
  rw [arrayLoop, read]
  simp only [skipWhitespace_of_head rest (show isWhitespace ',' = false by decide)]

end Array

/-- A text that begins with neither whitespace nor a closing bracket or brace. -/
def Solid (text : Text) : Prop :=
  ∃ char more, text = char :: more ∧ isWhitespace char = false ∧ char ≠ ']' ∧ char ≠ '\x7d'

variable {text blank cut rest : Text} {value : Value F} {host : Host F} {parser : Parser}
  {parse : Text → Parsed (Value F)} {style : Style} {done fields : List (Text × Value F)}

theorem Solid.append (solid : Solid text) (rest : Text) : Solid (text ++ rest) := by
  obtain ⟨char, more, rfl, visible, bracket, brace⟩ := solid
  exact ⟨char, more ++ rest, rfl, visible, bracket, brace⟩

theorem Solid.skip (solid : Solid text) : skipWhitespace text = text := by
  obtain ⟨char, more, rfl, visible, -⟩ := solid
  exact skipWhitespace_of_head more visible

theorem Solid.skip_blank (solid : Solid text) (only : ∀ char ∈ blank, isWhitespace char = true) :
    skipWhitespace (blank ++ text) = text := by
  rw [skipWhitespace_blank text only, solid.skip]

theorem Solid.skip_cut (solid : Solid text) (only : ∀ char ∈ blank, isWhitespace char = true)
    (inside : cut <+: blank ++ text) (partly : cut ≠ blank ++ text) :
    skipWhitespace cut <+: text ∧ skipWhitespace cut ≠ text := by
  obtain ⟨char, more, rfl, visible, -⟩ := solid
  have skipped := skipWhitespace_prefix only visible inside
  exact ⟨skipped.1, skipped.2 partly⟩

theorem Solid.ne_close {close : Char} (closes : close = ']' ∨ close = '\x7d') (solid : Solid text)
    (inside : cut <+: text) (more : Text) : cut ≠ close :: more := by
  rintro rfl
  obtain ⟨char, rest, rfl, -, apart⟩ := solid
  obtain rfl := (cons_prefix_cons.mp inside).1
  exact closes.elim apart.1 apart.2

theorem solid_items (solid : Solid (render fmt style value)) (others : List (Value F)) :
    Solid (renderItems fmt style (value :: others)) := by
  rw [renderItems]
  exact solid.append _

theorem solid_quoted (key rest : Text) : Solid (quoted key ++ rest) := ⟨_, _, rfl, by decide, by decide, by decide⟩

theorem solid_fields (fmt : F → Text) (style : Style) (first : Text × Value F)
    (others : List (Text × Value F)) : Solid (renderFields fmt style (first :: others)) := by
  rw [renderFields]
  exact solid_quoted _ _

theorem Ends.cons {char : Char} (closes : char = ',' ∨ char = ']' ∨ char = '\x7d') (rest : Text) :
    Ends (char :: rest) := by
  intro other more same
  rw [← (List.cons.inj same).1]
  exact closes

theorem skipWhitespace_length_le (text : Text) : (skipWhitespace text).length ≤ text.length :=
  (dropWhile_sublist _).length_le

section Items
variable {fmt : F → Text} {parser : Parser} {parse : Text → Parsed (Value F)} {style : Style}
  {items : List (Value F)}
  (each : ∀ item ∈ items, Reads fmt parser parse (render fmt style item) item)
  (solid : ∀ item ∈ items, Solid (render fmt style item))
include each solid

variable {rounds : Nat}

theorem arrayLoop_whole (some : items ≠ []) {done : List (Value F)}
    (enough : (renderItems fmt style items ++ rest).length < rounds) :
    arrayLoop parser parse rounds done (renderItems fmt style items ++ rest) =
      (.ok (.array (done ++ items)), rest) := by
  induction items generalizing done rounds with
  | nil => exact absurd rfl some
  | cons first others ih =>
    obtain ⟨rounds, rfl⟩ : ∃ fewer, rounds = fewer + 1 := ⟨rounds - 1, by omega⟩
    obtain ⟨here, each⟩ := forall_mem_cons.mp each
    replace solid := (forall_mem_cons.mp solid).2
    rw [renderItems, append_assoc] at enough ⊢
    cases others with
    | nil =>
      rw [renderMoreItems, singleton_append]
      exact arrayLoop_close (here.whole (.inr (.cons (.inr (.inl rfl)) rest)))
    | cons next others =>
      rw [renderMoreItems_cons, cons_append, append_assoc] at enough ⊢
      have more := (solid_items (solid next mem_cons_self) others).append rest
      have skipped := more.skip_blank (afterComma_blank style)
      rw [arrayLoop_comma (here.whole (.inr (.cons (.inl rfl) _)))
        (by rw [skipped]; exact more.ne_close (.inl rfl) prefix_rfl), skipped,
        ih each solid (cons_ne_nil _ _), append_assoc, singleton_append]
      simp only [length_append, length_cons] at enough ⊢
      omega

theorem arrayLoop_cut (lenient : parser.allowIncomplete = true) (some : items ≠ [])
    (done : List (Value F)) (enough : cut.length < rounds)
    (inside : cut <+: renderItems fmt style items)
    (partly : cut ≠ renderItems fmt style items) :
    (arrayLoop parser parse rounds done cut).2 = [] ∧ (parser.allowPartialStrings = true →
      ∃ seen, seen ≠ [] ∧ (arrayLoop parser parse rounds done cut).1 = .ok (.array (done ++ seen)) ∧
        SeenItems fmt items (renderItems fmt .compact seen)) := by
  induction items generalizing done rounds cut with
  | nil => exact absurd rfl some
  | cons first others ih =>
    obtain ⟨rounds, rfl⟩ : ∃ fewer, rounds = fewer + 1 := ⟨rounds - 1, by omega⟩
    obtain ⟨here, each⟩ := forall_mem_cons.mp each
    replace solid := (forall_mem_cons.mp solid).2
    rw [renderItems] at inside partly
    rcases prefix_append_cases inside with ⟨early, short⟩ | ⟨more, rfl, later⟩
    · -- the cut is within the first item
      rcases here.cut_cases early short with ⟨value, read, view⟩ | ⟨whole, error, read⟩
      · rw [arrayLoop_end lenient read]
        exact ⟨rfl, fun strings => ⟨[value], by simp, rfl, .inl ⟨_, view strings, rfl⟩⟩⟩
      · rw [arrayLoop_error lenient read]
        exact ⟨rfl, fun strings => absurd strings whole⟩
    · cases more with
      | nil =>
        rw [arrayLoop_end lenient (here.whole (.inr .nil))]
        exact ⟨rfl, fun _ => ⟨[first], by simp, rfl, .inl ⟨_, (steady_seen first).whole_mem, rfl⟩⟩⟩
      | cons char more =>
        cases others with
        | nil =>
          rw [renderMoreItems] at later partly
          obtain ⟨rfl, none⟩ := cons_prefix_cons.mp later
          rw [prefix_nil.mp none] at partly
          exact absurd rfl partly
        | cons next others =>
          rw [renderMoreItems_cons] at later partly
          obtain ⟨rfl, begun⟩ := cons_prefix_cons.mp later
          have front := solid_items (solid next mem_cons_self) others
          obtain ⟨within, short⟩ := front.skip_cut (afterComma_blank style) begun fun same => partly (by rw [same])
          have size := skipWhitespace_length_le more
          rw [length_append, length_cons] at enough
          rw [arrayLoop_comma (here.whole (.inr (.cons (.inl rfl) _))) (front.ne_close (.inl rfl) within)]
          obtain ⟨left, view⟩ := ih each solid (cons_ne_nil _ _) (done ++ [first])
            (show (skipWhitespace more).length < rounds by omega) within short
          refine ⟨left, fun strings => ?_⟩
          obtain ⟨seen, nonempty, read, shown⟩ := view strings
          refine ⟨first :: seen, cons_ne_nil _ _, ?_, .inr ⟨cons_ne_nil _ _, _, shown, ?_⟩⟩
          · rw [read, append_assoc, singleton_append]
          · obtain ⟨head, tail, rfl⟩ := exists_cons_of_ne_nil nonempty
            rw [renderItems, renderMoreItems_cons]
            rfl

end Items

/-! ### Objects -/

section Object
variable {parser : Parser} {parse : Text → Parsed (Value F)} {rounds : Nat}
  {fields : List (Text × Value F)} {key : Text} {value : Value F} {text rest left : Text}

variable {error : ParserError}

variable (lenient : parser.allowIncomplete = true)
include lenient

theorem objectLoop_noKey (read : parseString parser text = (.error error, rest)) :
    objectLoop parser parse (rounds + 1) fields text = (.ok (.object fields), rest) := by
  rw [objectLoop, read]
  simp only [lenient, if_true]

theorem objectLoop_noColon (read : parseString parser text = (.ok key, [])) :
    objectLoop parser parse (rounds + 1) fields text = (.ok (.object (insertField fields key .null)), []) := by
  rw [objectLoop, read]
  simp only [skipWhitespace, dropWhile_nil, lenient, if_true]

omit lenient in
theorem skip_colon (rest : Text) : skipWhitespace (':' :: rest) = ':' :: rest :=
  skipWhitespace_of_head rest (by decide)

variable (read : parseString parser text = (.ok key, ':' :: rest))
include read

theorem objectLoop_noValue (unread : parse (skipWhitespace rest) = (.error error, left)) :
    objectLoop parser parse (rounds + 1) fields text =
      (.ok (.object (if parser.allowPartialStrings then insertField fields key .null else fields)), left) := by
  rw [objectLoop, read]
  simp only [skip_colon, unread, lenient, if_true]
  split <;> rfl

theorem objectLoop_end (seen : parse (skipWhitespace rest) = (.ok value, [])) :
    objectLoop parser parse (rounds + 1) fields text = (.ok (.object (insertField fields key value)), []) := by
  rw [objectLoop, read]
  simp only [skip_colon, seen]
  simp only [skipWhitespace, dropWhile_nil, lenient, if_true]

omit lenient

theorem objectLoop_close (seen : parse (skipWhitespace rest) = (.ok value, '\x7d' :: left)) :
    objectLoop parser parse (rounds + 1) fields text = (.ok (.object (insertField fields key value)), left) := by
  rw [objectLoop, read]
  simp only [skip_colon, seen, skipWhitespace_of_head left (show isWhitespace '\x7d' = false by decide)]

theorem objectLoop_comma (seen : parse (skipWhitespace rest) = (.ok value, ',' :: left))
    (goes : ∀ more, skipWhitespace left ≠ '\x7d' :: more) :
    objectLoop parser parse (rounds + 1) fields text =
      objectLoop parser parse rounds (insertField fields key value) (skipWhitespace left) := by
  rw [objectLoop, read]
  simp only [skip_colon, seen, skipWhitespace_of_head left (show isWhitespace ',' = false by decide)]

end Object

theorem insertField_of_free {key shown : Text} (free : ∀ field ∈ done, ¬ field.1 <+: key)
    (begun : shown <+: key) : insertField done shown value = done ++ [(shown, value)] := by
  refine insertField_of_fresh fun field inside same => free field inside ?_
  rw [same]
  exact begun

/-- What is read of the fields of an object that is cut: all of them up to one, and of that one nothing,
a beginning of its key or a view of its value. -/
inductive CutFields (fmt : F → Text) : List (Text × Value F) → List (Text × Value F) → Prop
  | nothing (fields : List (Text × Value F)) : CutFields fmt fields []
  | key {shown key : Text} (value : Value F) (rest : List (Text × Value F)) : shown <+: key →
      CutFields fmt ((key, value) :: rest) [(shown, .null)]
  | value (key : Text) {value seen : Value F} (rest : List (Text × Value F)) :
      Seen fmt value (serialize fmt seen) →
      CutFields fmt ((key, value) :: rest) [(key, seen)]
  | later (key : Text) (value : Value F) {rest seen : List (Text × Value F)} :
      CutFields fmt rest seen → CutFields fmt ((key, value) :: rest) ((key, value) :: seen)

theorem CutFields.seen {seen : List (Text × Value F)} (cut : CutFields fmt fields seen)
    (nulls : ∀ field ∈ fields, Seen fmt field.2 "null".toList) :
    SeenFields fmt fields (renderFields fmt .compact seen) := by
  induction cut with
  | nothing fields =>
    cases fields with
    | nil => rfl
    | cons first rest => exact .inl rfl
  | @key shown key value rest begun =>
    by_cases whole : shown = key
    · subst whole
      exact .inr (.inr ⟨_, .inl ⟨_, nulls (shown, value) mem_cons_self, rfl⟩, rfl⟩)
    · exact .inr (.inl ⟨shown, begun, whole, rfl⟩)
  | value key rest view => exact .inr (.inr ⟨_, .inl ⟨_, view, rfl⟩, rfl⟩)
  | @later key value rest seen cut ih =>
    cases cut with
    | nothing => exact .inr (.inr ⟨_, .inl ⟨_, (steady_seen value).whole_mem, rfl⟩, rfl⟩)
    | _ =>
      refine .inr (.inr ⟨_, .inr ⟨cons_ne_nil _ _, _,
        ih fun field inside => nulls field (mem_cons_of_mem _ inside), rfl⟩, ?_⟩)
      rw [renderFields, renderMoreFields_cons]
      rfl

section Fields
variable {fmt : F → Text} {parser : Parser} {parse : Text → Parsed (Value F)} {style : Style}
  {fields : List (Text × Value F)}
  (each : ∀ field ∈ fields, Reads fmt parser parse (render fmt style field.2) field.2)
  (solid : ∀ field ∈ fields, Solid (render fmt style field.2))
  (plain : ∀ field ∈ fields, PlainText field.1)
include each solid plain

variable {rounds : Nat}

theorem objectLoop_whole (some : fields ≠ [])
    (free : (done ++ fields).Pairwise fun earlier later => ¬ earlier.1 <+: later.1)
    (enough : (renderFields fmt style fields ++ rest).length < rounds) :
    objectLoop parser parse rounds done (renderFields fmt style fields ++ rest) =
      (.ok (.object (done ++ fields)), rest) := by
  induction fields generalizing done rounds with
  | nil => exact absurd rfl some
  | cons first others ih =>
    obtain ⟨key, value⟩ := first
    obtain ⟨rounds, rfl⟩ : ∃ fewer, rounds = fewer + 1 := ⟨rounds - 1, by omega⟩
    obtain ⟨here, each⟩ := forall_mem_cons.mp each
    obtain ⟨front, solid⟩ := forall_mem_cons.mp solid
    obtain ⟨name, plain⟩ := forall_mem_cons.mp plain
    have read (rest : Text) : parseString parser (quoted key ++ rest) = (.ok key, rest) :=
      parseString_quoted parser name rest
    have seen {left : Text} (ends : Ends left) :
        parse (skipWhitespace (style.afterColon ++ (render fmt style value ++ left))) = (.ok value, left) := by
      rw [(front.append left).skip_blank (afterColon_blank style)]
      exact here.whole (.inr ends)
    have fresh : insertField done key value = done ++ [(key, value)] := insertField_of_free (fun field inside =>
        (pairwise_append.mp free).2.2 field inside (key, value) mem_cons_self) prefix_rfl
    rw [renderFields, append_assoc, cons_append, append_assoc, append_assoc] at enough ⊢
    cases others with
    | nil =>
      rw [renderMoreFields, singleton_append, objectLoop_close (read _) (seen (.cons (.inr (.inr rfl)) rest)), fresh]
    | cons next others =>
      rw [renderMoreFields_cons, cons_append, append_assoc] at enough ⊢
      have more := (solid_fields fmt style next others).append rest
      have skipped := more.skip_blank (afterComma_blank style)
      rw [objectLoop_comma (read _) (seen (.cons (.inl rfl) _))
        (by rw [skipped]; exact more.ne_close (.inr rfl) prefix_rfl), skipped, fresh,
        ih each solid plain (cons_ne_nil _ _), append_assoc, singleton_append]
      · rw [append_assoc]
        exact free
      · simp only [length_append, length_cons] at enough ⊢
        omega

/-- The fields of an object that is cut: all up to one, and a beginning of that one. -/
theorem objectLoop_cut (lenient : parser.allowIncomplete = true) (some : fields ≠ []) (done : List (Text × Value F))
    (free : (done ++ fields).Pairwise fun earlier later => ¬ earlier.1 <+: later.1)
    (enough : cut.length < rounds) (inside : cut <+: renderFields fmt style fields)
    (partly : cut ≠ renderFields fmt style fields) :
    ∃ seen, objectLoop parser parse rounds done cut = (.ok (.object (done ++ seen)), []) ∧
      (parser.allowPartialStrings = true → CutFields fmt fields seen) := by
  induction fields generalizing done rounds cut with
  | nil => exact absurd rfl some
  | cons first others ih =>
    obtain ⟨key, value⟩ := first
    obtain ⟨rounds, rfl⟩ : ∃ fewer, rounds = fewer + 1 := ⟨rounds - 1, by omega⟩
    obtain ⟨here, each⟩ := forall_mem_cons.mp each
    obtain ⟨front, solid⟩ := forall_mem_cons.mp solid
    obtain ⟨name, plain⟩ := forall_mem_cons.mp plain
    have fresh {shown : Text} {value' : Value F} (begun : shown <+: key) :
        insertField done shown value' = done ++ [(shown, value')] :=
      insertField_of_free (fun field inside =>
        (pairwise_append.mp free).2.2 field inside (key, value) mem_cons_self) begun
    rw [renderFields] at inside partly
    rcases prefix_append_cases inside with ⟨early, short⟩ | ⟨more, rfl, later⟩
    · -- the cut is within the key
      rcases parseString_cut lenient name early short with ⟨rfl, unread⟩ | ⟨-, shown, begun, unread⟩
      · refine ⟨[], ?_, fun _ => .nothing _⟩
        rw [objectLoop_noKey lenient unread, append_nil]
      · cases strings : parser.allowPartialStrings with
        | false =>
          rw [unterminated, strings] at unread
          refine ⟨[], ?_, fun on => absurd on Bool.false_ne_true⟩
          rw [objectLoop_noKey lenient unread, append_nil]
        | true =>
          rw [unterminated, strings] at unread
          refine ⟨[(shown, .null)], ?_, fun _ => .key value others begun⟩
          rw [objectLoop_noColon lenient unread, fresh begun]
    · cases more with
      | nil =>
        refine ⟨[(key, .null)], ?_, fun _ => .key value others prefix_rfl⟩
        rw [objectLoop_noColon lenient (parseString_quoted parser name []), fresh prefix_rfl]
      | cons char more =>
        obtain ⟨rfl, behind⟩ := cons_prefix_cons.mp later
        have read := parseString_quoted parser name (':' :: more)
        obtain ⟨within, short⟩ := (front.append _).skip_cut (afterColon_blank style) behind
          fun same => partly (by rw [same])
        rcases prefix_append_cases within with ⟨early, unfinished⟩ | ⟨last, all, goes⟩
        · -- the cut is within the value
          rcases here.cut_cases early unfinished with ⟨seen, ok, view⟩ | ⟨whole, error, unread⟩
          · refine ⟨[(key, seen)], ?_, fun strings => .value key others (view strings)⟩
            rw [objectLoop_end lenient read ok, fresh prefix_rfl]
          · refine ⟨[], ?_, fun strings => absurd strings whole⟩
            rw [objectLoop_noValue lenient read unread, append_nil, if_neg whole]
        · cases last with
          | nil =>
            refine ⟨[(key, value)], ?_, fun _ => .value key others (steady_seen value).whole_mem⟩
            rw [objectLoop_end lenient read (by rw [all]; exact here.whole (.inr .nil)), fresh prefix_rfl]
          | cons char last =>
            cases others with
            | nil =>
              rw [renderMoreFields] at goes short
              obtain ⟨rfl, none⟩ := cons_prefix_cons.mp goes
              rw [all, prefix_nil.mp none] at short
              exact absurd rfl short
            | cons next others =>
              rw [renderMoreFields_cons] at goes short
              obtain ⟨rfl, begun⟩ := cons_prefix_cons.mp goes
              have field := solid_fields fmt style next others
              obtain ⟨inner, less⟩ := field.skip_cut (afterComma_blank style) begun
                fun same => short (by rw [all, same])
              have size : (skipWhitespace last).length < rounds := by
                have first := skipWhitespace_length_le last
                have second := skipWhitespace_length_le more
                rw [all] at second
                simp only [length_append, length_cons] at enough second
                omega
              obtain ⟨seen, rest, view⟩ := ih each solid plain (cons_ne_nil _ _)
                (done ++ [(key, value)]) (by rw [append_assoc]; exact free) size inner less
              refine ⟨(key, value) :: seen, ?_, fun strings => .later key value (view strings)⟩
              rw [objectLoop_comma read (by rw [all]; exact here.whole (.inr (.cons (.inl rfl) _)))
                (field.ne_close (.inr rfl) inner), fresh prefix_rfl, rest, append_assoc,
                singleton_append]

end Fields

/-! ### Values -/

section Dispatch
variable {host : Host F} {parser : Parser} {object array : Text → Parsed (Value F)}

theorem dispatch_blank (lenient : parser.allowIncomplete = true) (blank : skipWhitespace text = []) :
    dispatch host parser object array text = (.ok .null, []) := by
  simp only [dispatch, blank, lenient, if_true]

theorem dispatch_nil (lenient : parser.allowIncomplete = true) :
    dispatch host parser object array [] = (.ok .null, []) :=
  dispatch_blank lenient rfl

variable (rest : Text)

theorem dispatch_object : dispatch host parser object array ('\x7b' :: rest) = object rest := by
  rw [dispatch, skipWhitespace_of_head rest (by decide)]
  rfl

theorem dispatch_array : dispatch host parser object array ('[' :: rest) = array rest := by
  rw [dispatch, skipWhitespace_of_head rest (by decide)]
  rfl

theorem dispatch_string : dispatch host parser object array ('\x22' :: rest) =
    ((parseString parser ('\x22' :: rest)).1.map Value.string, (parseString parser ('\x22' :: rest)).2) := by
  rw [dispatch, skipWhitespace_of_head rest (by decide)]
  rfl

theorem dispatch_null : dispatch host parser object array ('n' :: rest) = parseNull host parser ('n' :: rest) := by
  rw [dispatch, skipWhitespace_of_head rest (by decide)]
  rfl

variable {char : Char}

theorem isWhitespace_digit (digit : char.isDigit = true) : isWhitespace char = false := by
  have bounds : 48 ≤ char.toNat ∧ char.toNat ≤ 57 := by
    simpa [Char.isDigit, UInt32.le_iff_toNat_le] using digit
  simp [isWhitespace]
  omega

theorem dispatch_number (number : char = '-' ∨ char.isDigit = true) (rest : Text) :
    dispatch host parser object array (char :: rest) = parseNumber host parser (char :: rest) := by
  have visible : isWhitespace char = false := by
    rcases number with rfl | digit
    · decide
    · exact isWhitespace_digit digit
  have other {letter : Char} (sign : letter ≠ '-') (not : letter.isDigit = false) : char ≠ letter := by
    rintro rfl
    rcases number with rfl | digit
    · exact sign rfl
    · rw [not] at digit
      cases digit
  rw [dispatch, skipWhitespace_of_head rest visible]
  simp only
  rw [if_neg (other (by decide) (by decide)), if_neg (other (by decide) (by decide)),
    if_neg (other (by decide) (by decide)),
    if_neg (not_or.mpr ⟨other (by decide) (by decide), other (by decide) (by decide)⟩),
    if_neg (other (by decide) (by decide)), if_pos number]

end Dispatch

theorem solid_render (plain : Plain value) (fmt : F → Text) (style : Style) :
    Solid (render fmt style value) := by
  cases plain with
  | null | string | array | object => exact ⟨_, _, rfl, by decide, by decide, by decide⟩
  | bool value => cases value <;> exact ⟨_, _, rfl, by decide, by decide, by decide⟩
  | int fits =>
    rename_i value
    obtain ⟨head, more, text, kind⟩ := intText_head value
    refine ⟨head, more, text, ?_⟩
    rcases kind with digit | ⟨-, rfl⟩
    · refine ⟨isWhitespace_digit digit, ?_, ?_⟩ <;> rintro rfl <;> revert digit <;> decide
    · decide

theorem seen_null (plain : Plain value) (fmt : F → Text) : Seen fmt value "null".toList := by
  cases plain with
  | null => rfl
  | bool | int | string | array | object => exact .inl rfl

theorem Solid.skip_prefix (solid : Solid text) (inside : cut <+: text) : skipWhitespace cut = cut := by
  cases cut with
  | nil => rfl
  | cons head more =>
    obtain ⟨char, rest, rfl, visible, -⟩ := solid
    obtain ⟨rfl, -⟩ := cons_prefix_cons.mp inside
    exact skipWhitespace_of_head more visible

theorem parseArray_of_solid (solid : Solid text) (inside : cut <+: text) :
    parseArray parser parse cut = arrayLoop parser parse (cut.length + 1) [] cut := by
  have front := solid.ne_close (.inl rfl) inside
  rw [parseArray, solid.skip_prefix inside]
  split
  · rename_i more
    exact absurd rfl (front more)
  · rfl

theorem parseObject_of_solid (solid : Solid text) (inside : cut <+: text) :
    parseObject parser parse cut = objectLoop parser parse (cut.length + 1) [] cut := by
  have front := solid.ne_close (.inr rfl) inside
  rw [parseObject, solid.skip_prefix inside]
  split
  · rename_i more
    exact absurd rfl (front more)
  · rfl

variable (lenient : parser.allowIncomplete = true) {object array other : Text → Parsed (Value F)}
include lenient

theorem reads_of_dispatch (plain : Plain value)
    (whole : ∀ {rest : Text}, Closed value ∨ Ends rest →
      dispatch host parser object array (text ++ rest) = (.ok value, rest))
    (cut : ∀ {head : Char} {more : Text}, head :: more <+: text → head :: more ≠ text →
      (dispatch host parser object array (head :: more)).2 = [] ∧ (parser.allowPartialStrings = true →
        ∃ seen, (dispatch host parser object array (head :: more)).1 = .ok seen ∧
          Seen host.fmt value (serialize host.fmt seen))) :
    Reads host.fmt parser (dispatch host parser object array) text value := by
  refine ⟨whole, fun {part} inside partly => ?_⟩
  cases part with
  | nil =>
    rw [dispatch_nil lenient]
    exact ⟨rfl, fun _ => ⟨.null, rfl, seen_null plain host.fmt⟩⟩
  | cons head more => exact cut inside partly

theorem reads_null : Reads host.fmt parser (dispatch host parser object array)
    (render host.fmt style .null) .null := by
  refine reads_of_dispatch lenient .null (fun ends => ?_) (fun {head more} inside _ => ?_)
  · exact (dispatch_null _).trans (parseNull_word host lenient prefix_rfl (ends.resolve_left id))
  · have read := parseNull_word host lenient inside .nil
    obtain rfl : head = 'n' := (cons_prefix_cons.mp inside).1
    rw [append_nil] at read
    rw [dispatch_null, read]
    exact ⟨rfl, fun _ => ⟨.null, rfl, rfl⟩⟩

theorem reads_bool (value : Bool) : Reads host.fmt parser (dispatch host parser object array)
    (render host.fmt style (.bool value)) (.bool value) := by
  have dispatched {head : Char} {more rest : Text}
      (inside : head :: more <+: if value then "true".toList else "false".toList) (ends : Ends rest) :
      dispatch host parser object array (head :: more ++ rest) = (.ok (.bool value), rest) := by
    rw [← parseBool_word host lenient value (cons_ne_nil _ _) inside ends]
    cases value with
    | true =>
      obtain rfl : head = 't' := (cons_prefix_cons.mp inside).1
      rw [cons_append, dispatch, skipWhitespace_of_head _ (by decide)]
      rfl
    | false =>
      obtain rfl : head = 'f' := (cons_prefix_cons.mp inside).1
      rw [cons_append, dispatch, skipWhitespace_of_head _ (by decide)]
      rfl
  rw [render]
  refine reads_of_dispatch lenient (.bool value) (fun ends => ?_) (fun inside _ => ?_)
  · cases value <;> exact dispatched prefix_rfl (ends.resolve_left id)
  · have read := dispatched inside .nil
    rw [append_nil] at read
    rw [read]
    exact ⟨rfl, fun _ => ⟨.bool value, rfl, .inr rfl⟩⟩

theorem reads_int {value : Int} (fits : Fits value) : Reads host.fmt parser (dispatch host parser object array)
      (render host.fmt style (.int value)) (.int value) := by
  have dispatched {other : Int} (small : Fits other) {rest : Text} (ends : Ends rest) :
      dispatch host parser object array (intText other ++ rest) = (.ok (.int other), rest) := by
    rw [← parseNumber_intText host parser small ends]
    obtain ⟨head, more, text, kind⟩ := intText_head other
    rw [text, cons_append]
    exact dispatch_number (kind.symm.imp_left And.right) _
  rw [render]
  refine reads_of_dispatch lenient (.int fits) (fun ends => dispatched fits (ends.resolve_left id))
    (fun {head more} inside _ => ?_)
  have nonempty := cons_ne_nil head more
  rcases prefix_intText fits inside nonempty with ⟨sign, negative⟩ | ⟨smaller, shown, small⟩
  · rw [sign, dispatch_number (.inl rfl), parseNumber_sign host lenient]
    exact ⟨rfl, fun _ => ⟨.int 0, rfl, .inr (.inl ⟨rfl, negative⟩)⟩⟩
  · have read := dispatched small .nil
    rw [append_nil, ← shown] at read
    rw [shown] at nonempty inside
    rw [read]
    exact ⟨rfl, fun _ => ⟨.int smaller, rfl, .inr (.inr ⟨nonempty, inside⟩)⟩⟩

theorem reads_string (plain : PlainText text) : Reads host.fmt parser (dispatch host parser object array)
      (render host.fmt style (.string text)) (.string text) := by
  rw [render]
  refine reads_of_dispatch lenient (.string plain) (fun {rest} _ => ?_) (fun {head more} inside partly => ?_)
  · have read := parseString_quoted parser plain rest
    rw [quoted, cons_append] at read ⊢
    rw [dispatch_string, read]
    rfl
  · rcases parseString_cut lenient plain inside partly with ⟨none, -⟩ | ⟨-, shown, begun, unread⟩
    · cases none
    · obtain rfl : head = '\x22' := (cons_prefix_cons.mp inside).1
      rw [dispatch_string, unread, unterminated]
      split
      · exact ⟨rfl, fun _ => ⟨.string shown, rfl, .inr ⟨shown, begun, rfl⟩⟩⟩
      · rename_i whole
        exact ⟨rfl, fun strings => absurd strings whole⟩

section Arrays
variable {items : List (Value F)}
  (each : ∀ item ∈ items, Reads host.fmt parser parse (render host.fmt style item) item)
  (solid : ∀ item ∈ items, Solid (render host.fmt style item))
include each solid

theorem reads_array (plain : Plain (.array items)) (absent : parse [] = (.ok .null, [])) :
    Reads host.fmt parser (dispatch host parser other (parseArray parser parse))
      (render host.fmt style (.array items)) (.array items) := by
  rw [render]
  refine reads_of_dispatch lenient plain (fun {rest} _ => ?_) (fun {head more} inside partly => ?_)
  · rw [cons_append, dispatch_array]
    cases items with
    | nil => rfl
    | cons first others =>
      rw [parseArray_of_solid ((solid_items (solid first mem_cons_self) others).append rest) prefix_rfl,
        arrayLoop_whole each solid (cons_ne_nil _ _) (lt_succ_self _), nil_append]
  · obtain ⟨rfl, within⟩ := cons_prefix_cons.mp inside
    have short : more ≠ renderItems host.fmt style items := fun same => partly (by rw [same])
    rw [dispatch_array]
    cases items with
    | nil =>
      rw [(prefix_singleton within).resolve_right short]
      have read : parseArray parser parse [] = (.ok (.array [.null]), []) := arrayLoop_end lenient absent
      rw [read]
      exact ⟨rfl, fun _ => ⟨.array [.null], rfl, .inr ⟨_, rfl, .inl rfl⟩⟩⟩
    | cons first others =>
      rw [parseArray_of_solid (solid_items (solid first mem_cons_self) others) within]
      obtain ⟨left, view⟩ := arrayLoop_cut each solid lenient (cons_ne_nil _ _) [] (lt_succ_self _) within short
      refine ⟨left, fun strings => ?_⟩
      obtain ⟨seen, -, read, shown⟩ := view strings
      exact ⟨.array seen, read, .inr ⟨_, rfl, shown⟩⟩

end Arrays

section Objects
variable (each : ∀ field ∈ fields, Reads host.fmt parser parse
    (render host.fmt style field.2) field.2) (keys : ∀ field ∈ fields, PlainText field.1)
  (free : fields.Pairwise fun earlier later => ¬ earlier.1 <+: later.1)
  (values : ∀ field ∈ fields, Plain field.2)
include each keys free values

theorem reads_object : Reads host.fmt parser (dispatch host parser (parseObject parser parse) other)
      (render host.fmt style (.object fields)) (.object fields) := by
  have plain : Plain (.object fields) := .object keys free values
  have solid : ∀ field ∈ fields, Solid (render host.fmt style field.2) :=
    fun field inside => solid_render (values field inside) host.fmt style
  rw [render]
  refine reads_of_dispatch lenient plain (fun {rest} _ => ?_) (fun {head more} inside partly => ?_)
  · rw [cons_append, dispatch_object]
    cases fields with
    | nil => rfl
    | cons first others =>
      rw [parseObject_of_solid ((solid_fields _ style first others).append rest) prefix_rfl,
        objectLoop_whole each solid keys (cons_ne_nil _ _) free (lt_succ_self _), nil_append]
  · obtain ⟨rfl, within⟩ := cons_prefix_cons.mp inside
    have short : more ≠ renderFields host.fmt style fields := fun same => partly (by rw [same])
    rw [dispatch_object]
    cases fields with
    | nil =>
      rw [(prefix_singleton within).resolve_right short]
      have unread : parseString parser [] = failed "Expected '\x22'" [] := rfl
      have read : objectLoop parser parse 1 [] [] = (.ok (.object []), []) := objectLoop_noKey lenient unread
      rw [show parseObject parser parse [] = _ from read]
      exact ⟨rfl, fun _ => ⟨.object [], rfl, .inr ⟨_, rfl, rfl⟩⟩⟩
    | cons first others =>
      rw [parseObject_of_solid (solid_fields _ style first others) within]
      obtain ⟨seen, read, view⟩ := objectLoop_cut each solid keys lenient (cons_ne_nil _ _) [] free
        (lt_succ_self _) within short
      rw [read]
      exact ⟨rfl, fun strings => ⟨.object seen, rfl, .inr ⟨_, rfl, (view strings).seen
        fun field inside => seen_null (values field inside) host.fmt⟩⟩⟩

end Objects

theorem parseValue_nil (levels : Nat) : parseValue host parser levels [] = (.ok .null, []) := by
  cases levels <;> exact dispatch_nil lenient

/-- The parser reads plain values back, from their text followed by anything or cut anywhere. -/
theorem reads_value (plain : Plain value) {levels : Nat} (shallow : nesting value ≤ levels) :
    Reads host.fmt parser (parseValue host parser levels) (render host.fmt style value) value := by
  induction value generalizing levels with
  | null => cases levels <;> exact reads_null lenient
  | bool value => cases levels <;> exact reads_bool lenient value
  | int value =>
    cases plain with
    | int fits => cases levels <;> exact reads_int lenient fits
  | float value => cases plain
  | string text =>
    cases plain with
    | string printable => cases levels <;> exact reads_string lenient printable
  | array items ih =>
    rw [nesting] at shallow
    obtain ⟨levels, rfl⟩ : ∃ fewer, levels = fewer + 1 := ⟨levels - 1, by omega⟩
    have inner : ∀ item ∈ items, Plain item := by
      cases plain with
      | array inner => exact inner
    refine reads_array lenient (fun item inside => ?_)
      (fun item inside => solid_render (inner item inside) _ _) plain (parseValue_nil lenient levels)
    have below := nesting_item inside
    exact ih item inside (inner item inside) (by omega)
  | object fields ih =>
    rw [nesting] at shallow
    obtain ⟨levels, rfl⟩ : ∃ fewer, levels = fewer + 1 := ⟨levels - 1, by omega⟩
    cases plain with
    | object keys free values =>
      refine reads_object lenient (fun field inside => ?_) keys free values
      have below := nesting_field inside
      exact ih field inside (values field inside) (by omega)

end ModelGateway.PartialJson
