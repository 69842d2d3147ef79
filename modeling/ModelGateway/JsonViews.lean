import ModelGateway.Json

/-! What the compact texts of a growing JSON value have in common. While a value is read, each of its
parts is seen in full, in part or not at all; an unseen value shows as `null`. Any two such views are
the same or part at a place up to which both agree with the text of the whole value, so that their
common prefix is a prefix of that text. -/
namespace ModelGateway.Json
open List Nat

/-! ### Common prefixes -/

section CommonPrefix
variable {α : Type} [DecidableEq α]

/-- The longest common prefix of two lists. -/
def commonPrefix (first second : List α) : List α :=
  ((first.zip second).takeWhile fun pair => pair.1 = pair.2).map Prod.fst

theorem commonPrefix_append (stem first second : List α) :
    commonPrefix (stem ++ first) (stem ++ second) = stem ++ commonPrefix first second := by
  induction stem with
  | nil => rfl
  | cons head stem ih =>
    rw [commonPrefix] at ih ⊢
    rw [cons_append, cons_append, zip_cons_cons, takeWhile_cons_of_pos (by simp), map_cons, ih, cons_append]

end CommonPrefix

/-! ### Views that agree -/

/-- The texts differ at once; the end of a text differs from a digit. -/
def Parts (first second : Text) : Prop :=
  (∃ head more other rest, first = head :: more ∧ second = other :: rest ∧ head ≠ other) ∨
  (first = [] ∧ ∃ digit rest, second = digit :: rest ∧ digit.isDigit = true) ∨
  (second = [] ∧ ∃ digit rest, first = digit :: rest ∧ digit.isDigit = true)

variable {first second : Text} {head next : Char} {whole : Text} {Views : Text → Prop}
  {shown text : Text} (value : Int)

theorem Parts.symm (parts : Parts first second) : Parts second first := by
  rcases parts with ⟨head, more, other, rest, left, right, apart⟩ | digit | digit
  · exact .inl ⟨other, rest, head, more, right, left, apart.symm⟩
  · exact .inr (.inr digit)
  · exact .inr (.inl digit)

theorem Parts.of_ne {other : Char} (apart : head ≠ other) (first second : Text) :
    Parts (head :: first) (other :: second) :=
  .inl ⟨head, first, other, second, rfl, rfl, apart⟩

theorem ne_of_isDigit {digit close : Char} (is : digit.isDigit = true)
    (not : close.isDigit = false) : close ≠ digit := by
  rintro rfl
  rw [is] at not
  cases not

theorem Parts.append (parts : Parts first second) {close : Char} (ends : close.isDigit = false)
    (stops : next.isDigit = false) (more rest : Text) :
    Parts (first ++ close :: more) (second ++ next :: rest) := by
  rcases parts with ⟨head, _, other, _, rfl, rfl, apart⟩ | ⟨rfl, digit, _, rfl, is⟩ | ⟨rfl, digit, _, rfl, is⟩
  · exact .of_ne apart _ _
  · exact .of_ne (ne_of_isDigit is ends) _ _
  · exact .of_ne (ne_of_isDigit is stops).symm _ _

theorem Parts.commonPrefix_eq_nil (parts : Parts first second) : commonPrefix first second = [] := by
  rcases parts with ⟨head, _, other, _, rfl, rfl, apart⟩ | ⟨rfl, -⟩ | ⟨rfl, -⟩
  · rw [commonPrefix, zip_cons_cons, takeWhile_cons_of_neg (by simpa using apart), map_nil]
  · rfl
  · cases first <;> rfl

/-- Two views of a text are the same, or part at a place up to which they are the text. -/
def Agree (whole first second : Text) : Prop :=
  first = second ∨ ∃ stem left right, first = stem ++ left ∧ second = stem ++ right ∧
    stem <+: whole ∧ Parts left right

theorem Agree.symm (agree : Agree whole first second) : Agree whole second first := by
  rcases agree with same | ⟨stem, left, right, shown, other, inside, parts⟩
  · exact .inl same.symm
  · exact .inr ⟨stem, right, left, other, shown, inside, parts.symm⟩

theorem Agree.prepend (agree : Agree whole first second) (pre : Text) :
    Agree (pre ++ whole) (pre ++ first) (pre ++ second) := by
  rcases agree with rfl | ⟨stem, left, right, rfl, rfl, inside, parts⟩
  · exact .inl rfl
  · exact .inr ⟨pre ++ stem, left, right, (append_assoc ..).symm, (append_assoc ..).symm,
      (prefix_append_right_inj pre).mpr inside, parts⟩

theorem Agree.close (agree : Agree whole first second) {close : Char} (ends : close.isDigit = false)
    (more post : Text) : Agree (whole ++ post) (first ++ close :: more) (second ++ close :: more) := by
  rcases agree with rfl | ⟨stem, left, right, rfl, rfl, inside, parts⟩
  · exact .inl rfl
  · exact .inr ⟨stem, left ++ close :: more, right ++ close :: more, append_assoc ..,
      append_assoc .., inside.trans (prefix_append _ _), parts.append ends ends more more⟩

theorem Agree.part {view : Text} (agree : Agree whole view whole) {close : Char}
    (ends : close.isDigit = false) (stops : next.isDigit = false) (apart : close ≠ next)
    (more rest post : Text) : Agree (whole ++ post) (view ++ close :: more) (whole ++ next :: rest) := by
  rcases agree with rfl | ⟨stem, left, right, rfl, other, inside, parts⟩
  · exact .inr ⟨view, close :: more, next :: rest, rfl, rfl, prefix_append _ _, .of_ne apart _ _⟩
  · refine .inr ⟨stem, left ++ close :: more, right ++ next :: rest, append_assoc .., ?_,
      inside.trans (prefix_append _ _), parts.append ends stops more rest⟩
    rw [← append_assoc, ← other]

theorem Agree.commonPrefix_begins (agree : Agree whole first second) (differ : first ≠ second) :
    commonPrefix first second <+: whole := by
  rcases agree with same | ⟨stem, left, right, rfl, rfl, inside, parts⟩
  · exact absurd same differ
  · rw [commonPrefix_append, parts.commonPrefix_eq_nil, append_nil]
    exact inside

/-- Views of a text, with the text itself, that agree with each other. -/
structure Steady (whole : Text) (Views : Text → Prop) : Prop where
  whole_mem : Views whole
  agree : ∀ {first second : Text}, Views first → Views second → Agree whole first second

theorem Steady.single (whole : Text) : Steady whole (· = whole) :=
  ⟨rfl, fun left right => .inl (left.trans right.symm)⟩

theorem Steady.cons (steady : Steady whole Views) (head : Char) :
    Steady (head :: whole) fun view => ∃ more, view = head :: more ∧ Views more where
  whole_mem := ⟨whole, rfl, steady.whole_mem⟩
  agree := by
    rintro _ _ ⟨first, rfl, left⟩ ⟨second, rfl, right⟩
    exact (steady.agree left right).prepend [head]

theorem Steady.insert (steady : Steady whole Views) (more : Text)
    (unlike : ∀ view, Views view → ∃ other rest, view = other :: rest ∧ head ≠ other) :
    Steady whole fun view => view = head :: more ∨ Views view where
  whole_mem := .inr steady.whole_mem
  agree := by
    have apart {view : Text} (seen : Views view) : Agree whole (head :: more) view := by
      obtain ⟨other, rest, rfl, differ⟩ := unlike view seen
      exact .inr ⟨[], _, _, rfl, rfl, nil_prefix, .of_ne differ _ _⟩
    rintro first second (rfl | left) (rfl | right)
    · exact .inl rfl
    · exact apart right
    · exact (apart left).symm
    · exact steady.agree left right

/-! ### Strings and numbers -/

theorem escapeChar_head (char : Char) : ∃ head more, escapeChar char = head :: more ∧ head ≠ '\x22' := by
  by_cases quote : char = '\x22'
  · rw [escapeChar, if_pos quote]
    exact ⟨_, _, rfl, by decide⟩
  · rw [escapeChar, if_neg quote]
    repeat' split
    all_goals first
      | exact ⟨_, _, rfl, by decide⟩
      | exact ⟨_, _, rfl, quote⟩

/-- A quote and the text of the first characters. -/
def opening (shown : Text) : Text := '\x22' :: escape shown

theorem quoted_eq (text : Text) : quoted text = opening text ++ ['\x22'] := rfl

theorem quoted_append (shown left : Text) : quoted (shown ++ left) = opening shown ++ (escape left ++ ['\x22']) := by
  rw [quoted, escape, flatMap_append, opening, append_assoc, cons_append]
  rfl

theorem opening_begins (begun : shown <+: text) : opening shown <+: quoted text := by
  obtain ⟨left, rfl⟩ := begun
  rw [quoted_append]
  exact prefix_append _ _

theorem quoted_goes_on (begun : shown <+: text) (more : shown ≠ text) :
    ∃ head rest, quoted text = opening shown ++ head :: rest ∧ head ≠ '\x22' := by
  obtain ⟨left, rfl⟩ := begun
  cases left with
  | nil => exact absurd (append_nil shown).symm more
  | cons char left =>
    obtain ⟨head, rest, text, other⟩ := escapeChar_head char
    refine ⟨head, rest ++ (escape left ++ ['\x22']), ?_, other⟩
    rw [quoted_append, escape, flatMap_cons, text, escape, append_assoc, cons_append]

theorem steady_quoted (text : Text) :
    Steady (quoted text) fun view => ∃ shown, shown <+: text ∧ view = quoted shown where
  whole_mem := ⟨text, prefix_rfl, rfl⟩
  agree := by
    have ordered {first second : Text} (order : first <+: second) (inside : second <+: text) :
        Agree (quoted text) (quoted first) (quoted second) := by
      by_cases same : first = second
      · exact .inl (congrArg quoted same)
      · obtain ⟨head, rest, goes, apart⟩ := quoted_goes_on order same
        exact .inr ⟨opening first, _, _, quoted_eq first, goes, opening_begins (order.trans inside),
          .of_ne apart.symm _ _⟩
    rintro _ _ ⟨first, left, rfl⟩ ⟨second, right, rfl⟩
    rcases prefix_or_prefix_of_prefix left right with order | order
    · exact ordered order right
    · exact (ordered order left).symm

theorem intText_ne_nil : intText value ≠ [] := by
  rw [intText]
  split
  · exact cons_ne_nil _ _
  · exact toDigits_ne_nil

theorem isDigit_of_intText {value : Int} {more : Text} (text : intText value = head :: more) :
    ∀ char ∈ more, char.isDigit = true := by
  intro char inside
  rw [intText] at text
  split at text
  · obtain ⟨-, rfl⟩ := List.cons.inj text
    exact isDigit_of_mem_toDigits (by decide) (by decide) inside
  · refine isDigit_of_mem_toDigits (b := 10) (n := value.natAbs) (by decide) (by decide) ?_
    rw [text]
    exact mem_cons_of_mem _ inside

theorem intText_head :
    ∃ head more, intText value = head :: more ∧ (head.isDigit = true ∨ value < 0 ∧ head = '-') := by
  rw [intText]
  split
  · rename_i negative
    exact ⟨_, _, rfl, .inr ⟨negative, rfl⟩⟩
  · obtain ⟨head, more, text⟩ := exists_cons_of_ne_nil (toDigits_ne_nil (n := value.natAbs) (b := 10))
    refine ⟨head, more, text, .inl ?_⟩
    refine isDigit_of_mem_toDigits (b := 10) (n := value.natAbs) (by decide) (by decide) ?_
    rw [text]
    exact mem_cons_self

theorem steady_int : Steady (intText value) fun view => view ≠ [] ∧ view <+: intText value where
  whole_mem := ⟨intText_ne_nil value, prefix_rfl⟩
  agree := by
    have ordered {first second : Text} (nonempty : first ≠ []) (order : first <+: second)
        (inside : second <+: intText value) : Agree (intText value) first second := by
      obtain ⟨head, more, rfl⟩ := exists_cons_of_ne_nil nonempty
      obtain ⟨left, rfl⟩ := order
      cases left with
      | nil => exact .inl (append_nil _).symm
      | cons digit left =>
        obtain ⟨rest, text⟩ := inside
        refine .inr ⟨head :: more, [], digit :: left, (append_nil _).symm, rfl, ?_,
          .inr (.inl ⟨rfl, digit, left, rfl, isDigit_of_intText text.symm digit (by simp)⟩)⟩
        rw [← text, append_assoc]
        exact prefix_append _ _
    rintro first second ⟨begun, left⟩ ⟨started, right⟩
    rcases prefix_or_prefix_of_prefix left right with order | order
    · exact ordered begun order right
    · exact (ordered started order left).symm

/-! ### Values -/

section Seen
variable {F : Type} (fmt : F → Text)

mutual
/-- The compact texts under which a value may show while it is read. The sign of a negative number
shows as zero. -/
def Seen : Value F → Text → Prop
  | .null, view => view = "null".toList
  | .bool value, view => view = "null".toList ∨ view = serialize fmt (.bool value)
  | .int value, view => view = "null".toList ∨ (view = "0".toList ∧ value < 0) ∨
      (view ≠ [] ∧ view <+: intText value)
  | .float value, view => view = fmt value
  | .string text, view => view = "null".toList ∨ ∃ shown, shown <+: text ∧ view = quoted shown
  | .array items, view => view = "null".toList ∨ ∃ more, view = '[' :: more ∧ SeenItems items more
  | .object fields, view => view = "null".toList ∨ ∃ more, view = '\x7b' :: more ∧ SeenFields fields more

def SeenItems : List (Value F) → Text → Prop
  | [], view => view = "null]".toList ∨ view = [']']
  | first :: rest, view => (∃ shown, Seen first shown ∧ view = shown ++ [']']) ∨
      (rest ≠ [] ∧ ∃ more, SeenItems rest more ∧ view = serialize fmt first ++ ',' :: more)

def SeenFields : List (Text × Value F) → Text → Prop
  | [], view => view = ['\x7d']
  | (key, value) :: rest, view => view = ['\x7d'] ∨
      (∃ shown, shown <+: key ∧ shown ≠ key ∧ view = quoted shown ++ ":null\x7d".toList) ∨
      ∃ more, ((∃ shown, Seen value shown ∧ more = shown ++ ['\x7d']) ∨
        (rest ≠ [] ∧ ∃ others, SeenFields rest others ∧ more = serialize fmt value ++ ',' :: others)) ∧
        view = quoted key ++ ':' :: more
end

variable {fmt}

variable {whole : Text} {Views : Text → Prop}

theorem Steady.sequence {others post : Text} {More : Text → Prop} {goesOn : Prop}
    (steady : Steady whole Views) (more : Steady others More) {close : Char} (ends : close.isDigit = false)
    (apart : close ≠ ',') (closed : ¬ goesOn → post = [close]) (goes : goesOn → post = ',' :: others) :
    Steady (whole ++ post) fun view => (∃ shown, Views shown ∧ view = shown ++ [close]) ∨
      (goesOn ∧ ∃ rest, More rest ∧ view = whole ++ ',' :: rest) where
  whole_mem := by
    by_cases on : goesOn
    · exact .inr ⟨on, others, more.whole_mem, by rw [goes on]⟩
    · exact .inl ⟨whole, steady.whole_mem, by rw [closed on]⟩
  agree := by
    have crossed {shown rest : Text} (seen : Views shown) :
        Agree (whole ++ post) (shown ++ [close]) (whole ++ ',' :: rest) :=
      (steady.agree seen steady.whole_mem).part ends (by decide) apart [] rest post
    rintro _ _ (⟨first, left, rfl⟩ | ⟨on, first, left, rfl⟩) (⟨second, right, rfl⟩ | ⟨-, second, right, rfl⟩)
    · exact (steady.agree left right).close ends [] post
    · exact crossed left
    · exact (crossed right).symm
    · have later := (more.agree left right).prepend (whole ++ [','])
      rw [append_assoc, append_assoc, append_assoc] at later
      rw [goes on]
      exact later

theorem Steady.keyed (steady : Steady whole Views) (key : Text) : Steady (quoted key ++ ':' :: whole) fun view =>
      (∃ shown, shown <+: key ∧ shown ≠ key ∧ view = quoted shown ++ ":null\x7d".toList) ∨
      ∃ more, Views more ∧ view = quoted key ++ ':' :: more where
  whole_mem := .inr ⟨whole, steady.whole_mem, rfl⟩
  agree := by
    have crossed {shown more : Text} (begun : shown <+: key) (partly : shown ≠ key) :
        Agree (quoted key ++ ':' :: whole) (quoted shown ++ ":null\x7d".toList) (quoted key ++ ':' :: more) := by
      obtain ⟨head, rest, goes, apart⟩ := quoted_goes_on begun partly
      refine .inr ⟨opening shown, '\x22' :: ":null\x7d".toList, head :: (rest ++ ':' :: more), ?_, ?_,
        (opening_begins begun).trans (prefix_append _ _), .of_ne apart.symm _ _⟩
      · rw [quoted_eq, append_assoc, singleton_append]
      · rw [goes, append_assoc, cons_append]
    rintro _ _ (⟨first, left, partly, rfl⟩ | ⟨first, left, rfl⟩)
      (⟨second, right, halfway, rfl⟩ | ⟨second, right, rfl⟩)
    · exact ((steady_quoted key).agree ⟨first, left, rfl⟩ ⟨second, right, rfl⟩).close (by decide) _ _
    · exact crossed left partly
    · exact (crossed right halfway).symm
    · have later := (steady.agree left right).prepend (quoted key ++ [':'])
      rw [append_assoc, append_assoc, append_assoc] at later
      exact later

theorem steady_items {items : List (Value F)}
    (steady : ∀ item ∈ items, Steady (serialize fmt item) (Seen fmt item)) :
    Steady (renderItems fmt .compact items) (SeenItems fmt items) := by
  induction items with
  | nil =>
    refine (Steady.single [']']).insert "ull]".toList ?_
    rintro _ rfl
    exact ⟨_, _, rfl, by decide⟩
  | cons first rest ih =>
    obtain ⟨here, others⟩ := forall_mem_cons.mp steady
    refine here.sequence (ih others) (by decide) (by decide) ?_ ?_
    · intro last
      rw [not_ne_iff.mp last, renderMoreItems]
    · intro more
      obtain ⟨next, rest, rfl⟩ := exists_cons_of_ne_nil more
      exact renderMoreItems_cons fmt .compact next rest

theorem steady_fields {fields : List (Text × Value F)}
    (steady : ∀ field ∈ fields, Steady (serialize fmt field.2) (Seen fmt field.2)) :
    Steady (renderFields fmt .compact fields) (SeenFields fmt fields) := by
  induction fields with
  | nil => exact .single _
  | cons field rest ih =>
    obtain ⟨key, value⟩ := field
    have values : Steady (serialize fmt value ++ renderMoreFields fmt .compact rest) fun view =>
        (∃ shown, Seen fmt value shown ∧ view = shown ++ ['\x7d']) ∨
        (rest ≠ [] ∧ ∃ more, SeenFields fmt rest more ∧ view = serialize fmt value ++ ',' :: more) := by
      obtain ⟨here, others⟩ := forall_mem_cons.mp steady
      refine here.sequence (ih others) (by decide) (by decide) ?_ ?_
      · intro last
        rw [not_ne_iff.mp last, renderMoreFields]
      · intro more
        obtain ⟨next, rest, rfl⟩ := exists_cons_of_ne_nil more
        exact renderMoreFields_cons fmt .compact next rest
    refine (values.keyed key).insert [] ?_
    rintro _ (⟨shown, -, -, rfl⟩ | ⟨more, -, rfl⟩)
    · exact ⟨_, _, rfl, by decide⟩
    · exact ⟨_, _, rfl, by decide⟩

theorem steady_seen (value : Value F) : Steady (serialize fmt value) (Seen fmt value) := by
  induction value with
  | null => exact .single _
  | bool value =>
    refine (Steady.single _).insert "ull".toList ?_
    rintro _ rfl
    cases value <;> exact ⟨_, _, rfl, by decide⟩
  | int value =>
    have digits : Steady (intText value) fun view => (view = "0".toList ∧ value < 0) ∨
        (view ≠ [] ∧ view <+: intText value) := by
      by_cases negative : value < 0
      · simp only [negative, and_true]
        refine (steady_int value).insert [] ?_
        rintro view ⟨nonempty, inside⟩
        obtain ⟨head, more, rfl⟩ := exists_cons_of_ne_nil nonempty
        rw [intText, if_pos negative, cons_prefix_cons] at inside
        exact ⟨head, more, rfl, by rw [inside.1]; decide⟩
      · simp only [negative, and_false, false_or]
        exact steady_int value
    refine digits.insert "ull".toList ?_
    rintro view (⟨rfl, -⟩ | ⟨nonempty, inside⟩)
    · exact ⟨_, _, rfl, by decide⟩
    · obtain ⟨head, more, rfl⟩ := exists_cons_of_ne_nil nonempty
      obtain ⟨first, rest, text, kind⟩ := intText_head value
      rw [text, cons_prefix_cons] at inside
      refine ⟨head, more, rfl, ?_⟩
      rw [inside.1]
      rcases kind with digit | ⟨-, rfl⟩
      · exact ne_of_isDigit digit (by decide)
      · decide
  | float value => exact .single _
  | string text =>
    refine (steady_quoted text).insert "ull".toList ?_
    rintro _ ⟨shown, -, rfl⟩
    exact ⟨_, _, rfl, by decide⟩
  | array items ih =>
    refine ((steady_items ih).cons '[').insert "ull".toList ?_
    rintro _ ⟨more, rfl, -⟩
    exact ⟨_, _, rfl, by decide⟩
  | object fields ih =>
    refine ((steady_fields ih).cons '\x7b').insert "ull".toList ?_
    rintro _ ⟨more, rfl, -⟩
    exact ⟨_, _, rfl, by decide⟩

end Seen
end ModelGateway.Json
