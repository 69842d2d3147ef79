import ModelGateway.PartialJson
import ModelGateway.JsonViews

/-! Whitespace, strings, numbers and words under the lenient JSON parser: what it reads from the text of
each, followed by something else or cut anywhere. -/
namespace ModelGateway.PartialJson
open Json List Nat Utf8 Option

variable {F : Type}

variable {α : Type} {cut : Text} {char : Char} {blank rest text : Text} {parser : Parser} {number : Nat}
  {value : Int} {letters : Text}

theorem prefix_append_cases {cut first second : List α} (inside : cut <+: first ++ second) :
    (cut <+: first ∧ cut ≠ first) ∨ ∃ more, cut = first ++ more ∧ more <+: second := by
  rcases prefix_or_prefix_of_prefix inside (prefix_append first second) with early | ⟨more, rfl⟩
  · by_cases all : cut = first
    · exact .inr ⟨[], by rw [all, append_nil], nil_prefix⟩
    · exact .inl ⟨early, all⟩
  · exact .inr ⟨more, rfl, (prefix_append_right_inj first).mp inside⟩

theorem prefix_singleton {cut : List α} {only : α} (inside : cut <+: [only]) : cut = [] ∨ cut = [only] := by
  cases cut with
  | nil => exact .inl rfl
  | cons head rest =>
    obtain ⟨rfl, none⟩ := cons_prefix_cons.mp inside
    exact .inr (by rw [prefix_nil.mp none])

/-! ### Whitespace -/

theorem skipWhitespace_of_head (rest : Text) (solid : isWhitespace char = false) :
    skipWhitespace (char :: rest) = char :: rest :=
  dropWhile_cons_of_neg (by rw [solid]; exact Bool.false_ne_true)

theorem skipWhitespace_blank (rest : Text) (only : ∀ char ∈ blank, isWhitespace char = true) :
    skipWhitespace (blank ++ rest) = skipWhitespace rest := by
  rw [skipWhitespace, skipWhitespace, dropWhile_append_of_pos only]

theorem skipWhitespace_eq_nil (only : ∀ char ∈ blank, isWhitespace char = true) : skipWhitespace blank = [] := by
  have skipped := skipWhitespace_blank [] only
  rwa [append_nil] at skipped

theorem skipWhitespace_prefix (only : ∀ char ∈ blank, isWhitespace char = true)
    (solid : isWhitespace char = false) (inside : cut <+: blank ++ char :: rest) :
    skipWhitespace cut <+: char :: rest ∧ (cut ≠ blank ++ char :: rest → skipWhitespace cut ≠ char :: rest) := by
  rcases prefix_append_cases inside with ⟨early, -⟩ | ⟨more, rfl, later⟩
  · rw [skipWhitespace_eq_nil fun other among => only other (early.subset among)]
    exact ⟨ nil_prefix, fun _ => (cons_ne_nil _ _).symm⟩
  · rw [skipWhitespace_blank more only]
    cases more with
    | nil => exact ⟨ nil_prefix, fun _ => (cons_ne_nil _ _).symm⟩
    | cons head more =>
      obtain ⟨rfl, -⟩ := cons_prefix_cons.mp later
      rw [skipWhitespace_of_head more solid]
      exact ⟨later, fun partly whole => partly (congrArg (blank ++ ·) whole)⟩

theorem isWhitespace_of_json : ∀ char ∈ [' ', '\x09', '\x0a', '\x0d'], isWhitespace char = true :=
  forall_mem_of_all (by decide)

theorem afterComma_blank (style : Style) : ∀ char ∈ style.afterComma, isWhitespace char = true :=
  fun char inside => isWhitespace_of_json char (style.blank char (mem_append_left _ inside))

theorem afterColon_blank (style : Style) : ∀ char ∈ style.afterColon, isWhitespace char = true :=
  fun char inside => isWhitespace_of_json char (style.blank char (mem_append_right _ inside))

/-! ### Strings -/

/-- A character that is written without a unicode escape. -/
def PlainChar (char : Char) : Prop :=
  32 ≤ char.toNat ∨ char = '\x08' ∨ char = '\x09' ∨ char = '\x0a' ∨ char = '\x0c' ∨ char = '\x0d'

def PlainText (text : Text) : Prop := ∀ char ∈ text, PlainChar char

theorem escapeChar_cases (plain : PlainChar char) : (escapeChar char = [char] ∧ char ≠ '\x5c' ∧ char ≠ '\x22') ∨
      ∃ letter, escapeChar char = ['\x5c', letter] ∧ letter ≠ 'u' ∧ unescape letter = char := by
  by_cases quote : char = '\x22'
  · subst quote
    exact .inr ⟨'\x22', rfl, by decide, rfl⟩
  by_cases slash : char = '\x5c'
  · subst slash
    exact .inr ⟨'\x5c', rfl, by decide, rfl⟩
  rcases plain with printable | rfl | rfl | rfl | rfl | rfl
  · left
    refine ⟨?_, slash, quote⟩
    have above {other : Char} (low : other.toNat < 32) : char ≠ other := by
      rintro rfl
      omega
    rw [escapeChar, if_neg quote, if_neg slash, if_neg (above (by decide)), if_neg (above (by decide)),
      if_neg (above (by decide)), if_neg (above (by decide)), if_neg (above (by decide)),
      if_neg (not_lt.mpr printable)]
  · exact .inr ⟨'b', rfl, by decide, rfl⟩
  · exact .inr ⟨'t', rfl, by decide, rfl⟩
  · exact .inr ⟨'n', rfl, by decide, rfl⟩
  · exact .inr ⟨'f', rfl, by decide, rfl⟩
  · exact .inr ⟨'r', rfl, by decide, rfl⟩

theorem stringLoop_escapeChar (parser : Parser) (plain : PlainChar char) (string rest : Text) :
    stringLoop parser string .plain (escapeChar char ++ rest) = stringLoop parser (string ++ [char]) .plain rest := by
  rcases escapeChar_cases plain with ⟨text, slash, quote⟩ | ⟨letter, text, other, stands⟩
  · rw [text, singleton_append, stringLoop, if_neg slash, if_neg quote]
  · rw [text, cons_append, singleton_append, stringLoop, if_pos rfl, stringLoop, if_neg other, stands]

theorem stringLoop_escape (parser : Parser) (plain : PlainText text) (string rest : Text) :
    stringLoop parser string .plain (escape text ++ '\x22' :: rest) = (.ok (string ++ text), rest) := by
  induction text generalizing string with
  | nil =>
    rw [append_nil]
    exact (if_neg (by decide)).trans (if_pos rfl)
  | cons char text ih =>
    obtain ⟨first, others⟩ := forall_mem_cons.mp plain
    rw [escape, flatMap_cons, append_assoc, stringLoop_escapeChar parser first, ← escape, ih others, append_assoc]
    rfl

/-- The result for a string that does not end. -/
def unterminated (parser : Parser) (shown : Text) : Parsed Text :=
  if parser.allowPartialStrings then (.ok shown, []) else failed "Unterminated string" []

variable (lenient : parser.allowIncomplete = true) (host : Host F)
include lenient

theorem stringLoop_nil (string : Text) : stringLoop parser string .plain [] = unterminated parser string := by
  rw [stringLoop, lenient, unterminated, Bool.true_and]

/-- A string that is cut shows its beginning. -/
theorem stringLoop_cut (plain : PlainText text) (inside : cut <+: escape text) (string : Text) :
    ∃ shown, shown <+: text ∧ stringLoop parser string .plain cut = unterminated parser (string ++ shown) := by
  induction text generalizing string cut with
  | nil =>
    rw [prefix_nil.mp inside, stringLoop_nil lenient]
    exact ⟨[], nil_prefix, by rw [append_nil]⟩
  | cons char text ih =>
    obtain ⟨first, others⟩ := forall_mem_cons.mp plain
    rw [escape, flatMap_cons] at inside
    rcases prefix_append_cases inside with ⟨early, partly⟩ | ⟨more, rfl, later⟩
    · refine ⟨[], nil_prefix, ?_⟩
      rw [append_nil]
      rcases escapeChar_cases first with ⟨whole, -⟩ | ⟨letter, whole, -⟩ <;> rw [whole] at early partly
      · rw [(prefix_singleton early).resolve_right partly]
        exact stringLoop_nil lenient string
      · cases cut with
        | nil => exact stringLoop_nil lenient string
        | cons head cut =>
          obtain ⟨rfl, short⟩ := cons_prefix_cons.mp early
          rw [(prefix_singleton short).resolve_right fun same => partly (by rw [same])]
          rw [stringLoop, if_pos rfl, stringLoop, lenient, unterminated, Bool.true_and]
    · obtain ⟨shown, begun, read⟩ := ih others later (string ++ [char])
      refine ⟨char :: shown, cons_prefix_cons.mpr ⟨rfl, begun⟩, ?_⟩
      rw [stringLoop_escapeChar parser first, read, append_assoc]
      rfl

omit lenient

theorem parseString_quoted (parser : Parser) (plain : PlainText text) (rest : Text) :
    parseString parser (quoted text ++ rest) = (.ok text, rest) := by
  rw [quoted, cons_append, append_assoc, parseString]
  exact stringLoop_escape parser plain [] rest

theorem parseString_cut (lenient : parser.allowIncomplete = true) (plain : PlainText text)
    (inside : cut <+: quoted text) (partly : cut ≠ quoted text) :
    (cut = [] ∧ parseString parser cut = failed "Expected '\x22'" []) ∨
      (cut ≠ [] ∧ ∃ shown, shown <+: text ∧ parseString parser cut = unterminated parser shown) := by
  cases cut with
  | nil => exact .inl ⟨rfl, rfl⟩
  | cons head cut =>
    rw [quoted, cons_prefix_cons] at inside
    obtain ⟨rfl, inside⟩ := inside
    have begun : cut <+: escape text := by
      rcases prefix_append_cases inside with ⟨early, -⟩ | ⟨more, rfl, later⟩
      · exact early
      · cases more with
        | nil => rw [append_nil]
        | cons other more =>
          obtain ⟨rfl, rest⟩ := cons_prefix_cons.mp later
          rw [prefix_nil.mp rest] at partly
          exact absurd rfl partly
    exact .inr ⟨cons_ne_nil _ _, stringLoop_cut lenient plain begun []⟩

/-! ### Numbers -/

/-- What follows a value inside an array or an object, or the end of the text. -/
def Ends (rest : Text) : Prop :=
  ∀ char more, rest = char :: more → char = ',' ∨ char = ']' ∨ char = '\x7d'

theorem Ends.nil : Ends [] := nofun

theorem prefix_toDigits (inside : cut <+: toDigits 10 number) (nonempty : cut ≠ []) :
    ∃ smaller, cut = toDigits 10 smaller ∧ smaller ≤ number ∧ (0 < number → 0 < smaller) := by
  induction number using Nat.strong_induction_on with
  | _ number ih =>
    by_cases large : 10 ≤ number
    · have split := toDigits_of_base_le (by decide) large
      rw [split] at inside
      have pos := div_pos large (by decide)
      rcases prefix_append_cases inside with ⟨early, -⟩ | ⟨more, rfl, later⟩
      · obtain ⟨smaller, text, below, keeps⟩ := ih (number / 10) (by omega) early
        exact ⟨smaller, text, by omega, fun _ => keeps pos⟩
      · rcases prefix_singleton later with rfl | rfl
        · exact ⟨number / 10, append_nil _, div_le_self _ _, fun _ => pos⟩
        · exact ⟨number, split.symm, le_refl _, id⟩
    · rw [toDigits_of_lt_base (by omega)] at inside
      refine ⟨number, ?_, le_refl _, id⟩
      rw [toDigits_of_lt_base (by omega)]
      exact (prefix_singleton inside).resolve_left nonempty

theorem toDigits_head (pos : 0 < number) : ∃ head more, toDigits 10 number = head :: more ∧ head ≠ '0' := by
  induction number using Nat.strong_induction_on with
  | _ number ih =>
    by_cases large : 10 ≤ number
    · obtain ⟨head, more, text, leading⟩ := ih (number / 10) (by omega) (div_pos large (by decide))
      rw [toDigits_of_base_le (by decide) large, text]
      exact ⟨head, more ++ [digitChar (number % 10)], rfl, leading⟩
    · refine ⟨digitChar number, [], toDigits_of_lt_base (by omega), ?_⟩
      have digits : ∀ digit < 10, 0 < digit → digitChar digit ≠ '0' := by decide
      exact digits number (by omega) pos

theorem takeDigits_append {digits : Text} (all : ∀ char ∈ digits, char.isDigit = true) (ends : Ends rest) :
    takeDigits (digits ++ rest) = (digits, rest) := by
  rw [takeDigits, takeWhile_append_of_pos all, dropWhile_append_of_pos all]
  cases rest with
  | nil => rw [takeWhile_nil, dropWhile_nil, append_nil]
  | cons char more =>
    have stops : ¬ char.isDigit = true := by
      rcases ends char more rfl with rfl | rfl | rfl <;> decide
    rw [takeWhile_cons_of_neg stops, dropWhile_cons_of_neg stops, append_nil]

theorem isDigit_toDigits (number : Nat) : ∀ char ∈ toDigits 10 number, char.isDigit = true :=
  fun _ inside => isDigit_of_mem_toDigits (by decide) (by decide) inside

theorem takeWhole_toDigits (number : Nat) (ends : Ends rest) :
    takeWhole (toDigits 10 number ++ rest) = (toDigits 10 number, rest) := by
  rcases Nat.eq_zero_or_pos number with rfl | pos
  · rfl
  · obtain ⟨head, more, text, leading⟩ := toDigits_head pos
    have read := takeDigits_append (isDigit_toDigits number) ends
    rw [text, cons_append] at read ⊢
    rw [takeWhole]
    · exact read
    · intro rest zero
      exact leading (cons.inj zero).1

theorem take_ends (ends : Ends rest) : takeFraction rest = ([], rest) ∧ takeExponent rest = ([], rest) := by
  cases rest with
  | nil => exact ⟨rfl, rfl⟩
  | cons char more => rcases ends char more rfl with rfl | rfl | rfl <;> exact ⟨rfl, rfl⟩

theorem readDigits_toDigits (number : Nat) : readDigits (toDigits 10 number) = some (number : Int) := by
  rw [readDigits, if_pos ⟨toDigits_ne_nil, all_eq_true.mpr (isDigit_toDigits number)⟩,
    ofDigitChars_toDigits (by decide) (by decide)]

/-- The integers of an `i64`. -/
def Fits (value : Int) : Prop := -2 ^ 63 ≤ value ∧ value < 2 ^ 63

theorem toDigits_cons (number : Nat) :
    ∃ head more, toDigits 10 number = head :: more ∧ head ≠ '-' ∧ head ≠ '+' := by
  obtain ⟨head, more, text⟩ := exists_cons_of_ne_nil (toDigits_ne_nil (n := number) (b := 10))
  have digit : head.isDigit = true := isDigit_toDigits number head (by rw [text]; exact mem_cons_self)
  refine ⟨head, more, text, ?_, ?_⟩ <;> rintro rfl <;> revert digit <;> decide

theorem parseI64_intText (fits : Fits value) : parseI64 (intText value) = some value := by
  have range : decide (-2 ^ 63 ≤ value ∧ value < 2 ^ 63) = true := decide_eq_true (show _ ∧ _ from fits)
  rw [intText]
  split
  · have size : -(value.natAbs : Int) = value := by omega
    simp only [parseI64, readDigits_toDigits, map_some, size, filter_some, range, if_true]
  · have size : (value.natAbs : Int) = value := by omega
    obtain ⟨head, more, text, minus, plus⟩ := toDigits_cons value.natAbs
    have read := readDigits_toDigits value.natAbs
    rw [text, size] at read
    rw [text, parseI64]
    · rw [read, filter_some, if_pos range]
    · exact fun digits sign => minus (cons.inj sign).1
    · exact fun digits sign => plus (cons.inj sign).1

theorem takeSign_intText (value : Int) (rest : Text) : takeSign (intText value ++ rest) =
    (if value < 0 then ['-'] else [], toDigits 10 value.natAbs ++ rest) := by
  rw [intText]
  split
  · rfl
  · obtain ⟨head, more, text, minus, -⟩ := toDigits_cons value.natAbs
    rw [text, cons_append, takeSign]
    exact fun digits sign => minus (cons.inj sign).1

theorem parseNumber_intText (parser : Parser) (fits : Fits value) (ends : Ends rest) :
    parseNumber host parser (intText value ++ rest) = (.ok (.int value), rest) := by
  have number : (if value < 0 then ['-'] else []) ++ toDigits 10 value.natAbs ++ [] ++ [] =
      intText value := by
    rw [intText, append_nil, append_nil]
    split <;> rfl
  rw [parseNumber]
  simp only [takeSign_intText, takeWhole_toDigits _ ends, take_ends ends]
  rw [number, numberValue, parseI64_intText fits]

theorem parseNumber_sign (lenient : parser.allowIncomplete = true) :
    parseNumber host parser ['-'] = (.ok (.int 0), []) := by
  have none : parseI64 ['-'] = none := by decide
  have cut : parseNumber host parser ['-'] = (numberValue host parser ['-'], []) := rfl
  rw [cut, numberValue, none, host.parseF64_sign]
  simp only [lenient, if_true]

theorem prefix_intText (fits : Fits value) (inside : cut <+: intText value) (nonempty : cut ≠ []) :
    (cut = ['-'] ∧ value < 0) ∨ ∃ smaller, cut = intText smaller ∧ Fits smaller := by
  rw [intText] at inside
  split at inside
  · rename_i negative
    obtain ⟨head, more, rfl⟩ := exists_cons_of_ne_nil nonempty
    obtain ⟨rfl, digits⟩ := cons_prefix_cons.mp inside
    by_cases sign : more = []
    · exact .inl ⟨by rw [sign], negative⟩
    · obtain ⟨smaller, text, below, pos⟩ := prefix_toDigits digits sign
      have above := pos (by omega)
      refine .inr ⟨-(smaller : Int), ?_, by unfold Fits at *; omega⟩
      rw [intText, if_pos (by omega), text, Int.natAbs_neg, Int.natAbs_natCast]
  · obtain ⟨smaller, text, below, -⟩ := prefix_toDigits inside nonempty
    refine .inr ⟨smaller, ?_, by unfold Fits at *; omega⟩
    rw [intText, if_neg (by omega), text, Int.natAbs_natCast]

/-! ### Words -/

theorem peekWord_append (isAlphabetic : Char → Bool) {limit : Nat} (word : Text)
    (all : ∀ char ∈ letters, isAlphabetic char = true)
    (stops : ∀ char more, rest = char :: more → isAlphabetic char = false)
    (short : byteLen (word ++ letters) ≤ limit) :
    peekWord isAlphabetic limit word (letters ++ rest) = word ++ letters := by
  induction letters generalizing word with
  | nil =>
    rw [append_nil, nil_append]
    cases rest with
    | nil => rfl
    | cons char more => rw [peekWord, stops char more rfl, Bool.false_and, if_neg Bool.false_ne_true]
  | cons char letters ih =>
    have size := char.utf8Size_pos
    rw [byteLen_append, byteLen_cons] at short
    obtain ⟨first, others⟩ := forall_mem_cons.mp all
    rw [cons_append, peekWord, first, Bool.true_and, if_pos (decide_eq_true (by omega)), ih _ others,
      append_assoc, singleton_append]
    rw [byteLen_append, byteLen_append, byteLen_cons, byteLen_nil]
    omega

/-- What the parser makes of the letters of a word. -/
structure ReadsWord (host : Host F) (limit : Nat) (letters rest : Text) : Prop where
  peeked : peekWord host.isAlphabetic limit [] (letters ++ rest) = letters
  taken : (letters ++ rest).takeWhile host.isAlphabetic = letters
  left : (letters ++ rest).dropWhile host.isAlphabetic = rest

theorem readsWord (limit : Nat) {word : Text} (alphabetic : ∀ char ∈ word, char.toNat < 128 ∧ char.isAlpha = true)
    (short : byteLen word ≤ limit) (inside : letters <+: word) (ends : Ends rest) :
    ReadsWord host limit letters rest := by
  have all : ∀ char ∈ letters, host.isAlphabetic char = true := by
    intro char among
    obtain ⟨ascii, letter⟩ := alphabetic char (inside.subset among)
    rw [host.alphabetic_ascii char ascii, letter]
  have stops : ∀ char more, rest = char :: more → host.isAlphabetic char = false := by
    intro char more text
    rcases ends char more text with rfl | rfl | rfl <;> rw [host.alphabetic_ascii _ (by decide)] <;> decide
  have size : byteLen ([] ++ letters) ≤ limit := by
    obtain ⟨more, rfl⟩ := inside
    rw [byteLen_append] at short
    rw [nil_append]
    omega
  refine ⟨peekWord_append _ [] all stops size, ?_, ?_⟩
  · rw [takeWhile_append_of_pos all]
    cases rest with
    | nil => rw [takeWhile_nil, append_nil]
    | cons char more => rw [takeWhile_cons_of_neg (by rw [stops char more rfl]; decide), append_nil]
  · rw [dropWhile_append_of_pos all]
    cases rest with
    | nil => rfl
    | cons char more => rw [dropWhile_cons_of_neg (by rw [stops char more rfl]; decide)]

/-- The beginning of a word, up to all of it, reads as the word. -/
theorem parseBool_word (lenient : parser.allowIncomplete = true) (value : Bool)
    (nonempty : letters ≠ []) (inside : letters <+: if value then "true".toList else "false".toList)
    (ends : Ends rest) : parseBool host parser (letters ++ rest) = (.ok (.bool value), rest) := by
  obtain ⟨head, more, rfl⟩ := exists_cons_of_ne_nil nonempty
  cases value with
  | true =>
    rw [if_pos rfl] at inside
    have word := readsWord host 5 (forall_mem_of_all (by decide)) (by decide) inside ends
    obtain rfl : head = 't' := (cons_prefix_cons.mp inside).1
    rw [parseBool]
    simp only [word.peeked, word.taken, word.left]
    rw [if_pos (.inr (.inr ⟨lenient, .inl inside⟩))]
    split
    · rfl
    · rw [if_neg (by simp), if_pos ⟨lenient, inside⟩]
  | false =>
    rw [if_neg Bool.false_ne_true] at inside
    have word := readsWord host 5 (forall_mem_of_all (by decide)) (by decide) inside ends
    obtain rfl : head = 'f' := (cons_prefix_cons.mp inside).1
    rw [parseBool]
    simp only [word.peeked, word.taken, word.left]
    rw [if_pos (.inr (.inr ⟨lenient, .inr inside⟩)), if_neg (by simp)]
    split
    · rfl
    · rw [if_neg (by simp), if_pos ⟨lenient, inside⟩]

theorem parseNull_word (lenient : parser.allowIncomplete = true) (inside : letters <+: "null".toList)
    (ends : Ends rest) : parseNull host parser (letters ++ rest) = (.ok .null, rest) := by
  have word := readsWord host 4 (forall_mem_of_all (by decide)) (by decide) inside ends
  rw [parseNull]
  simp only [word.peeked, word.taken, word.left]
  rw [if_pos (.inr ⟨lenient, inside⟩), if_pos (.inr ⟨lenient, inside⟩)]

end ModelGateway.PartialJson
