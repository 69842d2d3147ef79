import Mathlib.Data.Char
import Mathlib.Data.List.Infix
import Mathlib.Data.Nat.Find

/-! Texts and their UTF-8 bytes. A text is its list of characters; lengths and positions count
bytes, and a position can be cut at only between two characters. The encoding synchronises itself:
the bytes of a text that is not empty occur among those of another only where the text itself does. -/
namespace ModelGateway.Utf8
open List Option Nat
open String (utf8EncodeChar)

def bytes (text : List Char) : List UInt8 := text.flatMap String.utf8EncodeChar

def byteLen (text : List Char) : Nat := (bytes text).length

@[simp] theorem bytes_nil : bytes [] = [] := rfl

theorem bytes_cons (char : Char) (text : List Char) :
    bytes (char :: text) = utf8EncodeChar char ++ bytes text := flatMap_cons

@[simp] theorem bytes_append (first second : List Char) :
    bytes (first ++ second) = bytes first ++ bytes second := flatMap_append

@[simp] theorem byteLen_nil : byteLen [] = 0 := rfl

theorem byteLen_cons (char : Char) (text : List Char) : byteLen (char :: text) = char.utf8Size + byteLen text := by
  rw [byteLen, bytes_cons, length_append, String.length_utf8EncodeChar, byteLen]

@[simp] theorem byteLen_append (first second : List Char) :
    byteLen (first ++ second) = byteLen first + byteLen second := by
  rw [byteLen, bytes_append, length_append, byteLen, byteLen]

variable {text pre : List Char} {position steps start boundary : Nat}

theorem byteLen_eq_zero : byteLen text = 0 ↔ text = [] := by
  cases text with
  | nil => simp
  | cons char rest =>
    have := char.utf8Size_pos
    simp only [byteLen_cons, cons_ne_nil, iff_false]
    omega

/-! ### Cutting -/

/-- The two parts of the text at a byte position, if the position is between characters. -/
def splitAt? : List Char → Nat → Option (List Char × List Char)
  | text, 0 => some ([], text)
  | [], _ + 1 => none
  | char :: rest, position + 1 =>
    if char.utf8Size ≤ position + 1 then
      (splitAt? rest (position + 1 - char.utf8Size)).map fun parts => (char :: parts.1, parts.2)
    else none

def isCharBoundary (text : List Char) (position : Nat) : Bool := (splitAt? text position).isSome

theorem splitAt?_byteLen (pre post : List Char) :
    splitAt? (pre ++ post) (byteLen pre) = some (pre, post) := by
  induction pre with
  | nil =>
    rw [nil_append, byteLen_nil]
    cases post <;> rfl
  | cons char rest ih =>
    have pos := char.utf8Size_pos
    obtain ⟨position, size⟩ : ∃ position, byteLen (char :: rest) = position + 1 :=
      ⟨byteLen (char :: rest) - 1, by rw [byteLen_cons]; omega⟩
    have fits : char.utf8Size ≤ position + 1 := by rw [← size, byteLen_cons]; omega
    have remaining : position + 1 - char.utf8Size = byteLen rest := by
      rw [← size, byteLen_cons, Nat.add_sub_cancel_left]
    rw [cons_append, size, splitAt?, if_pos fits, remaining, ih, map_some]

theorem splitAt?_eq_some {post : List Char} :
    splitAt? text position = some (pre, post) ↔ text = pre ++ post ∧ byteLen pre = position := by
  constructor
  · intro cut
    induction text generalizing position pre with
    | nil =>
      cases position with
      | zero =>
        cases cut
        exact ⟨rfl, rfl⟩
      | succ position => cases cut
    | cons char rest ih =>
      cases position with
      | zero =>
        cases cut
        exact ⟨rfl, rfl⟩
      | succ position =>
        rw [splitAt?] at cut
        split at cut
        · obtain ⟨⟨head, tail⟩, inner, parts⟩ := map_eq_some_iff.mp cut
          obtain ⟨rfl, rfl⟩ : char :: head = pre ∧ tail = post := Prod.mk.inj parts
          obtain ⟨whole, size⟩ := ih inner
          refine ⟨congrArg (char :: ·) whole, ?_⟩
          rw [byteLen_cons]
          omega
        · cases cut
  · rintro ⟨rfl, rfl⟩
    exact splitAt?_byteLen pre post

theorem isCharBoundary_iff : isCharBoundary text position = true ↔
      ∃ pre post, text = pre ++ post ∧ byteLen pre = position := by
  simp only [isCharBoundary, isSome_iff_exists, Prod.exists, splitAt?_eq_some]

theorem isCharBoundary_byteLen (pre post : List Char) :
    isCharBoundary (pre ++ post) (byteLen pre) = true :=
  isCharBoundary_iff.mpr ⟨pre, post, rfl, rfl⟩

theorem prefix_of_byteLen_le {first second left right : List Char}
    (same : first ++ left = second ++ right) (shorter : byteLen first ≤ byteLen second) :
    ∃ middle, second = first ++ middle ∧ left = middle ++ right := by
  rcases append_eq_append_iff.mp same with ⟨middle, second, left⟩ | ⟨middle, first, right⟩
  · exact ⟨middle, second, left⟩
  · rw [first, byteLen_append] at shorter
    have none : middle = [] := byteLen_eq_zero.mp (by omega)
    subst none
    rw [append_nil] at first
    rw [nil_append] at right
    exact ⟨[], by rw [first, append_nil], right.symm⟩

/-! ### Moving to a boundary -/

/-- The first boundary at or after a position, not beyond the end of the text. -/
def walkForward (text : List Char) : Nat → Nat → Nat
  | 0, start => start
  | steps + 1, start =>
    if start < byteLen text ∧ isCharBoundary text start = false then walkForward text steps (start + 1)
    else start

/-- The last boundary at or before a position. -/
def walkBack (text : List Char) : Nat → Nat
  | 0 => 0
  | position + 1 =>
    if isCharBoundary text (position + 1) then position + 1 else walkBack text position

theorem walkForward_le (reachable : isCharBoundary text boundary = true) (ahead : start ≤ boundary) :
    walkForward text steps start ≤ boundary := by
  induction steps generalizing start with
  | zero => exact ahead
  | succ steps ih =>
    rw [walkForward]
    split
    · rename_i mem
      refine ih ?_
      rcases eq_or_lt_of_le ahead with rfl | further
      · rw [reachable] at mem
        exact absurd mem.2 nofun
      · exact further
    · exact ahead

theorem isCharBoundary_walkForward (enough : byteLen text ≤ start + steps) (within : start ≤ byteLen text) :
    isCharBoundary text (walkForward text steps start) = true := by
  have last : isCharBoundary text (byteLen text) = true := isCharBoundary_iff.mpr ⟨text, [], (append_nil _).symm, rfl⟩
  induction steps generalizing start with
  | zero =>
    rw [walkForward, le_antisymm within (by omega)]
    exact last
  | succ steps ih =>
    rw [walkForward]
    split
    · exact ih (by omega) (by omega)
    · rename_i stop
      rw [not_and_or, not_lt, Bool.not_eq_false] at stop
      rcases stop with past | reached
      · rwa [le_antisymm within past]
      · exact reached

theorem walkForward_append (post : List Char) (within : position ≤ byteLen pre) :
    ∃ skipped kept, pre = skipped ++ kept ∧
      walkForward (pre ++ post) (byteLen (pre ++ post) - position) position = byteLen skipped ∧
      ∀ inner rest, pre = inner ++ rest → position ≤ byteLen inner → byteLen skipped ≤ byteLen inner := by
  have mem : position ≤ byteLen (pre ++ post) := by rw [byteLen_append]; omega
  obtain ⟨skipped, rest, whole, size⟩ := isCharBoundary_iff.mp
    (isCharBoundary_walkForward (le_of_eq (add_sub_of_le mem).symm) mem)
  have notPast : byteLen skipped ≤ byteLen pre := by
    rw [size]
    exact walkForward_le (isCharBoundary_byteLen pre post) within
  obtain ⟨kept, split, -⟩ := prefix_of_byteLen_le whole.symm notPast
  refine ⟨skipped, kept, split, size.symm, fun inner rest parts ahead => ?_⟩
  rw [size]
  refine walkForward_le ?_ ahead
  rw [parts, append_assoc]
  exact isCharBoundary_byteLen _ _

theorem walkBack_eq (text : List Char) (position : Nat) :
    walkBack text position = findGreatest (isCharBoundary text · = true) position := by
  induction position with
  | zero => rfl
  | succ position ih => rw [walkBack, findGreatest_succ, ih]

theorem isCharBoundary_walkBack (text : List Char) (position : Nat) :
    isCharBoundary text (walkBack text position) = true := by
  rw [walkBack_eq]
  exact findGreatest_spec (P := (isCharBoundary text · = true)) (zero_le _)
    (isCharBoundary_iff.mpr ⟨[], text, rfl, rfl⟩)

theorem walkBack_le (text : List Char) (position : Nat) : walkBack text position ≤ position := by
  rw [walkBack_eq]
  exact findGreatest_le position

theorem exists_boundary_near (within : position ≤ byteLen text) :
    ∃ boundary, isCharBoundary text boundary = true ∧ boundary ≤ position ∧ position ≤ boundary + 3 := by
  induction text generalizing position with
  | nil => exact ⟨0, rfl, zero_le _, by rw [byteLen_nil] at within; omega⟩
  | cons char rest ih =>
    have small := char.utf8Size_le_four
    rw [byteLen_cons] at within
    rcases lt_or_ge position char.utf8Size with first | later
    · exact ⟨0, isCharBoundary_iff.mpr ⟨[], _, rfl, rfl⟩, zero_le _, by omega⟩
    · have inRest : position - char.utf8Size ≤ byteLen rest := by omega
      obtain ⟨boundary, reachable, behind, near⟩ := ih inRest
      obtain ⟨pre, post, whole, size⟩ := isCharBoundary_iff.mp reachable
      refine ⟨char.utf8Size + boundary, ?_, by omega, by omega⟩
      refine isCharBoundary_iff.mpr ⟨char :: pre, post, congrArg (char :: ·) whole, ?_⟩
      rw [byteLen_cons, size]

theorem le_walkBack_add_three (within : position ≤ byteLen text) : position ≤ walkBack text position + 3 := by
  obtain ⟨boundary, reachable, behind, near⟩ := exists_boundary_near within
  rw [walkBack_eq]
  exact Nat.le_trans near (Nat.add_le_add_right (Nat.le_findGreatest behind reachable) 3)

/-! ### Synchronisation -/

theorem encode_append_inj {first second : Char} {left right : List UInt8}
    (same : utf8EncodeChar first ++ left = utf8EncodeChar second ++ right) :
    first = second ∧ left = right := by
  have decoded (char : Char) (rest : List UInt8) :
      (utf8EncodeChar char ++ rest).toByteArray.utf8DecodeChar? 0 = some char := by
    rw [toByteArray_append]
    exact ByteArray.utf8DecodeChar?_utf8EncodeChar_append
  have equal : first = second := by
    have agree := decoded first left
    rw [same, decoded second right] at agree
    exact (some.inj agree).symm
  subst equal
  exact ⟨rfl, append_cancel_left same⟩

theorem bytes_prefix {other : List Char} {rest : List UInt8} (same : bytes other = bytes text ++ rest) :
    ∃ post, other = text ++ post ∧ bytes post = rest := by
  induction text generalizing other with
  | nil => exact ⟨other, rfl, same⟩
  | cons char text ih =>
    rw [bytes_cons, append_assoc] at same
    cases other with
    | nil => exact absurd (append_eq_nil_iff.mp same.symm).1 String.utf8EncodeChar_ne_nil
    | cons first other =>
      rw [bytes_cons] at same
      obtain ⟨rfl, remaining⟩ := encode_append_inj same
      obtain ⟨post, rfl, encoded⟩ := ih remaining
      exact ⟨post, rfl, encoded⟩

theorem head_isFirst {head : UInt8} {tail post : List UInt8} (nonempty : text ≠ [])
    (encoded : bytes text ++ post = head :: tail) : head.IsUTF8FirstByte := by
  obtain ⟨char, rest, rfl⟩ := exists_cons_of_ne_nil nonempty
  have pos : 0 < (utf8EncodeChar char).length := length_pos_iff.mpr String.utf8EncodeChar_ne_nil
  have first : (utf8EncodeChar char)[0] = head := by
    have := congrArg List.head? encoded
    rw [bytes_cons, append_assoc, head?_append_of_ne_nil _ String.utf8EncodeChar_ne_nil, head?_cons,
      head?_eq_getElem?, getElem?_eq_getElem pos] at this
    exact some.inj this
  rw [← first]
  exact UInt8.isUTF8FirstByte_getElem_utf8EncodeChar.mpr rfl

/-- The bytes of a text that is not empty occur only at an occurrence of the text. -/
theorem bytes_infix {whole : List Char} {pre post : List UInt8} (nonempty : text ≠ [])
    (occurs : bytes whole = pre ++ (bytes text ++ post)) :
    ∃ left right, whole = left ++ (text ++ right) ∧ bytes left = pre ∧ bytes right = post := by
  induction whole generalizing pre with
  | nil =>
    have nothing := (append_eq_nil_iff.mp (append_eq_nil_iff.mp occurs.symm).2).1
    exact absurd (byteLen_eq_zero.mp (length_eq_zero_iff.mpr nothing)) nonempty
  | cons char rest ih =>
    cases pre with
    | nil =>
      obtain ⟨right, whole, encoded⟩ := bytes_prefix occurs
      exact ⟨[], right, whole, rfl, encoded⟩
    | cons head tail =>
      rw [bytes_cons] at occurs
      have behind : ∃ later, head :: tail = utf8EncodeChar char ++ later ∧
          bytes rest = later ++ (bytes text ++ post) := by
        rcases append_eq_append_iff.mp occurs with behind | ⟨inner, split, remaining⟩
        · exact behind
        · cases inner with
          | nil => exact ⟨[], by rw [split, append_nil, append_nil], remaining.symm⟩
          | cons mem others =>
            -- a byte inside the character would begin the text
            have first := head_isFirst nonempty remaining
            have bound : (head :: tail).length < (utf8EncodeChar char).length := by
              rw [split, length_append, length_cons (a := mem)]
              omega
            have found : (utf8EncodeChar char)[(head :: tail).length] = mem := by
              simp only [split, getElem_append_right (Nat.le_refl _), Nat.sub_self, getElem_cons_zero]
            rw [← found, UInt8.isUTF8FirstByte_getElem_utf8EncodeChar] at first
            exact absurd first (by simp)
      obtain ⟨later, split, remaining⟩ := behind
      obtain ⟨left, right, whole, encodedLeft, encodedRight⟩ := ih remaining
      refine ⟨char :: left, right, congrArg (char :: ·) whole, ?_, encodedRight⟩
      rw [bytes_cons, encodedLeft, split]

end ModelGateway.Utf8
