import Mathlib.Data.Char
import ModelGateway.CommonPrefix

/-! The text primitives of the string tree. A text is its list of characters; where the
source counts or slices bytes, the bytes of the UTF-8 encoding are spelled out, and the
byte paths are shown to count and cut characters. -/
namespace ModelGateway.StringText
open CommonPrefix List UInt8

/-- `str::as_bytes`. -/
def asBytes (text : List Char) : List UInt8 := text.flatMap String.utf8EncodeChar

/-- `[u8]::is_ascii`. -/
def isAscii (bytes : List UInt8) : Bool := bytes.all (· < 128)

/-- `&text[start..]` for a byte index on a character boundary. -/
def sliceFrom : List Char → Nat → List Char
  | text, 0 => text
  | [], _ => []
  | first :: rest, start + 1 => sliceFrom rest (start + 1 - first.utf8Size)

def advanceByChars (text : List Char) (count : Nat) : List Char :=
  if count = 0 then text
  else if (asBytes text).length ≤ count then []
  else if isAscii ((asBytes text).take count) then sliceFrom text count
  else text.drop count

def takeChars (text : List Char) (count : Nat) : List Char := text.take count

def sharedPrefixCountChars (left right : List Char) : Nat :=
  ((left.zip right).takeWhile fun pair => pair.1 == pair.2).length

/-- The common bytes are counted; they are characters when all are ASCII. -/
def sharedPrefixCount (left right : List Char) : Nat :=
  let commonByteLen := commonPrefix (asBytes left) (asBytes right)
  if isAscii ((asBytes left).take commonByteLen) then commonByteLen
  else sharedPrefixCountChars left right

/-- A text with its cached number of characters. -/
structure NodeText where
  text : List Char
  charCount : Nat
  deriving DecidableEq, Repr

namespace NodeText

def new (text : List Char) : NodeText := ⟨text, text.length⟩

def empty : NodeText := ⟨[], 0⟩

def firstChar (self : NodeText) : Option Char := self.text.head?

def splitAtChar (self : NodeText) (charIdx : Nat) : NodeText × NodeText :=
  if charIdx = 0 then (empty, self)
  else if self.charCount ≤ charIdx then (self, empty)
  else (⟨self.text.take charIdx, charIdx⟩, ⟨self.text.drop charIdx, self.charCount - charIdx⟩)

end NodeText

/-! ### The byte paths count characters -/

theorem encode_lead (char : Char) : ∃ lead tail, String.utf8EncodeChar char = lead :: tail ∧
    (lead < 128 → tail = [] ∧ char.toNat = lead.toNat) := by
  have wide : ∀ value, 128 ≤ value → value < 256 → ¬ ofNat value < 128 := by
    intro value low bound
    rw [lt_iff_toNat_lt, toNat_ofNat_of_lt' bound]
    exact Nat.not_lt.mpr low
  rw [String.utf8EncodeChar]
  simp only [show char.val.toNat = char.toNat from rfl]
  split
  · refine ⟨_, _, rfl, fun _ => ⟨rfl, (toNat_ofNat_of_lt' ?_).symm⟩⟩
    simp only [size]
    omega
  · split
    · exact ⟨_, _, rfl, fun ascii => absurd ascii (wide _ (by omega) (by omega))⟩
    · split
      · exact ⟨_, _, rfl, fun ascii => absurd ascii (wide _ (by omega) (by omega))⟩
      · exact ⟨_, _, rfl, fun ascii => absurd ascii (wide _ (by omega) (by omega))⟩

theorem sharedPrefixCountChars_eq (left right : List Char) :
    sharedPrefixCountChars left right = commonPrefix left right := by
  induction left generalizing right with
  | nil => simp [sharedPrefixCountChars, commonPrefix]
  | cons first left ih =>
    cases right with
    | nil => simp [sharedPrefixCountChars, commonPrefix]
    | cons second right =>
      by_cases same : first = second
      · have tail := ih right
        simp only [sharedPrefixCountChars] at tail
        simp [sharedPrefixCountChars, commonPrefix, same, tail]
      · simp [sharedPrefixCountChars, commonPrefix, same]

/-- Whichever path is taken, the shared characters are counted. -/
theorem sharedPrefixCount_eq (left right : List Char) : sharedPrefixCount left right = commonPrefix left right := by
  simp only [sharedPrefixCount]
  split
  · rename_i ascii
    induction left generalizing right with
    | nil => simp [asBytes, commonPrefix]
    | cons first left ih =>
      cases right with
      | nil => cases bytes : asBytes (first :: left) <;> simp [asBytes, commonPrefix]
      | cons second right =>
        simp only [asBytes, flatMap_cons] at ascii ih ⊢
        obtain ⟨lead, tail, encoded, single⟩ := encode_lead first
        obtain ⟨lead', tail', encoded', single'⟩ := encode_lead second
        by_cases shared : lead = lead'
        · -- a shared first byte is ASCII, so it is all of both characters
          subst shared
          have low : lead < 128 := by
            simp [encoded, encoded', commonPrefix, isAscii] at ascii
            exact ascii.1
          obtain rfl : first = second := Char.toNat_inj.mp ((single low).2.trans (single' low).2.symm)
          simp only [encoded, (single low).1, cons_append, nil_append, commonPrefix, if_true,
            take_succ_cons, isAscii, all_cons, Bool.and_eq_true] at ascii ⊢
          rw [ih right ascii.2]
        · have same : first ≠ second := by
            rintro rfl
            rw [encoded] at encoded'
            exact shared (List.cons.inj encoded').1
          simp [encoded, encoded', commonPrefix, same, shared]
  · exact sharedPrefixCountChars_eq left right

theorem length_le_asBytes (text : List Char) : text.length ≤ (asBytes text).length := by
  induction text with
  | nil => exact le_rfl
  | cons first text ih =>
    simp only [asBytes, flatMap_cons, length_append, length_cons, String.length_utf8EncodeChar] at ih ⊢
    have := first.utf8Size_pos
    omega

theorem sliceFrom_ascii {text : List Char} {count : Nat}
    (ascii : isAscii ((asBytes text).take count) = true) : sliceFrom text count = text.drop count := by
  induction text generalizing count with
  | nil => cases count <;> rfl
  | cons first text ih =>
    cases count with
    | zero => rfl
    | succ count =>
      simp only [asBytes, flatMap_cons] at ascii
      obtain ⟨lead, tail, encoded, single⟩ := encode_lead first
      simp only [encoded, cons_append, take_succ_cons, isAscii, all_cons, Bool.and_eq_true,
        decide_eq_true_eq] at ascii
      obtain rfl := (single ascii.1).1
      rw [sliceFrom, ← String.length_utf8EncodeChar, encoded, length_singleton, Nat.add_sub_cancel, drop_succ_cons]
      exact ih ascii.2

theorem advanceByChars_eq (text : List Char) (count : Nat) : advanceByChars text count = text.drop count := by
  simp only [advanceByChars]
  split
  · rename_i zero
    rw [zero, drop_zero]
  · split
    · rename_i past
      exact (drop_eq_nil_of_le ((length_le_asBytes text).trans past)).symm
    · split
      · exact sliceFrom_ascii ‹_›
      · rfl

end ModelGateway.StringText
