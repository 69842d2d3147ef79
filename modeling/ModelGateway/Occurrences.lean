import Mathlib.Data.List.Infix

/-! Occurrences of a pattern in a text: the first one, the text with all of them removed, and what
both make of a text that is cut in two where no occurrence crosses the cut. -/
namespace ModelGateway.Occurrences
open List Option Nat
variable {α : Type}

/-- The pattern occurs across the cut. -/
def Straddles (pattern left right : List α) : Prop :=
  ∃ first second, first ≠ [] ∧ second ≠ [] ∧ pattern = first ++ second ∧ first <:+ left ∧ second <+: right

variable {pattern left right text : List α} {pos : Nat} {pre post : List α}

theorem not_straddles_tail {head : α} (clean : ¬ Straddles pattern (head :: left) right) :
    ¬ Straddles pattern left right := by
  rintro ⟨first, second, some, more, whole, ends, starts⟩
  exact clean ⟨first, second, some, more, whole, ends.trans (suffix_cons _ _), starts⟩

theorem straddles_iff : Straddles pattern left right ↔
    ∃ size ∈ range pattern.length, 0 < size ∧ pattern.take size <:+ left ∧ pattern.drop size <+: right := by
  constructor
  · rintro ⟨first, second, some, more, rfl, ends, starts⟩
    have pre := length_pos_iff.mpr some
    have behind := length_pos_iff.mpr more
    refine ⟨first.length, mem_range.mpr (by rw [length_append]; omega), pre, ?_, ?_⟩
    · rwa [take_left]
    · rwa [drop_left]
  · rintro ⟨size, inside, positive, ends, starts⟩
    have within := mem_range.mp inside
    refine ⟨_, _, ?_, ?_, (take_append_drop size pattern).symm, ends, starts⟩
    · rw [← length_pos_iff, length_take]
      omega
    · rw [← length_pos_iff, length_drop]
      omega

variable [DecidableEq α]

instance (pattern left right : List α) : Decidable (Straddles pattern left right) :=
  decidable_of_iff' _ straddles_iff

/-! ### The first occurrence -/

/-- The position of the first occurrence. -/
def find (pattern : List α) : List α → Option Nat
  | [] => if pattern = [] then some 0 else none
  | first :: rest =>
    if pattern.isPrefixOf (first :: rest) then some 0 else (find pattern rest).map (· + 1)

theorem find_eq_some (found : find pattern text = some pos) :
    ∃ pre post, text = pre ++ pattern ++ post ∧ pre.length = pos := by
  induction text generalizing pos with
  | nil =>
    rw [find] at found
    split at found
    · rename_i empty
      cases found
      exact ⟨[], [], by rw [empty]; rfl, rfl⟩
    · cases found
  | cons first rest ih =>
    rw [find] at found
    split at found
    · rename_i starts
      cases found
      obtain ⟨post, whole⟩ := isPrefixOf_iff_prefix.mp starts
      exact ⟨[], post, whole.symm, rfl⟩
    · obtain ⟨inner, later, rfl⟩ := map_eq_some_iff.mp found
      obtain ⟨pre, post, whole, size⟩ := ih later
      exact ⟨first :: pre, post, congrArg (first :: ·) whole, congrArg (· + 1) size⟩

theorem find_isSome : (find pattern text).isSome = true ↔ pattern <:+: text := by
  induction text with
  | nil =>
    rw [find, infix_nil]
    split <;> simp_all
  | cons first rest ih =>
    rw [find, infix_cons_iff]
    split
    · rename_i starts
      exact iff_of_true rfl (.inl ( isPrefixOf_iff_prefix.mp starts))
    · rename_i other
      rw [isSome_map, ih, or_iff_right (mt isPrefixOf_iff_prefix.mpr other)]

def contains (pattern text : List α) : Bool := (find pattern text).isSome

theorem contains_iff : contains pattern text = true ↔ pattern <:+: text := find_isSome

theorem isPrefixOf_append (nonempty : left ≠ []) (clean : ¬ Straddles pattern left right) :
    pattern.isPrefixOf (left ++ right) = pattern.isPrefixOf left := by
  rw [Bool.eq_iff_iff, isPrefixOf_iff_prefix, isPrefixOf_iff_prefix]
  refine ⟨fun starts => ?_, fun starts => starts.trans (prefix_append _ _)⟩
  rcases prefix_or_prefix_of_prefix starts (prefix_append left right) with inside | ⟨second, longer⟩
  · exact inside
  · by_cases none : second = []
    · rw [none, append_nil] at longer
      rw [longer]
    · refine absurd ⟨left, second, nonempty, none, longer.symm, suffix_rfl, ?_⟩ clean
      rw [← longer, prefix_append_right_inj] at starts
      exact starts

theorem contains_append (clean : ¬ Straddles pattern left right) :
    contains pattern (left ++ right) = (contains pattern left || contains pattern right) := by
  rw [Bool.eq_iff_iff, Bool.or_eq_true, contains_iff, contains_iff, contains_iff, infix_append_iff_ne_nil]
  exact ⟨fun occurs => occurs.imp_right fun later => later.resolve_right clean, fun occurs => occurs.imp_right .inl⟩

/-! ### Removing all occurrences -/

/-- Leaves out the next `skip` values, and every occurrence of the pattern after them. -/
def removeFrom (pattern : List α) : Nat → List α → List α
  | _, [] => []
  | skip + 1, _ :: rest => removeFrom pattern skip rest
  | 0, first :: rest =>
    if pattern ≠ [] ∧ pattern.isPrefixOf (first :: rest) then removeFrom pattern (pattern.length - 1) rest
    else first :: removeFrom pattern 0 rest

/-- `replace` by nothing. -/
def removeAll (pattern text : List α) : List α := removeFrom pattern 0 text

theorem removeFrom_append {skip : Nat} (clean : ¬ Straddles pattern left right) (inside : skip ≤ left.length) :
    removeFrom pattern skip (left ++ right) = removeFrom pattern skip left ++ removeAll pattern right := by
  induction left generalizing skip with
  | nil =>
    obtain rfl : skip = 0 := le_zero.mp inside
    rfl
  | cons head left ih =>
    have tail := not_straddles_tail clean
    cases skip with
    | succ skip => exact ih tail (le_of_succ_le_succ inside)
    | zero =>
      have same := isPrefixOf_append (cons_ne_nil head left) clean
      rw [cons_append] at same
      rw [cons_append, removeFrom, removeFrom, same]
      split
      · rename_i occurs
        refine ih tail ?_
        have size := ( isPrefixOf_iff_prefix.mp occurs.2).length_le
        rw [length_cons] at size
        omega
      · rw [ih tail (zero_le _), cons_append]

theorem removeFrom_sublist (pattern text : List α) (skip : Nat) : (removeFrom pattern skip text).Sublist text := by
  induction text generalizing skip with
  | nil =>
    rw [removeFrom]
  | cons head rest ih =>
    cases skip with
    | succ skip => exact (ih skip).cons head
    | zero =>
      rw [removeFrom]
      split
      · exact (ih _).cons head
      · exact (ih 0).cons_cons head

theorem removeAll_of_not_contains (absent : contains pattern text = false) : removeAll pattern text = text := by
  rw [Bool.eq_false_iff, Ne, contains_iff] at absent
  induction text with
  | nil => rfl
  | cons head rest ih =>
    rw [infix_cons_iff, not_or] at absent
    rw [removeAll, removeFrom, if_neg fun occurs =>
      absent.1 ( isPrefixOf_iff_prefix.mp occurs.2), ← removeAll, ih absent.2]

/-! ### Cutting at the first occurrence -/

/-- The text before the first occurrence and the text behind it, if it starts before the end. -/
def cutAt (pattern text : List α) : Option (List α × List α) :=
  match find pattern text with
  | none => none
  | some index =>
    if index < text.length then some (text.take index, text.drop (index + pattern.length)) else none

theorem cutAt_eq_some (cut : cutAt pattern text = some (pre, post)) : text = pre ++ pattern ++ post := by
  rw [cutAt] at cut
  split at cut
  · cases cut
  · rename_i index found
    split at cut
    · obtain ⟨first, rest, whole, size⟩ := find_eq_some found
      cases cut
      nth_rewrite 1 [whole]
      rw [whole, ← size, append_assoc, take_left, ← length_append, ← append_assoc, drop_left]
    · cases cut

/-- The first occurrence in the first part stays the first. -/
theorem find_append_left {index : Nat} (found : find pattern left = some index) :
    find pattern (left ++ right) = some index := by
  induction left generalizing index with
  | nil =>
    rw [find] at found
    split at found
    · rename_i empty
      cases found
      cases right with
      | nil => rw [nil_append, find, if_pos empty]
      | cons head right => rw [nil_append, find, if_pos (by rw [empty]; rfl)]
    · cases found
  | cons head left ih =>
    rw [find] at found
    rw [cons_append, find]
    split at found
    · rename_i starts
      have longer : pattern.isPrefixOf (head :: (left ++ right)) = true := isPrefixOf_iff_prefix.mpr
          (( isPrefixOf_iff_prefix.mp starts).trans (prefix_append (head :: left) right))
      rw [if_pos longer]
      exact found
    · rename_i other
      obtain ⟨inner, later, rfl⟩ := map_eq_some_iff.mp found
      have fits : pattern.length ≤ (head :: left).length := by
        obtain ⟨pre, post, whole, -⟩ := find_eq_some later
        rw [length_cons, whole, length_append, length_append]
        omega
      have still : ¬ pattern.isPrefixOf (head :: (left ++ right)) = true := by
        rw [ isPrefixOf_iff_prefix] at other ⊢
        exact fun starts => other (prefix_of_prefix_length_le starts (prefix_append (head :: left) right) fits)
      rw [if_neg still, ih later, map_some]

theorem find_append_right (absent : find pattern left = none) (clean : ¬ Straddles pattern left right) :
    find pattern (left ++ right) = (find pattern right).map (· + left.length) := by
  induction left with
  | nil =>
    rw [nil_append, length_nil]
    cases find pattern right <;> rfl
  | cons head left ih =>
    rw [find] at absent
    split at absent
    · cases absent
    · rename_i other
      have same := isPrefixOf_append (cons_ne_nil head left) clean
      rw [cons_append] at same
      rw [cons_append, find, same, if_neg other,
        ih (map_eq_none_iff.mp absent) (not_straddles_tail clean), Option.map_map]
      rfl

theorem cutAt_append_left (right : List α) (cut : cutAt pattern left = some (pre, post)) :
    cutAt pattern (left ++ right) = some (pre, post ++ right) := by
  have whole := cutAt_eq_some cut
  rw [cutAt] at cut
  split at cut
  · cases cut
  · rename_i index found
    split at cut
    · rename_i inside
      cases cut
      have within : index + pattern.length ≤ left.length := by
        obtain ⟨first, rest, parts, rfl⟩ := find_eq_some found
        rw [parts, length_append, length_append]
        omega
      have longer : index < (left ++ right).length := by
        rw [length_append]
        omega
      rw [cutAt, find_append_left found]
      dsimp only
      rw [if_pos longer, take_append_of_le_length (le_of_lt inside), drop_append_of_le_length within]
    · cases cut

theorem cutAt_append_right (uncut : cutAt pattern left = none) (clean : ¬ Straddles pattern left right) :
    cutAt pattern (left ++ right) = (cutAt pattern right).map fun parts => (left ++ parts.1, parts.2) := by
  cases found : find pattern left with
  | some index =>
    -- an occurrence that does not start before the end is the empty pattern in the empty text
    have empty : left = [] := by
      cases left with
      | nil => rfl
      | cons head left =>
        exfalso
        obtain ⟨pre, post, whole, rfl⟩ := find_eq_some found
        rw [cutAt, found] at uncut
        dsimp only at uncut
        split at uncut
        · cases uncut
        · rename_i outside
          have sizes := congrArg length whole
          rw [length_append, length_append, length_cons] at sizes
          rw [length_cons] at outside
          have none : pattern = [] := eq_nil_of_length_eq_zero (by omega)
          have first : find ([] : List α) (head :: left) = some 0 := rfl
          rw [none, first] at found
          cases pre with
          | nil => exact outside (succ_pos _)
          | cons first pre => cases found
    subst empty
    rw [nil_append]
    cases cutAt pattern right <;> rfl
  | none =>
    rw [cutAt, cutAt, find_append_right found clean]
    cases find pattern right with
    | none => rfl
    | some index =>
      dsimp only [map_some]
      rw [length_append]
      by_cases inside : index < right.length
      · rw [if_pos (by omega), if_pos inside, map_some]
        congr 2
        · rw [Nat.add_comm, take_length_add_append]
        · rw [Nat.add_right_comm, Nat.add_comm, drop_length_add_append]
      · rw [if_neg (by omega), if_neg inside, map_none]

end ModelGateway.Occurrences
