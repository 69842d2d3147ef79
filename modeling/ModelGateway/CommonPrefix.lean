import Mathlib.Data.List.Infix

/-! The length of the longest common prefix of two lists. -/
namespace ModelGateway.CommonPrefix
open List

variable {α : Type} [DecidableEq α] {firsts seconds : List α} {count : Nat}

def commonPrefix : List α → List α → Nat
  | first :: firsts, second :: seconds =>
    if first = second then commonPrefix firsts seconds + 1 else 0
  | _, _ => 0

theorem le_commonPrefix_iff : count ≤ commonPrefix firsts seconds ↔
      count ≤ seconds.length ∧ seconds.take count <+: firsts := by
  induction firsts generalizing seconds count with
  | nil => cases seconds <;> cases count <;> simp [commonPrefix]
  | cons first firsts ih =>
    cases seconds with
    | nil => cases count <;> simp [commonPrefix]
    | cons second seconds =>
      cases count with
      | zero => simp
      | succ count =>
        by_cases same : first = second
        · simp [commonPrefix, same, ih]
        · simp [commonPrefix, same, Ne.symm same]

theorem commonPrefix_comm (firsts seconds : List α) : commonPrefix firsts seconds = commonPrefix seconds firsts := by
  induction firsts generalizing seconds with
  | nil => cases seconds <;> rfl
  | cons first firsts ih =>
    cases seconds with
    | nil => rfl
    | cons second seconds =>
      rw [commonPrefix, commonPrefix, ih seconds]
      exact if_congr eq_comm rfl rfl

theorem commonPrefix_le_right (firsts seconds : List α) : commonPrefix firsts seconds ≤ seconds.length :=
  (le_commonPrefix_iff.mp le_rfl).1

theorem commonPrefix_le_left (firsts seconds : List α) : commonPrefix firsts seconds ≤ firsts.length := by
  have within := (le_commonPrefix_iff.mp (le_refl (commonPrefix firsts seconds))).2.length_le
  rwa [length_take, Nat.min_eq_left (commonPrefix_le_right firsts seconds)] at within

/-- A beginning of a text ends inside an edge, or goes past the whole edge. -/
theorem take_along_iff {text edge : List α} (within : count ≤ text.length) (holds : List α → Prop) :
    (text.take count <+: edge ∨ ∃ tail, text.take count = edge ++ tail ∧ holds tail) ↔
      count ≤ commonPrefix text edge ∨ (edge.length = commonPrefix text edge ∧ edge.length ≤ count ∧
        holds ((text.drop edge.length).take (count - edge.length))) := by
  have mem : text.take count <+: edge ↔ count ≤ commonPrefix text edge := by
    rw [commonPrefix_comm, le_commonPrefix_iff, and_iff_right within]
  have whole : edge <+: text ↔ edge.length = commonPrefix text edge := by
    rw [Nat.eq_iff_le_and_ge, le_commonPrefix_iff, take_length]
    simp [commonPrefix_le_right]
  rw [mem]
  refine or_congr_right ⟨?_, ?_⟩
  · rintro ⟨tail, same, held⟩
    have along : edge <+: text := ⟨tail ++ text.drop count, by
      rw [← append_assoc, ← same, take_append_drop]⟩
    have length : edge.length ≤ count := by
      have := congrArg length same
      rw [length_take, length_append] at this
      omega
    refine ⟨whole.mp along, length, ?_⟩
    rw [← drop_take, same, drop_left]
    exact held
  · rintro ⟨full, length, held⟩
    obtain ⟨tail, rfl⟩ := whole.mpr full
    refine ⟨tail.take (count - edge.length), ?_, ?_⟩
    · rw [take_append, take_of_length_le length]
    · rwa [drop_left] at held

theorem take_commonPrefix (firsts seconds : List α) :
    firsts.take (commonPrefix firsts seconds) = seconds.take (commonPrefix firsts seconds) := by
  obtain ⟨within, starts⟩ := le_commonPrefix_iff.mp (le_refl (commonPrefix firsts seconds))
  have same := prefix_iff_eq_take.mp starts
  rw [length_take, Nat.min_eq_left within] at same
  exact same.symm

theorem commonPrefix_pos {head : α} (first : firsts.head? = some head)
    (second : seconds.head? = some head) : 0 < commonPrefix firsts seconds := by
  cases firsts with
  | nil => cases first
  | cons _ firsts =>
    cases seconds with
    | nil => cases second
    | cons _ seconds =>
      cases first
      cases second
      rw [commonPrefix, if_pos rfl]
      exact Nat.succ_pos _

theorem drop_commonPrefix_ne {left right : α} (first : (firsts.drop (commonPrefix firsts seconds)).head? = some left)
    (second : (seconds.drop (commonPrefix firsts seconds)).head? = some right) : left ≠ right := by
  induction firsts generalizing seconds with
  | nil => simp at first
  | cons head firsts ih =>
    cases seconds with
    | nil => simp at second
    | cons other seconds =>
      rw [commonPrefix] at first second
      split at first
      · rename_i same
        rw [if_pos same] at second
        exact ih first second
      · rename_i differs
        rw [if_neg differs] at second
        cases first
        cases second
        exact differs

end ModelGateway.CommonPrefix
