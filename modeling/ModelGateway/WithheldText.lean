import Mathlib.Data.List.Infix

/-! Text that a reader of chunks holds back because it may begin a token.  What was let through and what is
held back make up the text seen so far, and no beginning of the token crosses the border between them. -/
namespace ModelGateway.WithheldText
open List
variable {α : Type} {token part text seen emitted buffer chunk rest : List α} {first : α}

/-- A beginning of the token, not empty and not all of it. -/
structure IsPart (token part : List α) : Prop where
  nonempty : part ≠ []
  begins : part <+: token
  proper : part ≠ token

/-- The text ends with a beginning of the token. -/
def EndsPartly (token text : List α) : Prop := ∃ part, IsPart token part ∧ part <:+ text

theorem IsPart.length_lt (is : IsPart token part) : part.length < token.length :=
  lt_of_le_of_ne is.begins.length_le fun same => is.proper (is.begins.eq_of_length same)

theorem isPart_iff_take : IsPart token part ↔ ∃ size, 0 < size ∧ size < token.length ∧ part = token.take size := by
  constructor
  · intro is
    exact ⟨part.length, length_pos_iff.mpr is.nonempty, is.length_lt, prefix_iff_eq_take.mp is.begins⟩
  · rintro ⟨size, pos, mem, rfl⟩
    have length : (token.take size).length = size := by rw [length_take]; omega
    refine ⟨?_, take_prefix _ _, fun same => ?_⟩
    · rw [← length_pos_iff, length]
      exact pos
    · rw [same] at length
      omega

theorem IsPart.unique {other : List α} (fresh : first ∉ rest) (is : IsPart (first :: rest) part)
    (also : IsPart (first :: rest) other) (ends : part <:+ other) : part = other := by
  obtain ⟨front, rfl⟩ := ends
  cases front with
  | nil => rfl
  | cons head front =>
    exfalso
    obtain ⟨post, whole⟩ := also.begins
    obtain ⟨tail, rfl⟩ : ∃ tail, part = first :: tail := by
      obtain ⟨behind, split⟩ := is.begins
      cases part with
      | nil => exact absurd rfl is.nonempty
      | cons symbol tail => exact ⟨tail, by rw [(cons.inj split).1]⟩
    rw [cons_append, cons_append, append_assoc] at whole
    apply fresh
    rw [← (cons.inj whole).2]
    simp

/-- What was let through and what is held back, after some text. -/
structure Holds (token seen emitted buffer : List α) : Prop where
  whole : emitted ++ buffer = seen
  parts : ∀ part, IsPart token part → part <:+ seen → part <:+ buffer
  waits : buffer ≠ [] → EndsPartly token buffer

theorem holds_nil : Holds token [] [] [] := ⟨rfl, fun _ _ ends => ends, fun some => absurd rfl some⟩

namespace Holds

variable (holds : Holds token seen emitted buffer)
include holds

theorem parts_append (is : IsPart token part) (ends : part <:+ seen ++ chunk) : part <:+ buffer ++ chunk := by
  obtain ⟨front, split⟩ := ends
  rcases append_eq_append_iff.mp split with ⟨pre, earlier, rfl⟩ | ⟨behind, -, rfl⟩
  · by_cases empty : pre = []
    · rw [empty]
      exact suffix_append _ _
    · have begins := prefix_append pre chunk
      have shorter : IsPart token pre := by
        refine ⟨empty, begins.trans is.begins, ?_⟩
        rintro rfl
        exact absurd begins.length_le (Nat.not_le.mpr is.length_lt)
      obtain ⟨rest, held⟩ := holds.parts pre shorter ⟨front, earlier.symm⟩
      exact ⟨rest, by rw [← held, append_assoc]⟩
  · exact ⟨buffer ++ behind, append_assoc _ _ _⟩

theorem keep (ends : EndsPartly token (buffer ++ chunk)) : Holds token (seen ++ chunk) emitted (buffer ++ chunk) :=
  ⟨by rw [← append_assoc, holds.whole], fun _ is ends => holds.parts_append is ends, fun _ => ends⟩

theorem flush (clear : ¬ EndsPartly token (buffer ++ chunk)) :
    Holds token (seen ++ chunk) (emitted ++ (buffer ++ chunk)) [] := by
  refine ⟨?_, fun part is ends => ?_, fun some => absurd rfl some⟩
  · rw [append_nil, ← append_assoc, holds.whole]
  · exact absurd ⟨part, is, holds.parts_append is ends⟩ clear

theorem cut {front : List α} (shape : token = first :: rest) (fresh : first ∉ rest)
    (is : IsPart token part) (split : front ++ part = buffer ++ chunk) :
    Holds token (seen ++ chunk) (emitted ++ front) part := by
  refine ⟨?_, fun other also ends => ?_, fun _ => ⟨part, is, suffix_rfl⟩⟩
  · rw [append_assoc, split, ← append_assoc, holds.whole]
  · have mem := holds.parts_append also ends
    rw [← split] at mem
    subst shape
    rcases suffix_or_suffix_of_suffix mem (suffix_append front part) with shorter | longer
    · exact shorter
    · rw [is.unique fresh also longer]

theorem empty_iff : buffer = [] ↔ ¬ EndsPartly token seen := by
  constructor
  · rintro rfl ⟨part, is, ends⟩
    exact is.nonempty (suffix_nil.mp (holds.parts part is ends))
  · intro clear
    by_contra some
    obtain ⟨part, is, ends⟩ := holds.waits some
    refine clear ⟨part, is, ends.trans ?_⟩
    rw [← holds.whole]
    exact suffix_append _ _

theorem complete : emitted = seen ↔ ¬ EndsPartly token seen := by
  rw [← holds.empty_iff, ← holds.whole, self_eq_append_right]

end Holds
end ModelGateway.WithheldText
