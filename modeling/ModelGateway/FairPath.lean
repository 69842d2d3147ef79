import Mathlib.Order.WellFounded

/-! Paths without end of a labelled transition system.  Weak fairness says that a component which stays
able to move does move; a measure that never grows along a path is constant from some time on. -/
namespace ModelGateway.FairPath

variable {S M : Type} {step : S → M → S → Prop}

/-- A path without end: the states it passes and the moves between them. -/
structure Path (step : S → M → S → Prop) where
  state : Nat → S
  move : Nat → M
  next : ∀ time, step (state time) (move time) (state (time + 1))

instance : CoeFun (Path step) fun _ => Nat → S := ⟨Path.state⟩

namespace Path

variable (path : Path step)

theorem reached : ∀ time, Relation.ReflTransGen (fun pre post => ∃ move, step pre move post)
    (path 0) (path time)
  | 0 => .refl
  | time + 1 => (reached time).tail ⟨path.move time, path.next time⟩

/-- A component that is able to move at all later times moves at one of them. -/
def WeaklyFair (able : S → Prop) (moves : M → Prop) : Prop :=
  ∀ time, (∀ later ≥ time, able (path.state later)) → ∃ later ≥ time, moves (path.move later)

variable {path}

theorem WeaklyFair.acts {able : S → Prop} {moves : M → Prop} (fair : path.WeaklyFair able moves)
    {holds : S → Prop} {time : Nat} (now : holds (path time))
    (kept : ∀ later ≥ time, ¬moves (path.move later) → holds (path later) →
      holds (path (later + 1))) (able_ : (∀ later ≥ time, holds (path later)) →
      ∃ start ≥ time, ∀ later ≥ start, able (path later)) :
    ∃ later ≥ time, holds (path later) ∧ moves (path.move later) := by
  by_contra never
  have still : ∀ later ≥ time, holds (path later) := by
    intro later post
    induction later, post using Nat.le_induction with
    | base => exact now
    | succ later post ih => exact kept later post (fun moved => never ⟨later, post, ih, moved⟩) ih
  obtain ⟨start, post, enabled⟩ := able_ still
  obtain ⟨later, from_, moved⟩ := fair start enabled
  have past : later ≥ time := le_trans post from_
  exact never ⟨later, past, still later past, moved⟩

theorem settles {measure : S → Nat} (falls : ∀ time, measure (path (time + 1)) ≤ measure (path time)) :
    ∃ time, ∀ later ≥ time, measure (path (later + 1)) = measure (path later) := by
  refine ⟨Function.argmin fun time => measure (path time), fun later post => ?_⟩
  have falling : Antitone fun time => measure (path time) := antitone_nat_of_succ_le falls
  apply le_antisymm (falls later)
  exact (falling post).trans (Function.argmin_le (fun time => measure (path time)) (later + 1))

end Path
end ModelGateway.FairPath
