import Mathlib.Algebra.Order.Group.Nat
import Mathlib.Algebra.Order.Sub.Basic
import Mathlib.Data.List.Basic

/-! Tasks that wait for tokens of a bucket that is not refilled (`middleware/token_bucket.rs`): `acquire`
tries, registers for a notification and tries again; `return_tokens_sync` puts tokens back and then notifies
the tasks that are registered.  No notification is kept for a task that registers later. -/
namespace ModelGateway.TokenWaiters
open List

/-- Where a task in `acquire` is. -/
inductive Phase where
  /-- About to try, for the first time or because it was woken. -/
  | trying
  /-- The try failed, and `notified()` is not called yet. -/
  | failed
  | registered
  /-- The task has its tokens, or `acquire_timeout` has dropped it. -/
  | ended
  deriving DecidableEq, Repr

structure Task (α : Type) where
  tokens : α
  phase : Phase := .trying
  deriving DecidableEq, Repr

/-- The bucket with its tasks, and the number of calls that put tokens back and have not notified yet. -/
structure TokenBucket (α : Type) where
  capacity : α
  tokens : α
  tasks : List (Task α) := []
  notifying : Nat := 0
  deriving DecidableEq, Repr

inductive Step (α : Type) where
  | acquire (tokens : α)
  | tryAcquire (task : Nat)
  | register (task : Nat)
  | expire (task : Nat)
  | returnTokens (tokens : α)
  | notifyWaiters
  deriving DecidableEq, Repr

section
variable {α : Type} [LinearOrder α] [AddCommMonoid α] [Sub α]

namespace TokenBucket

def step (self : TokenBucket α) : Step α → TokenBucket α
  | .acquire tokens => { self with tasks := self.tasks ++ [{ tokens := tokens }] }
  | .tryAcquire task =>
    match self.tasks[task]? with
    | some ⟨tokens, .trying⟩ =>
      -- the refill adds nothing, but is capped
      let available := min self.tokens self.capacity
      if tokens ≤ available then
        { self with tokens := available - tokens, tasks := self.tasks.set task ⟨tokens, .ended⟩ }
      else { self with tokens := available, tasks := self.tasks.set task ⟨tokens, .failed⟩ }
    | _ => self
  | .register task =>
    match self.tasks[task]? with
    | some ⟨tokens, .failed⟩ => { self with tasks := self.tasks.set task ⟨tokens, .registered⟩ }
    | _ => self
  | .expire task =>
    match self.tasks[task]? with
    | some ⟨tokens, _⟩ => { self with tasks := self.tasks.set task ⟨tokens, .ended⟩ }
    | none => self
  | .returnTokens tokens =>
    { self with tokens := min (self.tokens + tokens) self.capacity, notifying := self.notifying + 1 }
  | .notifyWaiters =>
    if 0 < self.notifying then
      { self with
          tasks := self.tasks.map fun task =>
            if task.phase = .registered then { task with phase := .trying } else task
          notifying := self.notifying - 1 }
    else self

/-- No task is about to try and none will be woken, but the tokens suffice for one that waits. -/
def Stuck (self : TokenBucket α) : Prop :=
  self.notifying = 0 ∧ (∀ task ∈ self.tasks, task.phase ≠ .trying) ∧
    ∃ task ∈ self.tasks, task.phase ≠ .ended ∧ task.tokens ≤ self.tokens

end TokenBucket

/-- The states that allowed steps lead to. -/
inductive Reached (capacity : α) (allowed : TokenBucket α → Step α → Prop) : TokenBucket α → Prop
  | new : Reached capacity allowed ⟨capacity, capacity, [], 0⟩
  | step {bucket : TokenBucket α} (next : Step α) (pre : Reached capacity allowed bucket)
    (permitted : allowed bucket next) : Reached capacity allowed (bucket.step next)

/-- No tokens are put back between a task's failed try and its registration. -/
def Heard (bucket : TokenBucket α) : Step α → Prop
  | .returnTokens _ => ∀ task ∈ bucket.tasks, task.phase ≠ .failed
  | _ => True

/-- The tokens do not suffice for a task that waits, unless it will be woken. -/
def Short (bucket : TokenBucket α) : Prop :=
  ∀ task ∈ bucket.tasks, task.phase = .failed ∨ task.phase = .registered ∧ bucket.notifying = 0 →
    bucket.tokens < task.tokens

variable {bucket : TokenBucket α} {left : α} {position : Nat} {task : Task α}

omit [AddCommMonoid α] [Sub α] in
theorem Short.set (short : Short bucket) (fewer : left ≤ bucket.tokens)
    (new : task.phase = .failed ∨ task.phase = .registered → left < task.tokens) :
    Short { bucket with tokens := left, tasks := bucket.tasks.set position task } := by
  intro other mem waits
  rcases mem_or_eq_of_mem_set mem with old | rfl
  · exact fewer.trans_lt (short other old waits)
  · exact new (waits.imp_right And.left)

theorem Short.step [CanonicallyOrderedAdd α] [OrderedSub α] (short : Short bucket) {next : Step α}
    (heard : Heard bucket next) : Short (bucket.step next) := by
  cases next with
  | acquire tokens =>
    refine forall_mem_append.mpr ⟨short, forall_mem_singleton.mpr fun waits => ?_⟩
    exact absurd waits (by simp)
  | tryAcquire position =>
    simp only [TokenBucket.step]
    split
    · split
      · exact short.set (tsub_le_self.trans (min_le_left _ _)) (by simp)
      · next lacking => exact short.set (min_le_left _ _) fun _ => not_le.mp lacking
    · exact short
  | register position =>
    simp only [TokenBucket.step]
    split
    · next found => exact short.set le_rfl fun _ => short ⟨_, .failed⟩ (mem_of_getElem? found) (.inl rfl)
    · exact short
  | expire position =>
    simp only [TokenBucket.step]
    split
    · exact short.set le_rfl (by simp)
    · exact short
  | returnTokens tokens =>
    rintro task mem (failed | ⟨-, none⟩)
    · exact absurd failed (heard task mem)
    · cases none
  | notifyWaiters =>
    simp only [TokenBucket.step]
    split
    · intro task mem waits
      obtain ⟨earlier, old, rfl⟩ := mem_map.mp mem
      -- whoever was registered is woken, so only a failed try is left to look at
      split at waits
      · simp at waits
      · next unregistered =>
        rw [if_neg unregistered]
        exact short earlier old (waits.imp_right fun waits => absurd waits.1 unregistered)
    · exact short

/-- Returned tokens are not left next to a task that waits for them, if no tokens are put back between a task's
failed try and its registration. -/
theorem waiter_not_stuck [CanonicallyOrderedAdd α] [OrderedSub α] {capacity : α}
    (reached : Reached capacity Heard bucket) : ¬ bucket.Stuck := by
  have short : Short bucket := by
    induction reached with
    | new => exact forall_mem_nil _
    | step next pre permitted ih => exact ih.step permitted
  rintro ⟨none, waiting, task, mem, open_, enough⟩
  refine (short task mem ?_).not_ge enough
  cases phase : task.phase with
  | trying => exact absurd phase (waiting task mem)
  | failed => exact .inl rfl
  | registered => exact .inr ⟨rfl, none⟩
  | ended => exact absurd phase open_

end

/-- A task that registers before the token comes back is woken. -/
theorem registered_waiter_woken : ∃ bucket, Reached 1 Heard bucket ∧
    bucket.tasks = [⟨1, .ended⟩, ⟨1, .trying⟩] ∧ bucket.tokens = 1 ∧ ¬ bucket.Stuck := by
  have waits := Reached.step (.register 1) (.step (.tryAcquire 1) (.step (.acquire 1) (.step (.tryAcquire 0)
    (.step (.acquire 1) (@Reached.new Nat _ _ _ 1 Heard) trivial) trivial) trivial) trivial) trivial
  have woken := Reached.step .notifyWaiters (.step (.returnTokens 1) waits (by unfold Heard; decide)) trivial
  exact ⟨_, woken, by decide, by decide, waiter_not_stuck woken⟩

/-- A token that comes back after the failed try and before the registration is not noticed. -/
theorem unheard_return_leaves_waiter : ∃ bucket : TokenBucket Nat, Reached 1 (fun _ _ => True) bucket ∧
    bucket.tasks = [⟨1, .ended⟩, ⟨1, .registered⟩] ∧ bucket.tokens = 1 ∧ bucket.Stuck := by
  have fails := Reached.step (.tryAcquire 1) (.step (.acquire 1) (.step (.tryAcquire 0) (.step (.acquire 1)
    (@Reached.new Nat _ _ _ 1 fun _ _ => True) trivial) trivial) trivial) trivial
  have waits := Reached.step (.register 1) (.step .notifyWaiters (.step (.returnTokens 1) fails trivial) trivial)
    trivial
  exact ⟨_, waits, by decide, by decide, rfl, by decide, ⟨1, .registered⟩, by decide, by decide, by decide⟩

end ModelGateway.TokenWaiters
