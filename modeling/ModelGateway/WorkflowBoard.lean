import ModelGateway.WorkflowEngine

/-! What the scheduler and the step tasks of a workflow know of each other: how far each step is, the
tracker, the channel, and where the scheduler is.  The steps a task takes in between do not show here. -/
namespace ModelGateway.Workflow
open List Function Option StepTask

/-- How far a launched step is: what the tracker was told, and whether the scheduler was sent it. -/
structure Standing where
  signal : Option StepResult
  sent : Bool
  deriving DecidableEq, Repr

/-- The shared part of an execution. -/
structure Board where
  standing : Nat → Option Standing
  tracker : StepTracker
  channel : List (StepId × StepResult)
  pendingCheck : List Nat
  scheduler : SchedulerPhase
  status : WorkflowStatus

variable {D : Type}

def TaskPhase.standing (phase : TaskPhase D) : Standing := ⟨phase.signal?, phase.sent⟩

/-- Where the task of a step is. -/
def phaseIn (tasks : List (StepTask D)) (idx : Nat) : Option (TaskPhase D) :=
  (tasks.find? fun task => task.step = idx).map StepTask.phase

def standingIn (tasks : List (StepTask D)) (idx : Nat) : Option Standing :=
  (phaseIn tasks idx).map TaskPhase.standing

def Engine.board (engine : Engine D) : Board where
  standing := standingIn engine.tasks
  tracker := engine.tracker
  channel := engine.channel
  pendingCheck := engine.pendingCheck
  scheduler := engine.scheduler
  status := engine.store.status

namespace Board

/-- The tracker learns how a step ended. -/
def settle (board : Board) (idx : Nat) (id : StepId) (signal : StepResult) : Board :=
  { board with
      standing := update board.standing idx (some ⟨some signal, false⟩)
      tracker := board.tracker.finish id signal }

/-- The scheduler is sent how a step ended, unless it has returned or the channel is full. -/
def send (defn : WorkflowDefinition D) (board : Board) (idx : Nat) (id : StepId)
    (signal : StepResult) : Board :=
  { board with
      standing := update board.standing idx (some ⟨some signal, true⟩)
      channel :=
        if board.scheduler ≠ .returned ∧ board.channel.length < max defn.steps.length 1 then
          board.channel ++ [(id, signal)]
        else board.channel }

/-- The steps of the indices are launched. -/
def launched (board : Board) (ready : List Nat) : Nat → Option Standing := fun idx =>
  if idx ∈ ready then some ⟨none, false⟩ else board.standing idx

end Board

/-! ### The tasks of a step -/

section
variable {tasks : List (StepTask D)} {task : StepTask D}

variable {idx : Nat} {phase : TaskPhase D} {position : Nat} {next : TaskPhase D} {ready : List Nat}

theorem phaseIn_eq_some (found : phaseIn tasks idx = some phase) : ⟨idx, phase⟩ ∈ tasks := by
  obtain ⟨task, held, rfl⟩ := map_eq_some_iff.mp found
  obtain rfl : task.step = idx := by simpa using find?_some held
  exact mem_of_find?_eq_some held

theorem phaseIn_of_mem (nodup : (tasks.map step).Nodup) (mem : task ∈ tasks) :
    phaseIn tasks task.step = some task.phase := by
  unfold phaseIn
  cases found : tasks.find? fun other => other.step = task.step with
  | none => exact absurd (by simp) (find?_eq_none.mp found task mem)
  | some other =>
    have same : other.step = task.step := by simpa using find?_some found
    rw [inj_on_of_nodup_map nodup (mem_of_find?_eq_some found) mem same]
    rfl

theorem phaseIn_eq_none : phaseIn tasks idx = none ↔ ∀ task ∈ tasks, task.step ≠ idx := by
  simp [phaseIn]

theorem standingIn_eq_some {standing : Standing} (found : standingIn tasks idx = some standing) :
    ∃ task ∈ tasks, task.step = idx ∧ task.phase.standing = standing := by
  obtain ⟨phase, held, rfl⟩ := map_eq_some_iff.mp found
  exact ⟨⟨idx, phase⟩, phaseIn_eq_some held, rfl, rfl⟩

theorem standingIn_of_mem (nodup : (tasks.map step).Nodup) (mem : task ∈ tasks) :
    standingIn tasks task.step = some task.phase.standing := by
  rw [standingIn, phaseIn_of_mem nodup mem, map_some]

theorem standingIn_eq_none : standingIn tasks idx = none ↔ phaseIn tasks idx = none := map_eq_none_iff

section Set
variable (nodup : (tasks.map step).Nodup) (spawned : tasks[position]? = some ⟨idx, phase⟩)
include spawned

theorem map_step_set : (tasks.set position ⟨idx, next⟩).map step = tasks.map step := by
  apply ext_getElem?
  intro place
  rw [getElem?_map, getElem?_map]
  by_cases same : place = position
  · subst same
    rw [getElem?_set_self (List.getElem?_eq_some_iff.mp spawned).1, spawned]
    rfl
  · rw [getElem?_set_ne (Ne.symm same)]

theorem mem_set_of_ne (mem : task ∈ tasks) (other : task.step ≠ idx) : task ∈ tasks.set position ⟨idx, next⟩ := by
  obtain ⟨place, found⟩ := getElem?_of_mem mem
  have elsewhere : position ≠ place := by
    rintro rfl
    rw [spawned] at found
    cases found
    exact other rfl
  rw [← getElem?_set_ne elsewhere] at found
  exact mem_of_getElem? found

include nodup

theorem phaseIn_set : phaseIn (tasks.set position ⟨idx, next⟩) = update (phaseIn tasks) idx (some next) := by
  have still : ((tasks.set position ⟨idx, next⟩).map step).Nodup := by
    rw [map_step_set spawned]
    exact nodup
  funext other
  by_cases same : other = idx
  · subst same
    rw [update_self]
    exact phaseIn_of_mem still (mem_set (List.getElem?_eq_some_iff.mp spawned).1 ⟨other, next⟩)
  · rw [update_of_ne same]
    cases found : phaseIn tasks other with
    | none =>
      rw [phaseIn_eq_none] at found ⊢
      intro task mem
      rcases mem_or_eq_of_mem_set mem with old | rfl
      · exact found task old
      · exact Ne.symm same
    | some standing =>
      exact phaseIn_of_mem still (mem_set_of_ne spawned (phaseIn_eq_some found) same)

theorem standingIn_set : standingIn (tasks.set position ⟨idx, next⟩) =
      update (standingIn tasks) idx (some next.standing) := by
  funext other
  rw [standingIn, phaseIn_set nodup spawned, update_apply, update_apply]
  split <;> rfl

end Set

theorem phaseIn_append (new : ∀ idx ∈ ready, phaseIn tasks idx = none) :
    phaseIn (tasks ++ ready.map fun idx => ⟨idx, .starting⟩) =
      fun idx => if idx ∈ ready then some .starting else phaseIn tasks idx := by
  funext idx
  split
  · next mem =>
    have unlaunched := new idx mem
    unfold phaseIn at unlaunched ⊢
    rw [map_eq_none_iff] at unlaunched
    rw [find?_append, unlaunched, none_or, find?_map]
    cases found : ready.find? ((fun task : StepTask D => decide (task.step = idx)) ∘ fun idx => ⟨idx, .starting⟩) with
    | none => exact absurd (by simp) (find?_eq_none.mp found idx mem)
    | some other => rfl
  · next outside =>
    have absent : (ready.map fun idx => (⟨idx, .starting⟩ : StepTask D)).find?
        (fun task => task.step = idx) = none := by
      rw [find?_eq_none]
      intro task mem
      obtain ⟨other, inside, rfl⟩ := mem_map.mp mem
      simpa using fun same : other = idx => outside (same ▸ inside)
    unfold phaseIn
    rw [find?_append, absent, or_none]

theorem standingIn_append (new : ∀ idx ∈ ready, standingIn tasks idx = none) :
    standingIn (tasks ++ ready.map fun idx => ⟨idx, .starting⟩) =
      fun idx => if idx ∈ ready then some ⟨none, false⟩ else standingIn tasks idx := by
  funext idx
  rw [standingIn, phaseIn_append fun other mem => standingIn_eq_none.mp (new other mem)]
  dsimp only
  split <;> rfl

end

/-! ### A step of a task, as the others see it -/

variable {flow : WorkflowDefinition D}

/-- A step of a task does not show, settles its step, or sends how it ended. -/
theorem taskStep_board {pre post : Engine D} {position : Nat} {outcome : ExecutorOutcome} {context : D}
    (nodup : (pre.tasks.map step).Nodup)
    (stepped : pre.taskStep flow position outcome context = some post) :
    post.tasks.map step = pre.tasks.map step ∧ (post.board = pre.board ∨
        (∃ idx step signal, flow.steps[idx]? = some step ∧ pre.board.standing idx = some ⟨none, false⟩ ∧
          post.board = pre.board.settle idx step.id signal) ∨
        ∃ idx step signal, flow.steps[idx]? = some step ∧ pre.board.standing idx = some ⟨some signal, false⟩ ∧
          post.board = pre.board.send flow idx step.id signal) := by
  obtain ⟨⟨idx, phase⟩, step, middle, next, spawned, defined, advanced, rfl⟩ := taskStep_eq_some stepped
  have here : pre.board.standing idx = some phase.standing := standingIn_of_mem nodup (mem_of_getElem? spawned)
  have moved := @standingIn_set _ _ _ _ _ next nodup spawned
  refine ⟨map_step_set spawned, ?_⟩
  rcases advance_cases advanced with quiet | settled | sent
  · left
    obtain ⟨store, status, rfl, signal, sent⟩ := quiet
    have same : next.standing = phase.standing := by
      unfold TaskPhase.standing
      rw [signal, sent]
    have standing : standingIn (pre.tasks.set position ⟨idx, next⟩) = standingIn pre.tasks := by
      rw [moved, same, ← here]
      exact update_eq_self idx _
    simp only [Engine.board, standing, status]
  · right; left
    obtain ⟨signal, -, unsettled, unsent, rfl, told, waiting⟩ := settled
    refine ⟨idx, step, signal, defined, ?_, ?_⟩
    · rw [here, TaskPhase.standing, unsettled, unsent]
    · have post : next.standing = ⟨some signal, false⟩ := by rw [TaskPhase.standing, told, waiting]
      simp only [Engine.board, Board.settle, moved, post]
  · right; right
    obtain ⟨signal, told, unsent, rfl, still, sent⟩ := sent
    refine ⟨idx, step, signal, defined, ?_, ?_⟩
    · rw [here, TaskPhase.standing, told, unsent]
    · have post : next.standing = ⟨some signal, true⟩ := by rw [TaskPhase.standing, still, sent]
      simp only [trySend_eq, Engine.board, Board.send, moved, post]
      rfl

end ModelGateway.Workflow
