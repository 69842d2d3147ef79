import ModelGateway.WorkflowDefinition

/-! The execution of one workflow instance (`crates/workflow/src/engine.rs`, `state.rs`): the scheduler
loop, the step tasks it spawns, the tracker and the channel they share, the stored state, and cancellation.
Each access to the tracker or the store and each use of the channel is a step of its own.  What executors
do and what the clocks show is chosen by the environment. -/
namespace ModelGateway.Workflow
open Option

inductive WorkflowStatus where
  | pending
  | running
  | paused
  | completed
  | failed
  | cancelled
  deriving DecidableEq, Repr

def WorkflowStatus.isTerminal : WorkflowStatus → Bool
  | .completed | .failed | .cancelled => true
  | .pending | .running | .paused => false

inductive StepStatus where
  | pending
  | running
  | succeeded
  | failed
  | retrying
  | skipped
  deriving DecidableEq, Repr

inductive StepResult where
  | success
  | failure
  | skip
  deriving DecidableEq, Repr

/-- How a call of an executor under its timeout ends. -/
inductive ExecutorOutcome where
  | returned (result : StepResult)
  | error (retryable : Bool)
  | timedOut
  deriving DecidableEq, Repr

structure StepState where
  status : StepStatus := .pending
  attempt : Nat := 0
  deriving DecidableEq, Repr

inductive WorkflowEvent where
  | workflowFailed (failedStep : StepId) (error : String)
  | workflowCompleted
  | workflowCancelled
  deriving DecidableEq, Repr

/-- The stored state of the instance.  The store holds it throughout: the operations of the in-memory store
fail only for an instance it does not hold. -/
structure WorkflowState (D : Type) where
  status : WorkflowStatus
  currentStep : Option StepId := none
  stepStates : KeyedMap StepId StepState
  context : D

variable {D : Type}

def WorkflowState.updateStep (self : WorkflowState D) (id : StepId) (change : StepState → StepState) :
    WorkflowState D :=
  match self.stepStates.get? id with
  | some state => { self with stepStates := self.stepStates.insert id (change state) }
  | none => self

/-! ### The tracker -/

/-- `StepTracker`: sets of step ids, in some order, and the times waiting steps are ready at. -/
structure StepTracker where
  completed : List StepId := []
  failed : List StepId := []
  skipped : List StepId := []
  running : List StepId := []
  waitingUntil : KeyedMap Nat Nat := ∅

namespace StepTracker

variable (self : StepTracker)

def totalProcessed : Nat :=
  self.completed.length + self.failed.length + self.skipped.length

def isStepProcessable (stepId : StepId) (stepIdx : Nat) : Bool :=
  decide (stepId ∉ self.completed) && decide (stepId ∉ self.failed) && decide (stepId ∉ self.skipped) &&
    decide (stepId ∉ self.running) && !self.waitingUntil.contains stepIdx

def getReadyWaitingIndices (now : Nat) : List Nat :=
  (self.waitingUntil.toList.filter fun entry => entry.2 ≤ now).map Prod.fst

def setWaiting (stepIdx readyAt : Nat) : StepTracker :=
  { self with waitingUntil := self.waitingUntil.insert stepIdx readyAt }

def clearWaiting (stepIdx : Nat) : StepTracker :=
  { self with waitingUntil := self.waitingUntil.erase stepIdx }

/-- A dependency that is completed or skipped. -/
def satisfied (dependency : StepId) : Bool :=
  decide (dependency ∈ self.completed) || decide (dependency ∈ self.skipped)

def areDependenciesSatisfied (dependsOn : List StepId) : Bool :=
  dependsOn.all self.satisfied

def isAnyDependencySatisfied (dependsOnAny : List StepId) : Bool :=
  dependsOnAny.isEmpty || dependsOnAny.any self.satisfied

def hasFailedDependency (dependsOn : List StepId) : Bool :=
  dependsOn.any fun dependency => decide (dependency ∈ self.failed)

def haveAllAnyDepsFailed (dependsOnAny : List StepId) : Bool :=
  !dependsOnAny.isEmpty && dependsOnAny.all fun dependency => decide (dependency ∈ self.failed)

/-- The filter of the pending steps. -/
def isReady (step : StepDefinition D) (stepIdx : Nat) : Bool :=
  self.isStepProcessable step.id stepIdx && self.areDependenciesSatisfied step.dependsOn &&
    self.isAnyDependencySatisfied step.dependsOnAny && !self.hasFailedDependency step.dependsOn &&
    !self.haveAllAnyDepsFailed step.dependsOnAny

/-- `running.insert(id)`. -/
def start (id : StepId) : StepTracker :=
  { self with running := self.running.insert id }

/-- `running.remove(id)` and the entry of the id among the steps that ended with the result. -/
def finish (id : StepId) : StepResult → StepTracker
  | .success => { self with running := self.running.erase id, completed := self.completed.insert id }
  | .failure => { self with running := self.running.erase id, failed := self.failed.insert id }
  | .skip => { self with running := self.running.erase id, skipped := self.skipped.insert id }

end StepTracker

/-! ### Step tasks -/

/-- Where a step task is. -/
inductive TaskPhase (D : Type) where
  /-- The condition of the step is to be evaluated. -/
  | starting
  /-- The condition is false: the tracker, the store and the channel follow. -/
  | skipping
  | skipRecording
  | skipSending
  /-- An attempt begins with a look at the cancellation. -/
  | polling (attempt : Nat)
  | marking (attempt : Nat)
  | copying (attempt : Nat)
  /-- The executor works on a copy of the context. -/
  | executing (attempt : Nat) (context : D)
  | writingBack (attempt : Nat) (context : D) (outcome : ExecutorOutcome)
  | succeeding
  | failing (attempt : Nat) (willRetry : Bool)
  | backingOff (attempt : Nat)
  /-- The step has ended, with an error when it was cancelled. -/
  | settling (result : Option StepResult)
  /-- The tracker is updated and still locked. -/
  | sending (signal : StepResult) (needsSkipUpdate : Bool)
  | recordingSkip (signal : StepResult)
  | ended (signal : StepResult)

/-- What the tracker was told about the step. -/
def TaskPhase.signal? : TaskPhase D → Option StepResult
  | .skipRecording | .skipSending => some .skip
  | .sending signal _ | .recordingSkip signal | .ended signal => some signal
  | _ => none

/-- The task is done with the channel. -/
def TaskPhase.sent : TaskPhase D → Bool
  | .recordingSkip _ | .ended _ => true
  | _ => false

/-- The task holds the write lock of the tracker. -/
def TaskPhase.locks : TaskPhase D → Bool
  | .sending _ _ => true
  | _ => false

/-- A spawned task, with the index of its step. -/
structure StepTask (D : Type) where
  step : Nat
  phase : TaskPhase D

/-! ### The scheduler -/

/-- What the scheduler read from the tracker. -/
structure Snapshot where
  waitReady : List Nat
  depsReady : List Nat
  totalProcessed : Nat
  currentRunning : Nat
  currentWaiting : Nat
  deriving DecidableEq, Repr

/-- Where the scheduler loop is. -/
inductive SchedulerPhase where
  | polling
  | draining
  | reading
  | scheduling (snapshot : Snapshot)
  | launching (ready : List Nat)
  | checking (tasksLaunched : Nat)
  | timing
  | receiving
  | sleeping (wake : Nat)
  /-- Nothing is ready, running or waiting. -/
  | blocked
  /-- All steps are processed. -/
  | finishing
  | writing (status : WorkflowStatus) (event : WorkflowEvent)
  | publishing (event : WorkflowEvent)
  | returned
  deriving DecidableEq, Repr

/-- The loop writes no status any more. -/
def SchedulerPhase.isOver : SchedulerPhase → Bool
  | .publishing _ | .returned => true
  | _ => false

/-- The instance and everything that works on it.  `listed` counts the calls of `force_cancel_all` that
found it active and have not cancelled it yet. -/
structure Engine (D : Type) where
  store : WorkflowState D
  tracker : StepTracker := {}
  channel : List (StepId × StepResult) := []
  pendingCheck : List Nat
  scheduler : SchedulerPhase := .polling
  tasks : List (StepTask D) := []
  now : Nat := 0
  listed : Nat := 0
  events : List WorkflowEvent := []

/-- `calculate_wait_duration`, with what the wall clock shows. -/
def calculateWaitDuration (step : StepDefinition D) (utc : Nat) : Option Nat :=
  let scheduleWait := step.scheduledAt.bind fun scheduledTime =>
    if utc < scheduledTime then some (scheduledTime - utc) else none
  match step.delay, scheduleWait with
  | some delay, some schedule => some (delay + schedule)
  | some delay, none => some delay
  | none, some schedule => some schedule
  | none, none => none

/-- The tracker, the steps ready to launch and the number of steps set waiting, while the second phase
goes over the indices. -/
structure Pass where
  tracker : StepTracker
  ready : List Nat := []
  addedToWaiting : Nat := 0

variable (defn : WorkflowDefinition D)

namespace Pass

def push (self : Pass) (idx : Nat) : Pass :=
  if idx ∈ self.ready then self else { self with ready := self.ready ++ [idx] }

/-- A step that was waiting and is ready. -/
def wake (self : Pass) (idx : Nat) : Pass :=
  { self with tracker := self.tracker.clearWaiting idx }.push idx

def await (self : Pass) (idx readyAt : Nat) : Pass :=
  { self with
      tracker := self.tracker.setWaiting idx readyAt
      addedToWaiting := self.addedToWaiting + 1 }

/-- A step whose dependencies are satisfied is launched or has to wait. -/
def place (now : Nat) (self : Pass) (idx utc : Nat) : Pass :=
  match defn.steps[idx]? with
  | none => self
  | some step =>
    match calculateWaitDuration step utc with
    | some duration => if 0 < duration then self.await idx (now + duration) else self.push idx
    | none => self.push idx

end Pass

namespace Engine
variable (self : Engine D)

/-- `start_workflow`. -/
def start (data : D) : Engine D where
  store :=
    { status := .running
      stepStates := defn.steps.foldl (fun states step => states.insert step.id {}) ∅
      context := data }
  pendingCheck := defn.initialStepIndices

def locked : Bool := self.tasks.any fun task => task.phase.locks

/-- `tx.try_send(..)`: the message is dropped when the channel is full or closed. -/
def trySend (message : StepId × StepResult) :
    Engine D :=
  if self.scheduler ≠ .returned ∧ self.channel.length < max defn.steps.length 1 then
    { self with channel := self.channel ++ [message] }
  else self

/-- The dependents of a step that succeeded or was skipped are to be checked. -/
def enqueueDependents
    (message : StepId × StepResult) : Engine D :=
  match message.2 with
  | .success | .skip =>
    { self with pendingCheck := self.pendingCheck ++ defn.getDependentIndices message.1 }
  | .failure => self

/-- Phase 1: the tracker is read once. -/
def read : Engine D :=
  { self with
      pendingCheck := []
      scheduler := .scheduling
        { waitReady := self.tracker.getReadyWaitingIndices self.now
          depsReady := self.pendingCheck.filter fun idx =>
            match defn.steps[idx]? with
            | some step => self.tracker.isReady step idx
            | none => false
          totalProcessed := self.tracker.totalProcessed
          currentRunning := self.tracker.running.length
          currentWaiting := self.tracker.waitingUntil.size } }

/-- Phase 2 over the indices read in phase 1; `utc` gives what the wall clock shows at each of them. -/
def pass (utc : Nat → Nat) (self : Engine D) (snapshot : Snapshot) :
    Pass :=
  snapshot.depsReady.zipIdx.foldl (fun pass entry => pass.place defn self.now entry.1 (utc entry.2))
    (snapshot.waitReady.foldl Pass.wake { tracker := self.tracker })

/-- Where the loop goes after phase 2. -/
def afterPass (snapshot : Snapshot) (pass : Pass) :
    SchedulerPhase :=
  if snapshot.totalProcessed = defn.steps.length then .finishing
  else if pass.ready = [] ∧ snapshot.currentRunning = 0 ∧
      snapshot.currentWaiting + pass.addedToWaiting = 0 ∧ self.pendingCheck = [] then .blocked
  else .launching pass.ready

def schedule (utc : Nat → Nat) (self : Engine D)
    (snapshot : Snapshot) : Engine D :=
  let pass := self.pass defn utc snapshot
  { self with tracker := pass.tracker, scheduler := self.afterPass defn snapshot pass }

def blockedEvent : WorkflowEvent :=
  match self.tracker.failed.head? with
  | some step => .workflowFailed step "Workflow failed due to step dependency failure"
  | none => .workflowFailed "internal_scheduler" "Workflow deadlocked: no steps ready and none running"

/-- What is written when the loop is over. -/
def conclusion : SchedulerPhase :=
  match self.tracker.failed.head? with
  | some step => .writing .failed (.workflowFailed step "One or more steps failed")
  | none => .writing .completed .workflowCompleted

def launch (ready : List Nat) : Engine D :=
  { self with
      tracker := ready.foldl (fun tracker idx =>
        match defn.steps[idx]? with
        | some step => tracker.start step.id
        | none => tracker) self.tracker
      tasks := self.tasks ++ ready.map fun idx => ⟨idx, .starting⟩
      scheduler := .checking ready.length }

/-- What the loop waits for. -/
def check (tasksLaunched : Nat) : SchedulerPhase :=
  if 0 < tasksLaunched ∨ self.tracker.running ≠ [] then .receiving
  else if self.tracker.waitingUntil.isEmpty then .polling
  else .timing

/-- When the soonest waiting step is ready, but not more than 100 ms from now. -/
def wakeTime : Nat :=
  let remaining := self.tracker.waitingUntil.values.filterMap fun readyAt =>
    if self.now < readyAt then some (readyAt - self.now) else none
  self.now + min (remaining.min?.getD 10) 100

/-- One step of the scheduler loop, if it can be taken. -/
def schedulerStep (utc : Nat → Nat) (self : Engine D) :
    Option (Engine D) :=
  match self.scheduler with
  | .polling =>
    if self.store.status = .cancelled then some { self with scheduler := .publishing .workflowCancelled }
    else some { self with scheduler := .draining }
  | .draining =>
    match self.channel with
    | message :: rest => some ({ self with channel := rest }.enqueueDependents defn message)
    | [] => some { self with scheduler := .reading }
  | .reading => if self.locked then none else some (self.read defn)
  | .scheduling snapshot => if self.locked then none else some (self.schedule defn utc snapshot)
  | .launching ready => if ready ≠ [] ∧ self.locked then none else some (self.launch defn ready)
  | .checking tasksLaunched =>
    if self.locked then none else some { self with scheduler := self.check tasksLaunched }
  | .timing => if self.locked then none else some { self with scheduler := .sleeping self.wakeTime }
  | .receiving =>
    match self.channel with
    | message :: rest =>
      some ({ self with channel := rest, scheduler := .polling }.enqueueDependents defn message)
    | [] => none
  | .sleeping wake => if wake ≤ self.now then some { self with scheduler := .polling } else none
  | .blocked =>
    if self.locked then none else some { self with scheduler := .writing .failed self.blockedEvent }
  | .finishing => if self.locked then none else some { self with scheduler := self.conclusion }
  | .writing status event =>
    some { self with store := { self.store with status := status }, scheduler := .publishing event }
  | .publishing event => some { self with events := self.events ++ [event], scheduler := .returned }
  | .returned => none

/-! ### What a task does -/

variable (step : StepDefinition D)

/-- `max_attempts`, a 32-bit number. -/
def maxAttempts : Nat :=
  match step.onFailure with
  | .retryIndefinitely => 2 ^ 32 - 1
  | _ => (defn.getRetryPolicy step).maxAttempts

/-- Where a task goes once the context is written back. -/
def afterCall (attempt : Nat) :
    ExecutorOutcome → TaskPhase D
  | .returned .success => .succeeding
  | .returned .skip => .settling (some .skip)
  | .returned .failure => .failing attempt false
  | .error retryable => .failing attempt (retryable && decide (attempt < maxAttempts defn step))
  | .timedOut => .failing attempt (decide (attempt < maxAttempts defn step))

/-- What the tracker and the scheduler are told about a step that ended. -/
def signalOf : Option StepResult → StepResult
  | some .success => .success
  | some .skip => .skip
  | some .failure | none =>
    match step.onFailure with
    | .failWorkflow | .retryIndefinitely => .failure
    | .continueNextStep => .skip

/-- The stored status of a failed step becomes skipped when the workflow goes on. -/
def needsSkipUpdate : Option StepResult → Bool
  | some .success | some .skip => false
  | some .failure | none => decide (step.onFailure = .continueNextStep)

def updateStep (id : StepId) (change : StepState → StepState) : Engine D :=
  { self with store := self.store.updateStep id change }

/-- The store when an attempt begins. -/
def mark (id : StepId) (attempt : Nat) : Engine D :=
  { self with
      store := { self.store with currentStep := some id }.updateStep id fun _ =>
        { status := if attempt = 1 then .running else .retrying, attempt := attempt } }

/-- One step of a task at the given phase: what it does to the rest, and its next phase.  `outcome` and
`context` are what a call of the executor ends with. -/
def advance (outcome : ExecutorOutcome) (context : D) : TaskPhase D → Option (Engine D × TaskPhase D)
  | .starting =>
    match step.runIf with
    | some condition => some (self, if condition self.store.context then .polling 1 else .skipping)
    | none => some (self, .polling 1)
  | .skipping =>
    if self.locked then none
    else some ({ self with tracker := self.tracker.finish step.id .skip }, .skipRecording)
  | .skipRecording => some (self.updateStep step.id ({ · with status := .skipped }), .skipSending)
  | .skipSending => some (self.trySend defn (step.id, .skip), .ended .skip)
  | .polling attempt =>
    some (self, if self.store.status = .cancelled then .settling none else .marking attempt)
  | .marking attempt => some (self.mark step.id attempt, .copying attempt)
  | .copying attempt => some (self, .executing attempt self.store.context)
  | .executing attempt _ => some (self, .writingBack attempt context outcome)
  | .writingBack attempt context outcome =>
    some ({ self with store := { self.store with context := context } }, afterCall defn step attempt outcome)
  | .succeeding =>
    some (self.updateStep step.id ({ · with status := .succeeded }), .settling (some .success))
  | .failing attempt willRetry =>
    some (self.updateStep step.id ({ · with status := if willRetry then .retrying else .failed }),
      if willRetry then .backingOff attempt else .settling (some .failure))
  | .backingOff attempt => some (self, .polling (attempt + 1))
  | .settling result =>
    if self.locked then none
    else some ({ self with tracker := self.tracker.finish step.id (signalOf step result) },
      .sending (signalOf step result) (needsSkipUpdate step result))
  | .sending signal needsSkipUpdate =>
    some (self.trySend defn (step.id, signal),
      if needsSkipUpdate then .recordingSkip signal else .ended signal)
  | .recordingSkip signal =>
    some (self.updateStep step.id ({ · with status := .skipped }), .ended signal)
  | .ended _ => none

/-- One step of the task at a position, if it can be taken. -/
def taskStep (position : Nat)
    (outcome : ExecutorOutcome) (context : D) : Option (Engine D) :=
  match self.tasks[position]? with
  | none => none
  | some task =>
    match defn.steps[task.step]? with
    | none => none
    | some step =>
      match self.advance defn step outcome context task.phase with
      | none => none
      | some (post, phase) => some { post with tasks := self.tasks.set position ⟨task.step, phase⟩ }

/-- `cancel_workflow`. -/
def cancel : Engine D :=
  { self with
      store := { self.store with status := .cancelled }
      events := self.events ++ [.workflowCancelled] }

end Engine

/-- A step of the system: the clock, the callers that cancel, the scheduler, or a task. -/
inductive Move (D : Type) where
  | tick
  | cancel
  /-- `force_cancel_all` lists the active workflows. -/
  | listActive
  /-- `force_cancel_all` cancels the instance it has listed. -/
  | cancelListed
  | scheduler (utc : Nat → Nat)
  | task (position : Nat) (outcome : ExecutorOutcome) (context : D)

/-- The moves that write a cancellation. -/
def Move.cancels : Move D → Bool
  | .cancel | .cancelListed => true
  | .tick | .listActive | .scheduler _ | .task _ _ _ => false

namespace Engine
variable (self : Engine D)

def step : Move D → Option (Engine D)
  | .tick => some { self with now := self.now + 1 }
  | .cancel => some self.cancel
  | .listActive =>
    match self.store.status with
    | .running | .pending => some { self with listed := self.listed + 1 }
    | _ => some self
  | .cancelListed => if 0 < self.listed then some { self.cancel with listed := self.listed - 1 } else none
  | .scheduler utc => self.schedulerStep defn utc
  | .task position outcome context => self.taskStep defn position outcome context

end Engine

/-- One allowed step of an instance of the definition. -/
def Next (allowed : Engine D → Move D → Prop)
    (pre post : Engine D) : Prop :=
  ∃ move, allowed pre move ∧ pre.step defn move = some post

/-- The state after a list of moves, each of which has to be permitted and possible. -/
def run (defn : WorkflowDefinition D) (permits : Engine D → Move D → Bool) :
    List (Move D) → Engine D → Option (Engine D)
  | [], engine => some engine
  | move :: rest, engine =>
    if permits engine move then (engine.step defn move).bind (run defn permits rest) else none

/-- A number of steps of the scheduler. -/
def schedulerMoves (D : Type) (count : Nat) : List (Move D) :=
  List.replicate count (.scheduler fun _ => 0)

/-- A number of steps of a task whose executor succeeds and leaves the given context. -/
def taskMoves (count position : Nat) (context : D) : List (Move D) :=
  List.replicate count (.task position (.returned .success) context)

/-- The states that allowed steps lead to. -/
def Reached (data : D) (allowed : Engine D → Move D → Prop) :
    Engine D → Prop :=
  Relation.ReflTransGen (Next defn allowed) (.start defn data)

/-! ### What a step of a task can do -/

theorem status_updateStep (store : WorkflowState D) (id : StepId) (change : StepState → StepState) :
    (store.updateStep id change).status = store.status := by
  unfold WorkflowState.updateStep
  split <;> rfl

section
variable {flow : WorkflowDefinition D} {pre post : Engine D} {step : StepDefinition D}
  {outcome : ExecutorOutcome} {context : D} {phase next : TaskPhase D}

/-- Nothing but the store changes, and neither the status nor what the others know of the step. -/
def Private (pre post : Engine D) (phase next : TaskPhase D) : Prop :=
  ∃ store, store.status = pre.store.status ∧ post = { pre with store := store } ∧
    next.signal? = phase.signal? ∧ next.sent = phase.sent

/-- The tracker learns how the step ended. -/
def Settles (id : StepId) (pre post : Engine D) (phase next : TaskPhase D) : Prop :=
  ∃ signal, pre.locked = false ∧ phase.signal? = none ∧ phase.sent = false ∧
    post = { pre with tracker := pre.tracker.finish id signal } ∧
    next.signal? = some signal ∧ next.sent = false

/-- The scheduler is sent what the tracker was told. -/
def Sends (id : StepId) (pre post : Engine D)
    (phase next : TaskPhase D) : Prop :=
  ∃ signal, phase.signal? = some signal ∧ phase.sent = false ∧
    post = pre.trySend defn (id, signal) ∧ next.signal? = some signal ∧ next.sent = true

theorem standing_afterCall (attempt : Nat) : (Engine.afterCall flow step attempt outcome).signal? = none ∧
      (Engine.afterCall flow step attempt outcome).sent = false := by
  cases outcome with
  | returned result => cases result <;> exact ⟨rfl, rfl⟩
  | error | timedOut => exact ⟨rfl, rfl⟩

theorem unlocked {α : Type} {locked : Bool} {value result : α}
    (stepped : (if locked then none else some value) = some result) : locked = false ∧ value = result := by
  cases locked with
  | true => cases stepped
  | false => exact ⟨rfl, some.inj stepped⟩

theorem trySend_eq {engine : Engine D} (message : StepId × StepResult) :
    engine.trySend flow message = { engine with channel :=
            if engine.scheduler ≠ .returned ∧ engine.channel.length < max flow.steps.length 1 then
              engine.channel ++ [message]
            else engine.channel } := by
  unfold Engine.trySend
  split <;> rfl

/-- A step of a task is private, tells the tracker, or tells the scheduler. -/
theorem advance_cases (stepped : pre.advance flow step outcome context phase = some (post, next)) :
    Private pre post phase next ∨ Settles step.id pre post phase next ∨
      Sends flow step.id pre post phase next := by
  cases phase with
  | starting =>
    left
    simp only [Engine.advance] at stepped
    split at stepped
    · cases stepped
      refine ⟨_, rfl, rfl, ?_⟩
      split <;> exact ⟨rfl, rfl⟩
    · cases stepped
      exact ⟨_, rfl, rfl, rfl, rfl⟩
  | skipping =>
    right; left
    simp only [Engine.advance] at stepped
    obtain ⟨free, ⟨⟩⟩ := unlocked stepped
    exact ⟨.skip, free, rfl, rfl, rfl, rfl, rfl⟩
  | skipSending =>
    right; right
    cases stepped
    exact ⟨.skip, rfl, rfl, rfl, rfl, rfl⟩
  | polling attempt =>
    left
    cases stepped
    refine ⟨_, rfl, rfl, ?_⟩
    split <;> exact ⟨rfl, rfl⟩
  | marking attempt =>
    left
    cases stepped
    exact ⟨(pre.mark step.id attempt).store, status_updateStep _ _ _, rfl, rfl, rfl⟩
  | writingBack attempt written ended =>
    left
    cases stepped
    exact ⟨{ pre.store with context := written }, rfl, rfl, standing_afterCall attempt⟩
  | skipRecording | succeeding | recordingSkip signal =>
    left
    cases stepped
    exact ⟨_, status_updateStep _ _ _, rfl, rfl, rfl⟩
  | failing attempt willRetry =>
    left
    cases stepped
    refine ⟨_, status_updateStep _ _ _, rfl, ?_⟩
    split <;> exact ⟨rfl, rfl⟩
  | copying attempt | executing attempt copied | backingOff attempt =>
    left
    cases stepped
    exact ⟨_, rfl, rfl, rfl, rfl⟩
  | settling result =>
    right; left
    simp only [Engine.advance] at stepped
    obtain ⟨free, ⟨⟩⟩ := unlocked stepped
    exact ⟨_, free, rfl, rfl, rfl, rfl, rfl⟩
  | sending signal needs =>
    right; right
    cases stepped
    refine ⟨signal, rfl, rfl, rfl, ?_⟩
    split <;> exact ⟨rfl, rfl⟩
  | ended signal => cases stepped

variable {position : Nat}

variable (stepped : pre.taskStep flow position outcome context = some post)
include stepped

theorem taskStep_eq_some : ∃ task step middle next, pre.tasks[position]? = some task ∧
      flow.steps[task.step]? = some step ∧
      pre.advance flow step outcome context task.phase = some (middle, next) ∧
      post = { middle with tasks := pre.tasks.set position ⟨task.step, next⟩ } := by
  unfold Engine.taskStep at stepped
  split at stepped
  · cases stepped
  · next task spawned =>
    split at stepped
    · cases stepped
    · next step defined =>
      split at stepped
      · cases stepped
      · next middle next advanced =>
        exact ⟨task, step, middle, next, spawned, defined, advanced, (some.inj stepped).symm⟩

theorem taskStep_frame : post.store.status = pre.store.status ∧ post.scheduler = pre.scheduler ∧
    post.now = pre.now ∧ post.events = pre.events := by
  obtain ⟨task, step, middle, next, -, -, advanced, rfl⟩ := taskStep_eq_some stepped
  rcases advance_cases advanced with moved | settled | sent
  · obtain ⟨store, status, rfl, -⟩ := moved
    exact ⟨status, rfl, rfl, rfl⟩
  · obtain ⟨signal, -, -, -, rfl, -⟩ := settled
    exact ⟨rfl, rfl, rfl, rfl⟩
  · obtain ⟨signal, -, -, rfl, -⟩ := sent
    rw [trySend_eq]
    exact ⟨rfl, rfl, rfl, rfl⟩

end

/-! ### What a step of the scheduler can do -/

/-- The steps of the scheduler loop, with what each of them requires. -/
inductive Schedules (defn : WorkflowDefinition D) (utc : Nat → Nat) (pre : Engine D) :
    Engine D → Prop
  | stop (phase : pre.scheduler = .polling) (cancelled : pre.store.status = .cancelled) :
    Schedules defn utc pre { pre with scheduler := .publishing .workflowCancelled }
  | enter (phase : pre.scheduler = .polling) (live : pre.store.status ≠ .cancelled) :
    Schedules defn utc pre { pre with scheduler := .draining }
  | drain {message : StepId × StepResult} {rest : List (StepId × StepResult)}
    (phase : pre.scheduler = .draining) (held : pre.channel = message :: rest) :
    Schedules defn utc pre ({ pre with channel := rest }.enqueueDependents defn message)
  | drained (phase : pre.scheduler = .draining) (empty : pre.channel = []) :
    Schedules defn utc pre { pre with scheduler := .reading }
  | read (phase : pre.scheduler = .reading) (free : pre.locked = false) :
    Schedules defn utc pre (pre.read defn)
  | schedule {snapshot : Snapshot} (phase : pre.scheduler = .scheduling snapshot)
    (free : pre.locked = false) :
    Schedules defn utc pre (pre.schedule defn utc snapshot)
  | launch {ready : List Nat} (phase : pre.scheduler = .launching ready) :
    Schedules defn utc pre (pre.launch defn ready)
  | check {tasksLaunched : Nat} (phase : pre.scheduler = .checking tasksLaunched)
    (free : pre.locked = false) :
    Schedules defn utc pre { pre with scheduler := pre.check tasksLaunched }
  | time (phase : pre.scheduler = .timing) (free : pre.locked = false) :
    Schedules defn utc pre { pre with scheduler := .sleeping pre.wakeTime }
  | receive {message : StepId × StepResult} {rest : List (StepId × StepResult)}
    (phase : pre.scheduler = .receiving) (held : pre.channel = message :: rest) :
    Schedules defn utc pre
      ({ pre with channel := rest, scheduler := .polling }.enqueueDependents defn message)
  | awake {wake : Nat} (phase : pre.scheduler = .sleeping wake) (passed : wake ≤ pre.now) :
    Schedules defn utc pre { pre with scheduler := .polling }
  | block (phase : pre.scheduler = .blocked) (free : pre.locked = false) :
    Schedules defn utc pre { pre with scheduler := .writing .failed pre.blockedEvent }
  | conclude (phase : pre.scheduler = .finishing) (free : pre.locked = false) :
    Schedules defn utc pre { pre with scheduler := pre.conclusion }
  | write {status : WorkflowStatus} {event : WorkflowEvent}
    (phase : pre.scheduler = .writing status event) :
    Schedules defn utc pre
      { pre with store := { pre.store with status := status }, scheduler := .publishing event }
  | publish {event : WorkflowEvent} (phase : pre.scheduler = .publishing event) :
    Schedules defn utc pre { pre with events := pre.events ++ [event], scheduler := .returned }

variable {flow : WorkflowDefinition D}

theorem schedules_of_schedulerStep {utc : Nat → Nat} {pre post : Engine D}
    (stepped : pre.schedulerStep flow utc = some post) : Schedules flow utc pre post := by
  unfold Engine.schedulerStep at stepped
  split at stepped
  · next phase =>
    split at stepped
    · next cancelled =>
      cases stepped
      exact .stop phase cancelled
    · next live =>
      cases stepped
      exact .enter phase live
  · next phase =>
    split at stepped
    · next held =>
      cases stepped
      exact .drain phase held
    · next empty =>
      cases stepped
      exact .drained phase empty
  · next phase =>
    obtain ⟨free, rfl⟩ := unlocked stepped
    exact .read phase free
  · next phase =>
    obtain ⟨free, rfl⟩ := unlocked stepped
    exact .schedule phase free
  · next phase =>
    split at stepped
    · cases stepped
    · cases stepped
      exact .launch phase
  · next phase =>
    obtain ⟨free, rfl⟩ := unlocked stepped
    exact .check phase free
  · next phase =>
    obtain ⟨free, rfl⟩ := unlocked stepped
    exact .time phase free
  · next phase =>
    split at stepped
    · next held =>
      cases stepped
      exact .receive phase held
    · cases stepped
  · next phase =>
    split at stepped
    · next passed =>
      cases stepped
      exact .awake phase passed
    · cases stepped
  · next phase =>
    obtain ⟨free, rfl⟩ := unlocked stepped
    exact .block phase free
  · next phase =>
    obtain ⟨free, rfl⟩ := unlocked stepped
    exact .conclude phase free
  · next phase =>
    cases stepped
    exact .write phase
  · next phase =>
    cases stepped
    exact .publish phase
  · cases stepped

theorem enqueueDependents_frame {engine : Engine D} (message : StepId × StepResult) :
    ∃ pending, engine.enqueueDependents flow message = { engine with pendingCheck := pending } := by
  unfold Engine.enqueueDependents
  split <;> exact ⟨_, rfl⟩

/-- What one step of an instance can do. -/
inductive Steps (defn : WorkflowDefinition D) (pre : Engine D) : Move D → Engine D → Prop
  | tick : Steps defn pre .tick { pre with now := pre.now + 1 }
  | cancel : Steps defn pre .cancel pre.cancel
  | listActive (listed : Nat) : Steps defn pre .listActive { pre with listed := listed }
  | cancelListed (listed : Nat) :
    Steps defn pre .cancelListed { pre.cancel with listed := listed }
  | scheduler {utc : Nat → Nat} {post : Engine D} :
    pre.schedulerStep defn utc = some post → Steps defn pre (.scheduler utc) post
  | task {position : Nat} {outcome : ExecutorOutcome} {context : D} {post : Engine D} :
    pre.taskStep defn position outcome context = some post →
    Steps defn pre (.task position outcome context) post

theorem steps_of_step {pre post : Engine D} {move : Move D}
    (stepped : pre.step flow move = some post) : Steps flow pre move post := by
  cases move with
  | tick =>
    cases stepped
    exact .tick
  | cancel =>
    cases stepped
    exact .cancel
  | listActive =>
    simp only [Engine.step] at stepped
    split at stepped <;> cases stepped <;> exact .listActive _
  | cancelListed =>
    simp only [Engine.step] at stepped
    split at stepped
    · cases stepped
      exact .cancelListed _
    · cases stepped
  | scheduler utc => exact .scheduler stepped
  | task position outcome context => exact .task stepped

theorem next_of_run {permits : Engine D → Move D → Bool} {allowed : Engine D → Move D → Prop}
    (sound : ∀ engine move, permits engine move = true → allowed engine move) :
    ∀ (moves : List (Move D)) {pre post : Engine D}, run flow permits moves pre = some post →
      Relation.ReflTransGen (Next flow allowed) pre post
  | [], pre, post, ran => by
    obtain rfl : pre = post := some.inj ran
    exact .refl
  | move :: rest, pre, post, ran => by
    unfold run at ran
    split at ran
    · next permitted =>
      obtain ⟨between, first, later⟩ := bind_eq_some_iff.mp ran
      exact .head ⟨move, sound pre move permitted, first⟩ (next_of_run sound rest later)
    · cases ran

end ModelGateway.Workflow
