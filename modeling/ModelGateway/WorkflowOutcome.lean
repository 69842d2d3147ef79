import ModelGateway.WorkflowLoop

/-! Whole executions that are never cancelled: the bookkeeping of the scheduler holds in every state, so a
terminal status says whether a step failed, and no step with satisfied dependencies is left out. -/
namespace ModelGateway.Workflow
open List

section
variable {D : Type} {flow : WorkflowDefinition D} {pre post engine : Engine D} {move : Move D}
  {data : D} {board : Board} {phase : SchedulerPhase}

/-- The scheduler reads a tracker in which nothing runs or waits only when no message of a step is on its
way, and looks at the wall clock for one step on one side of its scheduled time only. -/
def Calm (defn : WorkflowDefinition D) (engine : Engine D) : Move D → Prop
  | .scheduler clock =>
    (engine.scheduler = .reading → engine.tracker.running = [] → engine.tracker.waitingUntil.isEmpty = true →
      engine.channel = [] ∧ ∀ task ∈ engine.tasks, task.phase.sent = true) ∧
    ∀ snapshot, engine.scheduler = .scheduling snapshot → SameSide defn clock snapshot
  | .tick | .cancel | .listActive | .cancelListed | .task _ _ _ => True

/-- The steps of a calm execution that is never cancelled. -/
def Undisturbed (defn : WorkflowDefinition D) (engine : Engine D) (move : Move D) : Prop :=
  move.cancels = false ∧ Calm defn engine move

/-- Each step has one task at most, and the bookkeeping is sound. -/
structure Orderly (defn : WorkflowDefinition D) (engine : Engine D) : Prop where
  once : (engine.tasks.map StepTask.step).Nodup
  sound : Sound defn engine.board

theorem orderly_start (accepted : flow.Accepted) (data : D) : Orderly flow (.start flow data) := by
  have nothing : ∀ idx, (Engine.start flow data).board.standing idx = none := fun _ => rfl
  refine ⟨nodup_nil, ?_, fun _ => ?_, rfl⟩
  · refine ⟨nofun, nofun, ?_, nil_subset _, nodup_nil, ?_, ?_, ?_, nofun, nodup_nil, nofun⟩
    · intro idx step _
      exact ⟨nofun, nofun⟩
    · intro signal idx step _
      cases signal <;> exact ⟨nofun, nofun⟩
    · intro signal
      cases signal <;> exact nil_subset _
    · intro signal
      cases signal <;> exact nodup_nil
  · intro idx step defined _ _ unchecked _ met
    have named : step.allDependencies ≠ [] := by
      intro none_named
      exact unchecked ((accepted.initial idx).mpr ⟨step, defined, none_named⟩)
    obtain ⟨id, -, satisfied⟩ := StepTracker.exists_satisfied named met
    cases satisfied

theorem Orderly.launch (orderly : Orderly flow engine) (nodup : flow.Distinct) {ready : List Nat}
    (phase : engine.scheduler = .launching ready) : Orderly flow (engine.launch flow ready) := by
  refine ⟨?_, orderly.sound.launch nodup phase⟩
  obtain ⟨-, once, launchable⟩ : engine.board.status = .running ∧ ready.Nodup ∧
      Launchable flow engine.board ready := orderly.sound.facts phase
  have indices : (ready.map fun idx => (⟨idx, .starting⟩ : StepTask D)).map StepTask.step = ready := by
    rw [map_map]
    exact map_id ready
  rw [Engine.launch, map_append, indices, nodup_append]
  refine ⟨orderly.once, once, ?_⟩
  rintro idx mem _ new rfl
  obtain ⟨task, held, rfl⟩ := mem_map.mp mem
  exact phaseIn_eq_none.mp (standingIn_eq_none.mp (launchable task.step new).2.1) task held rfl

theorem enqueueDependents_pending (message : StepId × StepResult) :
    ∃ pending, engine.enqueueDependents flow message = { engine with pendingCheck := pending } ∧
      engine.pendingCheck ⊆ pending ∧
      (message.2 ≠ .failure → flow.getDependentIndices message.1 ⊆ pending) := by
  unfold Engine.enqueueDependents
  split
  · exact ⟨_, rfl, subset_append_left _ _, fun _ => subset_append_right _ _⟩
  · exact ⟨_, rfl, subset_append_left _ _, fun _ => subset_append_right _ _⟩
  · next failure => exact ⟨_, rfl, Subset.refl _, fun well => absurd failure well⟩

theorem Orderly.schedulerStep (orderly : Orderly flow pre) (accepted : flow.Accepted)
    (nodup : flow.Distinct) {clock : Nat → Nat} (calm : Calm flow pre (.scheduler clock))
    (stepped : pre.schedulerStep flow clock = some post) : Orderly flow post := by
  have once := orderly.once
  have sound := orderly.sound
  cases schedules_of_schedulerStep stepped with
  | stop phase cancelled =>
    have running : pre.board.status = .running := sound.facts phase
    cases cancelled.symm.trans running
  | enter phase | drained phase | time phase | awake phase =>
    exact ⟨once, sound.goTo phase rfl rfl (sound.facts phase)⟩
  | @drain message rest phase held =>
    obtain ⟨pending, same, kept, added⟩ := @enqueueDependents_pending D flow { pre with channel := rest } message
    have running : pre.board.status = .running := sound.facts phase
    have popped : Sound flow { pre.board with
        channel := rest, pendingCheck := pending, scheduler := .draining } :=
      sound.pop accepted nodup phase rfl rfl held kept added running
    rw [same]
    refine ⟨once, ?_⟩
    rw [← phase] at popped
    exact popped
  | read phase free =>
    refine ⟨once, sound.read nodup phase fun still idle => ?_⟩
    obtain ⟨empty, sent⟩ := calm.1 phase still idle
    refine ⟨empty, fun idx standing found => ?_⟩
    obtain ⟨task, mem, -, rfl⟩ := standingIn_eq_some found
    exact sent task mem
  | schedule phase free => exact ⟨once, sound.schedule accepted nodup phase (calm.2 _ phase)⟩
  | launch phase => exact orderly.launch nodup phase
  | check phase free => exact ⟨once, sound.check phase⟩
  | @receive message rest phase held =>
    obtain ⟨pending, same, kept, added⟩ :=
      @enqueueDependents_pending D flow { pre with channel := rest, scheduler := .polling } message
    obtain ⟨running, -⟩ : pre.board.status = .running ∧ Awaited pre.board := sound.facts phase
    rw [same]
    exact ⟨once, sound.pop accepted nodup phase rfl rfl held kept added running⟩
  | block phase free =>
    obtain ⟨running, verdict⟩ : pre.board.status = .running ∧
        Verdict flow pre.board .failed := sound.facts phase
    exact ⟨once, sound.goTo phase rfl rfl ⟨running, verdict.frame rfl rfl⟩⟩
  | conclude phase free => exact ⟨once, sound.conclude phase⟩
  | write phase => exact ⟨once, sound.write phase⟩
  | publish phase => exact ⟨once, sound.publish phase⟩

theorem Orderly.step (orderly : Orderly flow pre) (accepted : flow.Accepted)
    (nodup : flow.Distinct) (undisturbed : Undisturbed flow pre move)
    (stepped : pre.step flow move = some post) : Orderly flow post := by
  obtain ⟨live, calm⟩ := undisturbed
  cases steps_of_step stepped with
  | tick | listActive => exact ⟨orderly.once, orderly.sound⟩
  | cancel | cancelListed => cases live
  | scheduler stepped => exact orderly.schedulerStep accepted nodup calm stepped
  | task stepped =>
    obtain ⟨steps, same | ⟨idx, step, signal, defined, here, settled⟩ |
      ⟨idx, step, signal, defined, here, sent⟩⟩ := taskStep_board orderly.once stepped
    · refine ⟨by rw [steps]; exact orderly.once, ?_⟩
      rw [same]
      exact orderly.sound
    · refine ⟨by rw [steps]; exact orderly.once, ?_⟩
      rw [settled]
      exact orderly.sound.settle nodup defined here
    · refine ⟨by rw [steps]; exact orderly.once, ?_⟩
      rw [sent]
      exact orderly.sound.send nodup defined here

theorem orderly_of_reached (accepted : flow.Accepted) (nodup : flow.Distinct)
    (reached : Reached flow data (Undisturbed flow) engine) : Orderly flow engine := by
  induction reached with
  | refl => exact orderly_start accepted data
  | tail _ next ih =>
    obtain ⟨move, undisturbed, stepped⟩ := next
    exact ih.step accepted nodup undisturbed stepped

/-! ### Terminal statuses -/

theorem PhaseFacts.running (facts : PhaseFacts flow board phase) (open_ : phase.isOver = false) :
    board.status = .running := by
  cases phase with
  | polling | draining | reading | timing | sleeping _ => exact facts
  | scheduling _ | launching _ | checking _ | receiving | blocked | finishing | writing _ _ => exact facts.1
  | publishing _ | returned => cases open_

theorem PhaseFacts.verdict (facts : PhaseFacts flow board phase) (closed : phase.isOver = true) :
    Verdict flow board board.status := by
  cases phase with
  | publishing _ | returned => exact facts
  | polling | draining | reading | timing | sleeping _ | scheduling _ | launching _ | checking _
  | receiving | blocked | finishing | writing _ _ => cases closed

/-- The step of the index has ended. -/
def Ended (engine : Engine D) (idx : Nat) : Prop :=
  ∃ task ∈ engine.tasks, task.step = idx ∧ task.phase.signal?.isSome = true

theorem Orderly.terminal (orderly : Orderly flow engine) (terminal : engine.store.status.isTerminal = true) :
    (engine.store.status = .completed ↔ ∀ task ∈ engine.tasks, task.phase.signal? ≠ some .failure) ∧
      ∀ idx step, flow.steps[idx]? = some step → engine.tracker.depsMet step = true → Ended engine idx := by
  have closed : engine.board.scheduler.isOver = true := by
    by_contra open_
    rw [Bool.not_eq_true] at open_
    have running : engine.store.status = .running := orderly.sound.phase.running open_
    rw [running] at terminal
    cases terminal
  have verdict := orderly.sound.phase.verdict closed
  constructor
  · rcases verdict.status with ⟨completed, none_failed⟩ | ⟨failed, idx, standing, found, failure⟩
    · refine ⟨fun _ task mem failure => ?_, fun _ => completed⟩
      exact none_failed task.step _ (standingIn_of_mem orderly.once mem) failure
    · obtain ⟨task, mem, -, rfl⟩ := standingIn_eq_some found
      refine ⟨fun completed => ?_, fun none_failed => absurd failure (none_failed task mem)⟩
      cases completed.symm.trans failed
  · intro idx step defined met
    obtain ⟨standing, found⟩ := Option.isSome_iff_exists.mp (verdict.launched idx step defined met)
    have told := verdict.settled idx standing found
    obtain ⟨task, mem, rfl, rfl⟩ := standingIn_eq_some found
    exact ⟨task, mem, rfl, told⟩

/-! ### Reports of a deadlock -/

/-- The event says that the workflow is deadlocked. -/
def WorkflowEvent.reportsDeadlock : WorkflowEvent → Bool
  | .workflowFailed _ error => decide (error = "Workflow deadlocked: no steps ready and none running")
  | .workflowCompleted | .workflowCancelled => false

/-- The event that the scheduler is about to publish. -/
def SchedulerPhase.event? : SchedulerPhase → Option WorkflowEvent
  | .writing _ event | .publishing event => some event
  | _ => none

/-- No deadlock is reported or about to be. -/
structure Unalarmed (engine : Engine D) : Prop where
  published : ∀ event ∈ engine.events, event.reportsDeadlock = false
  decided : ∀ event, engine.scheduler.event? = some event → event.reportsDeadlock = false

theorem Orderly.blockedEvent (orderly : Orderly flow engine) (phase : engine.scheduler = .blocked) :
    engine.blockedEvent.reportsDeadlock = false := by
  obtain ⟨-, verdict⟩ : engine.board.status = .running ∧ Verdict flow engine.board .failed :=
    orderly.sound.facts phase
  rcases verdict.status with ⟨impossible, -⟩ | ⟨-, idx, standing, found, failure⟩
  · cases impossible
  · have tracked := orderly.sound.tracked
    have defined := getElem?_eq_getElem (tracked.known idx standing found)
    have failed : _ ∈ engine.tracker.failed := (tracked.ended .failure idx _ defined).mpr ⟨standing, found, failure⟩
    unfold Engine.blockedEvent
    split
    · simp [WorkflowEvent.reportsDeadlock]
    · next none_failed =>
      rw [head?_eq_none_iff] at none_failed
      rw [none_failed] at failed
      cases failed

theorem Unalarmed.step (unalarmed : Unalarmed pre) (orderly : Orderly flow pre)
    (live : move.cancels = false) (stepped : pre.step flow move = some post) : Unalarmed post := by
  obtain ⟨published, decided⟩ := unalarmed
  cases steps_of_step stepped with
  | tick | listActive => exact ⟨published, decided⟩
  | cancel | cancelListed => cases live
  | scheduler stepped =>
    cases schedules_of_schedulerStep stepped with
    | drain phase _ =>
      obtain ⟨pending, same⟩ := @enqueueDependents_frame D flow _ _
      rw [same]
      exact ⟨published, decided⟩
    | receive phase _ =>
      obtain ⟨pending, same⟩ := @enqueueDependents_frame D flow _ _
      rw [same]
      exact ⟨published, nofun⟩
    | schedule phase free =>
      refine ⟨published, fun event told => ?_⟩
      simp only [Engine.schedule, Engine.afterPass] at told
      split at told
      · cases told
      · split at told <;> cases told
    | check phase free =>
      refine ⟨published, fun event told => ?_⟩
      simp only [Engine.check] at told
      split at told
      · cases told
      · split at told <;> cases told
    | block phase free =>
      refine ⟨published, fun event told => ?_⟩
      cases told
      exact orderly.blockedEvent phase
    | conclude phase free =>
      refine ⟨published, fun event told => ?_⟩
      simp only [Engine.conclusion] at told
      split at told <;> cases told <;> simp [WorkflowEvent.reportsDeadlock]
    | write phase =>
      refine ⟨published, fun event told => decided event ?_⟩
      rw [phase]
      exact told
    | @publish event phase =>
      refine ⟨forall_mem_snoc.mpr ⟨published, decided event ?_⟩, nofun⟩
      rw [phase]
      rfl
    | stop phase _ =>
      refine ⟨published, fun event told => ?_⟩
      cases told
      rfl
    | enter | drained | read | launch | time | awake => exact ⟨published, nofun⟩
  | task stepped =>
    obtain ⟨-, scheduler, -, events⟩ := taskStep_frame stepped
    exact ⟨events ▸ published, scheduler ▸ decided⟩

theorem unalarmed_of_reached (accepted : flow.Accepted) (nodup : flow.Distinct)
    (reached : Reached flow data (Undisturbed flow) engine) : Unalarmed engine := by
  induction reached with
  | refl => exact ⟨nofun, nofun⟩
  | tail earlier next ih =>
    obtain ⟨move, undisturbed, stepped⟩ := next
    exact ih.step (orderly_of_reached accepted nodup earlier) undisturbed.1 stepped

end
end ModelGateway.Workflow
