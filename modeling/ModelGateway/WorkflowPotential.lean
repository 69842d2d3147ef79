import ModelGateway.WorkflowOutcome

/-! What is left to do in a workflow: how far each step is from its end, and the messages the scheduler has
not taken.  Every step of an execution lowers that measure, or leaves the tasks, the channel and the
tracker as they are. -/
namespace ModelGateway.Workflow
open List Engine TaskPhase Nat Finset Function

variable {D : Type}

/-! ### A task comes closer to its end -/

/-- How many steps a task takes at most; a message it has yet to send counts twice. -/
def TaskPhase.remaining (attempts : Nat) : TaskPhase D → Nat
  | .starting => 8 * attempts + 12
  | .polling attempt => 8 * (attempts - attempt) + 11
  | .marking attempt => 8 * (attempts - attempt) + 10
  | .copying attempt => 8 * (attempts - attempt) + 9
  | .executing attempt _ => 8 * (attempts - attempt) + 8
  | .writingBack attempt _ _ => 8 * (attempts - attempt) + 7
  | .failing attempt true => 8 * (attempts - attempt) + 6
  | .backingOff attempt => 8 * (attempts - attempt) + 5
  | .failing _ false | .succeeding => 5
  | .skipping | .settling _ => 4
  | .skipRecording | .sending _ _ => 3
  | .skipSending => 2
  | .recordingSkip _ => 1
  | .ended _ => 0

/-- A task that will try again has an attempt left. -/
def TaskPhase.Within (attempts : Nat) : TaskPhase D → Prop
  | .failing attempt true | .backingOff attempt => attempt < attempts
  | _ => True

section
variable {flow : WorkflowDefinition D} {pre post engine : Engine D} {step : StepDefinition D}
  {outcome : ExecutorOutcome} {context : D} {phase next : TaskPhase D}

theorem afterCall_remaining (attempt : Nat) (context : D) :
    (afterCall flow step attempt outcome).Within (maxAttempts flow step) ∧
      (afterCall flow step attempt outcome).remaining (maxAttempts flow step) <
      (TaskPhase.writingBack attempt context outcome).remaining (maxAttempts flow step) := by
  have failing : ∀ retry : Bool, (retry = true → attempt < maxAttempts flow step) →
      (TaskPhase.failing attempt retry : TaskPhase D).Within (maxAttempts flow step) ∧
        (TaskPhase.failing attempt retry : TaskPhase D).remaining (maxAttempts flow step) <
          (TaskPhase.writingBack attempt context outcome).remaining (maxAttempts flow step) := by
    intro retry left
    cases retry with
    | true => exact ⟨left rfl, lt_succ_self _⟩
    | false => exact ⟨trivial, by simp only [remaining]; omega⟩
  cases outcome with
  | returned result =>
    cases result with
    | success | skip => exact ⟨trivial, by simp only [afterCall, remaining]; omega⟩
    | failure => exact failing false nofun
  | error retryable =>
    refine failing _ fun retry => ?_
    simp only [Bool.and_eq_true, decide_eq_true_eq] at retry
    exact retry.2
  | timedOut => exact failing _ fun retry => by simpa using retry

theorem length_trySend (message : StepId × StepResult) :
    (engine.trySend flow message).channel.length ≤ engine.channel.length + 1 := by
  unfold trySend
  split <;> simp

/-- A step of a task lowers what is left of it, by more than the message it may send. -/
theorem advance_remaining (within : phase.Within (maxAttempts flow step))
    (stepped : pre.advance flow step outcome context phase = some (post, next)) :
    next.Within (maxAttempts flow step) ∧ next.remaining (maxAttempts flow step) + post.channel.length <
        phase.remaining (maxAttempts flow step) + pre.channel.length := by
  cases phase with
  | starting =>
    simp only [advance] at stepped
    split at stepped
    · cases stepped
      split <;> exact ⟨trivial, by simp only [remaining]; omega⟩
    · cases stepped
      exact ⟨trivial, by simp only [remaining]; omega⟩
  | skipping | settling result =>
    simp only [advance] at stepped
    split at stepped
    · cases stepped
    · cases stepped
      exact ⟨trivial, by simp only [remaining]; omega⟩
  | skipSending =>
    cases stepped
    have grown := @length_trySend D flow pre (step.id, .skip)
    exact ⟨trivial, by simp only [remaining]; omega⟩
  | sending signal needs =>
    cases stepped
    have grown := @length_trySend D flow pre (step.id, signal)
    split <;> exact ⟨trivial, by simp only [remaining]; omega⟩
  | polling attempt =>
    cases stepped
    split <;> exact ⟨trivial, by simp only [remaining]; omega⟩
  | writingBack attempt written ended =>
    cases stepped
    obtain ⟨still, less⟩ := @afterCall_remaining D flow step ended attempt written
    exact ⟨still, Nat.add_lt_add_right less _⟩
  | failing attempt willRetry =>
    cases stepped
    cases willRetry with
    | true => exact ⟨within, Nat.add_lt_add_right (lt_succ_self _) _⟩
    | false => exact ⟨trivial, Nat.add_lt_add_right (lt_succ_self 4) _⟩
  | backingOff attempt =>
    cases stepped
    have left : attempt < maxAttempts flow step := within
    exact ⟨trivial, by simp only [remaining]; omega⟩
  | marking attempt | copying attempt | executing attempt copied | succeeding | skipRecording
  | recordingSkip signal =>
    cases stepped
    exact ⟨trivial, Nat.add_lt_add_right (lt_succ_self _) _⟩
  | ended signal => cases stepped

theorem advance_isSome (unended : ∀ signal, phase ≠ .ended signal)
    (free : phase.locks = true ∨ engine.locked = false) :
    (engine.advance flow step outcome context phase).isSome = true := by
  cases phase with
  | starting =>
    simp only [advance]
    split <;> rfl
  | skipping | settling result =>
    have unlocked : engine.locked = false := free.resolve_left Bool.false_ne_true
    simp [advance, unlocked]
  | ended signal => exact absurd rfl (unended signal)
  | _ => rfl

end

/-! ### What is left of a workflow -/

/-- How often the step of an index is tried at most. -/
def attemptsOf (defn : WorkflowDefinition D) (idx : Nat) : Nat :=
  match defn.steps[idx]? with
  | some step => maxAttempts defn step
  | none => 0

/-- The steps that are about to be launched. -/
def SchedulerPhase.readied : SchedulerPhase → List Nat
  | .launching ready => ready
  | _ => []

namespace Engine

/-- How far a step is from its end.  A step is set waiting, made ready and launched, in this order. -/
def stage (defn : WorkflowDefinition D) (engine : Engine D) (idx : Nat) : Nat :=
  match phaseIn engine.tasks idx with
  | some phase => phase.remaining (attemptsOf defn idx)
  | none =>
    8 * attemptsOf defn idx +
      if idx ∈ engine.scheduler.readied then 13
      else if engine.tracker.waitingUntil.contains idx then 14 else 15

def potential (defn : WorkflowDefinition D) (engine : Engine D) : Nat :=
  ∑ idx ∈ range defn.steps.length, engine.stage defn idx + engine.channel.length

end Engine

section
variable {flow : WorkflowDefinition D} {pre post engine : Engine D}

variable {idx : Nat} {snapshot : Snapshot} {clock : Nat → Nat} {move : Move D}

theorem potential_lt (inside : idx < flow.steps.length) (all : ∀ other < flow.steps.length, other ≠ idx →
      post.stage flow other ≤ pre.stage flow other)
    (here : post.stage flow idx + post.channel.length < pre.stage flow idx + pre.channel.length) :
    post.potential flow < pre.potential flow := by
  have mem : idx ∈ Finset.range flow.steps.length := Finset.mem_range.mpr inside
  have rest : ∑ other ∈ (Finset.range flow.steps.length).erase idx, post.stage flow other ≤
      ∑ other ∈ (Finset.range flow.steps.length).erase idx, pre.stage flow other := by
    apply Finset.sum_le_sum
    intro other among
    obtain ⟨elsewhere, range⟩ := mem_erase.mp among
    exact all other (Finset.mem_range.mp range) elsewhere
  unfold Engine.potential
  rw [← add_sum_erase _ _ mem, ← add_sum_erase _ _ mem]
  omega

theorem potential_le (channel : post.channel = pre.channel)
    (all : ∀ idx < flow.steps.length, post.stage flow idx ≤ pre.stage flow idx) :
    post.potential flow ≤ pre.potential flow := by
  unfold Engine.potential
  rw [channel]
  exact Nat.add_le_add_right (sum_le_sum fun idx mem => all idx (mem_range.mp mem)) _

theorem stage_of_none (unlaunched : phaseIn engine.tasks idx = none) :
    engine.stage flow idx = 8 * attemptsOf flow idx +
      if idx ∈ engine.scheduler.readied then 13
      else if engine.tracker.waitingUntil.contains idx then 14 else 15 := by
  simp only [Engine.stage, unlaunched]

section
variable (tasks : post.tasks = pre.tasks) (readied : post.scheduler.readied = pre.scheduler.readied)
  (waiting : post.tracker.waitingUntil = pre.tracker.waitingUntil)
include tasks readied waiting

theorem stage_congr (idx : Nat) : post.stage flow idx = pre.stage flow idx := by
  unfold Engine.stage
  rw [tasks, readied, waiting]

theorem potential_pop {message : StepId × StepResult} (channel : pre.channel = message :: post.channel) :
    post.potential flow < pre.potential flow := by
  unfold Engine.potential
  rw [channel, sum_congr rfl fun idx _ => stage_congr tasks readied waiting idx]
  exact Nat.add_lt_add_left (lt_succ_self _) _

end

/-- Every task that will try again has an attempt left. -/
def Bounded (defn : WorkflowDefinition D) (engine : Engine D) : Prop :=
  ∀ task ∈ engine.tasks, task.phase.Within (attemptsOf defn task.step)

/-- A step of a task lowers the potential. -/
theorem potential_taskStep {position : Nat} {outcome : ExecutorOutcome} {context : D}
    (once : (pre.tasks.map StepTask.step).Nodup) (bounded : Bounded flow pre)
    (stepped : pre.taskStep flow position outcome context = some post) :
    Bounded flow post ∧ post.potential flow < pre.potential flow := by
  obtain ⟨⟨idx, phase⟩, step, middle, next, spawned, defined, advanced, rfl⟩ := taskStep_eq_some stepped
  have attempts : attemptsOf flow idx = maxAttempts flow step := by rw [attemptsOf, defined]
  have within : phase.Within (attemptsOf flow idx) := bounded ⟨idx, phase⟩ (mem_of_getElem? spawned)
  rw [attempts] at within
  obtain ⟨still, less⟩ := advance_remaining within advanced
  rw [← attempts] at still less
  have held : phaseIn pre.tasks idx = some phase := phaseIn_of_mem once (mem_of_getElem? spawned)
  have moved := @phaseIn_set _ _ _ _ _ next once spawned
  constructor
  · intro task mem
    rcases mem_or_eq_of_mem_set mem with old | rfl
    · exact bounded task old
    · exact still
  · apply potential_lt (List.getElem?_eq_some_iff.mp defined).1
    · intro other _ elsewhere
      apply le_of_eq
      have frame : middle.scheduler = pre.scheduler ∧
          middle.tracker.waitingUntil = pre.tracker.waitingUntil := by
        rcases advance_cases advanced with quiet | settled | sent
        · obtain ⟨store, -, rfl, -⟩ := quiet
          exact ⟨rfl, rfl⟩
        · obtain ⟨signal, -, -, -, rfl, -⟩ := settled
          exact ⟨rfl, StepTracker.waitingUntil_finish⟩
        · obtain ⟨signal, -, -, rfl, -⟩ := sent
          rw [trySend_eq]
          exact ⟨rfl, rfl⟩
      simp only [Engine.stage, moved, update_of_ne elsewhere, frame.1, frame.2]
    · simpa only [Engine.stage, moved, update_self, held] using less

/-- Launching steps lowers the potential. -/
theorem potential_launch {ready : List Nat} (phase : pre.scheduler = .launching ready)
    (launchable : Launchable flow pre.board ready) :
    (pre.launch flow ready).potential flow ≤ pre.potential flow ∧ (ready ≠ [] →
        (pre.launch flow ready).potential flow < pre.potential flow) := by
  have tasks : phaseIn (pre.launch flow ready).tasks =
      fun idx => if idx ∈ ready then some .starting else phaseIn pre.tasks idx :=
    phaseIn_append fun idx mem => standingIn_eq_none.mp (launchable idx mem).2.1
  have waiting : (pre.launch flow ready).tracker.waitingUntil = pre.tracker.waitingUntil := by
    have started : Started flow ready pre.tracker (pre.launch flow ready).tracker :=
      started_foldl ready pre.tracker
    rw [started.sets]
  have new : ∀ idx ∈ ready, (pre.launch flow ready).stage flow idx < pre.stage flow idx := by
    intro idx mem
    have unlaunched := standingIn_eq_none.mp (launchable idx mem).2.1
    simp only [Engine.stage, tasks, if_pos mem, unlaunched, phase, SchedulerPhase.readied, remaining]
    exact lt_succ_self _
  have old : ∀ idx ∉ ready, (pre.launch flow ready).stage flow idx = pre.stage flow idx := by
    intro idx outside
    simp only [Engine.stage, tasks, if_neg outside, phase, SchedulerPhase.readied, waiting]
    rfl
  have all : ∀ idx < flow.steps.length, (pre.launch flow ready).stage flow idx ≤ pre.stage flow idx := by
    intro idx _
    by_cases mem : idx ∈ ready
    · exact (new idx mem).le
    · exact (old idx mem).le
  refine ⟨potential_le rfl all, fun some_ => ?_⟩
  obtain ⟨idx, mem⟩ := exists_mem_of_ne_nil ready some_
  apply potential_lt (launchable idx mem).1
  · exact fun other inside _ => all other inside
  · exact Nat.add_lt_add_right (new idx mem) _

theorem mem_readied_schedule (fresh : Fresh flow pre.board snapshot)
    (inside : idx < flow.steps.length) (unlaunched : phaseIn pre.tasks idx = none)
    (ready : idx ∈ (pre.pass flow clock snapshot).ready) :
    idx ∈ (pre.schedule flow clock snapshot).scheduler.readied := by
  show idx ∈ (pre.afterPass flow snapshot (pre.pass flow clock snapshot)).readied
  unfold afterPass
  split
  · next total =>
    obtain ⟨standing, found, -⟩ := fresh.all total idx inside
    have missing : pre.board.standing idx = none := standingIn_eq_none.mpr unlaunched
    rw [missing] at found
    cases found
  · split
    · next stuck =>
      rw [stuck.1] at ready
      cases ready
    · exact ready

/-- Phase 2 lowers the potential when it has read an index. -/
theorem potential_schedule (phase : pre.scheduler = .scheduling snapshot)
    (tracked : Tracked flow pre.board) (fresh : Fresh flow pre.board snapshot)
    (same : SameSide flow clock snapshot) :
    (pre.schedule flow clock snapshot).potential flow ≤ pre.potential flow ∧
      (snapshot.waitReady ≠ [] ∨ snapshot.depsReady ≠ [] →
        (pre.schedule flow clock snapshot).potential flow < pre.potential flow) := by
  have result := pass_result pre clock snapshot fun idx mem => (fresh.ready idx mem).1
  have placed := placed_of_result tracked fresh same result
  have none_readied : pre.scheduler.readied = [] := by rw [phase]; rfl
  have stages {idx : Nat} (launched : phaseIn pre.tasks idx = none) :
      pre.stage flow idx = 8 * attemptsOf flow idx +
          (if pre.tracker.waitingUntil.contains idx then 14 else 15) ∧
        (pre.schedule flow clock snapshot).stage flow idx = 8 * attemptsOf flow idx +
          if idx ∈ (pre.schedule flow clock snapshot).scheduler.readied then 13
          else if (pre.pass flow clock snapshot).tracker.waitingUntil.contains idx then 14 else 15 := by
    refine ⟨?_, stage_of_none launched⟩
    rw [stage_of_none launched, none_readied, if_neg not_mem_nil]
  have all : ∀ idx < flow.steps.length,
      (pre.schedule flow clock snapshot).stage flow idx ≤ pre.stage flow idx := by
    intro idx inside
    cases launched : phaseIn pre.tasks idx with
    | some task => exact le_of_eq (by simp only [Engine.stage, schedule, launched])
    | none =>
      rw [(stages launched).1, (stages launched).2]
      apply Nat.add_le_add_left
      by_cases held : pre.tracker.waitingUntil.contains idx = true
      · rcases placed.kept idx held with ready | still
        · simp [mem_readied_schedule fresh inside launched ready, held]
        · simp only [still, held, if_true]
          split <;> omega
      · rw [if_neg held]
        split_ifs <;> omega
  refine ⟨potential_le rfl all, fun some_ => ?_⟩
  obtain ⟨idx, inside, less⟩ : ∃ idx < flow.steps.length,
      (pre.schedule flow clock snapshot).stage flow idx < pre.stage flow idx := by
    rcases some_ with woken | checked
    · obtain ⟨idx, mem⟩ := exists_mem_of_ne_nil _ woken
      have held : pre.tracker.waitingUntil.contains idx = true := fresh.waiting idx mem
      obtain ⟨inside, missing⟩ := tracked.waiting idx held
      have launched := standingIn_eq_none.mp missing
      have listed := mem_readied_schedule fresh inside launched ((result.ready idx).mpr (.inl mem))
      refine ⟨idx, inside, ?_⟩
      rw [(stages launched).1, (stages launched).2]
      simp [listed, held]
    · obtain ⟨idx, mem⟩ := exists_mem_of_ne_nil _ checked
      obtain ⟨inside, missing, idle⟩ := fresh.ready idx mem
      have idle : pre.tracker.waitingUntil.contains idx = false := idle
      have launched := standingIn_eq_none.mp missing
      refine ⟨idx, inside, ?_⟩
      rw [(stages launched).1, (stages launched).2]
      rcases placed.decided idx mem with ready | waits
      · simp [mem_readied_schedule fresh inside launched ready, idle]
      · simp only [waits, idle, if_true]
        split <;> simp
  apply potential_lt inside
  · exact fun other within _ => all other within
  · exact Nat.add_lt_add_right less _

/-! ### Steps that bring nothing forward -/

/-- How many steps the scheduler takes at most until it reads the tracker again or is over, when it finds
nothing to do. -/
def SchedulerPhase.ahead : SchedulerPhase → Nat
  | .scheduling _ => 9
  | .launching _ => 8
  | .checking _ => 7
  | .timing => 6
  | .sleeping _ | .receiving => 5
  | .polling => 4
  | .draining | .blocked | .finishing => 3
  | .reading | .writing _ _ => 2
  | .publishing _ => 1
  | .returned => 0

/-- A step that leaves the tasks, the channel and the tracker as they are. -/
structure Idles (defn : WorkflowDefinition D) (pre post : Engine D) : Prop where
  tasks : post.tasks = pre.tasks
  channel : post.channel = pre.channel
  tracker : post.tracker = pre.tracker
  level : post.potential defn ≤ pre.potential defn

theorem idles_of_eq (tasks : post.tasks = pre.tasks) (channel : post.channel = pre.channel)
    (tracker : post.tracker = pre.tracker)
    (readied : post.scheduler.readied = pre.scheduler.readied) : Idles flow pre post := by
  refine ⟨tasks, channel, tracker, le_of_eq ?_⟩
  have waiting := congrArg StepTracker.waitingUntil tracker
  rw [Engine.potential, Engine.potential, channel, sum_congr rfl fun idx _ => stage_congr tasks readied waiting idx]

theorem ahead_check (engine : Engine D) (tasksLaunched : Nat) :
    (engine.check tasksLaunched).ahead < 7 ∧ (engine.check tasksLaunched).readied = [] := by
  unfold check
  split
  · exact ⟨by decide, rfl⟩
  · split
    · exact ⟨by decide, rfl⟩
    · exact ⟨by decide, rfl⟩

theorem ahead_conclusion (engine : Engine D) : engine.conclusion.ahead = 2 ∧ engine.conclusion.readied = [] := by
  unfold conclusion
  split <;> exact ⟨rfl, rfl⟩

theorem ahead_afterPass (snapshot : Snapshot) (pass : Pass) : (engine.afterPass flow snapshot pass).ahead < 9 := by
  unfold afterPass
  split
  · decide
  · split
    · decide
    · exact lt_succ_self 8

/-- A step of the scheduler brings the workflow forward, or the scheduler closer to its next look at the
tracker. -/
theorem Orderly.schedulerStep_idles (orderly : Orderly flow pre) (calm : Calm flow pre (.scheduler clock))
    (stepped : pre.schedulerStep flow clock = some post) :
    post.potential flow < pre.potential flow ∨ Idles flow pre post ∧
        (pre.scheduler = .reading ∨ post.scheduler.ahead < pre.scheduler.ahead) := by
  have sound := orderly.sound
  cases schedules_of_schedulerStep stepped with
  | @drain message rest phase held =>
    left
    obtain ⟨pending, same⟩ := @enqueueDependents_frame D flow { pre with channel := rest } message
    rw [same]
    exact potential_pop rfl rfl rfl held
  | @receive message rest phase held =>
    left
    obtain ⟨pending, same⟩ :=
      @enqueueDependents_frame D flow { pre with channel := rest, scheduler := .polling } message
    rw [same]
    exact potential_pop rfl (by rw [phase]; rfl) rfl held
  | read phase free => exact .inr ⟨idles_of_eq rfl rfl rfl (by rw [phase]; rfl), .inl phase⟩
  | @schedule snapshot phase free =>
    obtain ⟨-, fresh⟩ : pre.board.status = .running ∧ Fresh flow pre.board snapshot := sound.facts phase
    obtain ⟨level, falls⟩ := potential_schedule phase sound.tracked fresh (calm.2 snapshot phase)
    by_cases some_ : snapshot.waitReady ≠ [] ∨ snapshot.depsReady ≠ []
    · exact .inl (falls some_)
    · right
      rw [not_or, not_not, not_not] at some_
      have same : pre.pass flow clock snapshot = { tracker := pre.tracker } := by
        rw [Engine.pass, some_.1, some_.2]
        rfl
      refine ⟨⟨rfl, rfl, congrArg Pass.tracker same, level⟩, .inr ?_⟩
      rw [phase]
      exact ahead_afterPass snapshot _
  | @launch ready phase =>
    obtain ⟨-, -, launchable⟩ : pre.board.status = .running ∧ ready.Nodup ∧
        Launchable flow pre.board ready := sound.facts phase
    obtain ⟨level, falls⟩ := potential_launch phase launchable
    cases ready with
    | nil =>
      right
      refine ⟨⟨List.append_nil _, rfl, rfl, level⟩, .inr ?_⟩
      rw [phase]
      exact lt_succ_self 7
    | cons first rest => exact .inl (falls (cons_ne_nil _ _))
  | @check launched phase free =>
    obtain ⟨less, none_readied⟩ := ahead_check pre launched
    refine .inr ⟨idles_of_eq rfl rfl rfl ?_, .inr ?_⟩
    · rw [phase]
      exact none_readied
    · rw [phase]
      exact less
  | conclude phase free =>
    obtain ⟨two, none_readied⟩ := ahead_conclusion pre
    refine .inr ⟨idles_of_eq rfl rfl rfl ?_, .inr ?_⟩
    · rw [phase]
      exact none_readied
    · rw [phase]
      exact two.trans_lt (by decide)
  | stop phase _ | enter phase _ | drained phase _ | time phase _ | awake phase _ | block phase _
  | write phase | publish phase =>
    refine .inr ⟨idles_of_eq rfl rfl rfl (by rw [phase]; rfl), .inr ?_⟩
    simp [phase, SchedulerPhase.ahead]

theorem Orderly.descends_or_idles (orderly : Orderly flow pre) (bounded : Bounded flow pre)
    (undisturbed : Undisturbed flow pre move) (stepped : pre.step flow move = some post) :
    Bounded flow post ∧ (post.potential flow < pre.potential flow ∨ Idles flow pre post) := by
  cases steps_of_step stepped with
  | tick | listActive => exact ⟨bounded, .inr (idles_of_eq rfl rfl rfl rfl)⟩
  | cancel | cancelListed => cases undisturbed.1
  | scheduler stepped =>
    refine ⟨?_, (orderly.schedulerStep_idles undisturbed.2 stepped).imp_right And.left⟩
    cases schedules_of_schedulerStep stepped with
    | drain | receive =>
      obtain ⟨pending, same⟩ := @enqueueDependents_frame D flow _ _
      rw [same]
      exact bounded
    | @launch ready phase =>
      refine forall_mem_append.mpr ⟨bounded, forall_mem_map.mpr fun idx _ => ?_⟩
      exact trivial
    | _ => exact bounded
  | task stepped =>
    exact (potential_taskStep orderly.once bounded stepped).imp_right .inl

theorem bounded_of_reached (accepted : flow.Accepted) (nodup : flow.Distinct) {data : D}
    (reached : Reached flow data (Undisturbed flow) engine) : Bounded flow engine := by
  induction reached with
  | refl => exact nofun
  | tail earlier next ih =>
    obtain ⟨move, undisturbed, stepped⟩ := next
    exact ((orderly_of_reached accepted nodup earlier).descends_or_idles ih undisturbed stepped).1

end

end ModelGateway.Workflow
