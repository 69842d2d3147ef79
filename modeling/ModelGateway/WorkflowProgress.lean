import ModelGateway.FairPath
import ModelGateway.WorkflowPotential

/-! Every fair execution of an accepted definition reaches a terminal status, if it is never cancelled and
the scheduler does not look at the tracker while a message is on its way.  What is left to do falls until
nothing moves any more but the clock and the scheduler; by then every task has ended, and once the clock
has passed all waiting times the scheduler launches a step or is over. -/
namespace ModelGateway.Workflow
open List Engine WorkflowDefinition Nat KeyedMap
open Option (some bind_eq_some_iff getD_some)

open FairPath

variable {D : Type} {position : Nat} {task : StepTask D} {outcome : ExecutorOutcome} {context : D}

/-- An execution of an instance without end, with allowed steps only. -/
structure Execution (defn : WorkflowDefinition D) (data : D) (allowed : Engine D → Move D → Prop) where
  path : Path fun pre move post => allowed pre move ∧ pre.step defn move = some post
  first : path.state 0 = .start defn data

instance {defn : WorkflowDefinition D} {data : D} {allowed : Engine D → Move D → Prop} :
    CoeFun (Execution defn data allowed) fun _ => Nat → Engine D := ⟨fun execution => execution.path⟩

/-- The scheduler and every task move when they stay able to, so every call of an executor returns; and the
clock does not stop. -/
structure Execution.Fair {defn : WorkflowDefinition D} {data : D}
    {allowed : Engine D → Move D → Prop} (execution : Execution defn data allowed) : Prop where
  scheduler : execution.path.WeaklyFair (fun engine => ∃ clock, (engine.schedulerStep defn clock).isSome = true)
    (fun move => ∃ clock, move = .scheduler clock)
  task : ∀ position, execution.path.WeaklyFair (fun engine => ∃ outcome context,
      (engine.taskStep defn position outcome context).isSome = true)
    (fun move => ∃ outcome context, move = .task position outcome context)
  time : ∀ bound, ∃ time, bound ≤ (execution.path.state time).now

/-! ### What the steps of others keep -/

section
variable {flow : WorkflowDefinition D} {pre post engine : Engine D} {move : Move D}

theorem scheduler_kept (once : (pre.tasks.map StepTask.step).Nodup)
    (stepped : pre.step flow move = some post) (other : ¬∃ clock, move = .scheduler clock) :
    post.scheduler = pre.scheduler ∧ post.pendingCheck = pre.pendingCheck := by
  cases steps_of_step stepped with
  | tick | cancel | listActive | cancelListed => exact ⟨rfl, rfl⟩
  | scheduler => exact absurd ⟨_, rfl⟩ other
  | task stepped =>
    obtain ⟨-, same | ⟨idx, step, signal, -, -, settled⟩ | ⟨idx, step, signal, -, -, sent⟩⟩ :=
      taskStep_board once stepped
    · exact ⟨congrArg Board.scheduler same, congrArg Board.pendingCheck same⟩
    · exact ⟨congrArg Board.scheduler settled, congrArg Board.pendingCheck settled⟩
    · exact ⟨congrArg Board.scheduler sent, congrArg Board.pendingCheck sent⟩

theorem now_le (stepped : pre.step flow move = some post) : pre.now ≤ post.now := by
  cases steps_of_step stepped with
  | tick => exact le_succ _
  | cancel | listActive | cancelListed => exact le_rfl
  | scheduler stepped =>
    cases schedules_of_schedulerStep stepped with
    | drain | receive =>
      obtain ⟨pending, same⟩ := @enqueueDependents_frame D flow _ _
      rw [same]
    | _ => exact le_rfl
  | task stepped => exact (taskStep_frame stepped).2.2.1.ge

theorem taskStep_isSome {step : StepDefinition D} (spawned : engine.tasks[position]? = some task)
    (defined : flow.steps[task.step]? = some step) (unended : ∀ signal, task.phase ≠ .ended signal)
    (free : task.phase.locks = true ∨ engine.locked = false) :
    (engine.taskStep flow position outcome context).isSome = true := by
  obtain ⟨⟨post, next⟩, advanced⟩ := Option.isSome_iff_exists.mp
    (@advance_isSome D flow engine step outcome context task.phase unended free)
  simp only [taskStep, spawned, defined, advanced, Option.isSome_some]

theorem schedulerStep_isSome {clock : Nat → Nat} (open_ : engine.scheduler.isOver = false)
    (free : engine.locked = false) (held : engine.scheduler = .receiving → engine.channel ≠ [])
    (passed : ∀ wake, engine.scheduler = .sleeping wake → wake ≤ engine.now) :
    (engine.schedulerStep flow clock).isSome = true := by
  unfold schedulerStep
  cases phase : engine.scheduler with
  | polling | draining => dsimp only; split <;> rfl
  | reading | scheduling | checking | timing | blocked | finishing | launching => simp [free]
  | receiving =>
    dsimp only
    split
    · rfl
    · next empty => exact absurd empty (held phase)
  | sleeping wake => simp [passed wake phase]
  | writing status event => rfl
  | publishing event | returned =>
    rw [phase] at open_
    cases open_

end

theorem exists_ready_at (tracker : StepTracker) :
    ∃ bound, ∀ now ≥ bound, tracker.getReadyWaitingIndices now = [] → tracker.waitingUntil.size = 0 := by
  refine ⟨tracker.waitingUntil.values.sum, fun now passed none_ready => ?_⟩
  rw [StepTracker.getReadyWaitingIndices, map_eq_nil_iff, filter_eq_nil_iff] at none_ready
  have empty : tracker.waitingUntil.toList = [] := by
    apply eq_nil_iff_forall_not_mem.mpr
    intro entry mem
    apply none_ready entry mem
    have listed : entry.2 ∈ tracker.waitingUntil.values := by
      rw [values_eq]
      exact mem_map_of_mem mem
    exact decide_eq_true ((le_sum_of_mem listed).trans passed)
  rw [KeyedMap.size, keys_eq, empty]
  rfl

/-! ### An execution that does not reach a terminal status -/

/-- From some time on nothing comes closer to its end, and no terminal status is reached. -/
structure Stuck {defn : WorkflowDefinition D} {data : D}
    (execution : Execution defn data (Undisturbed defn)) (start : Nat) : Prop where
  unfinished : ∀ time, (execution.path.state time).store.status.isTerminal = false
  level : ∀ time ≥ start, (execution.path.state (time + 1)).potential defn =
    (execution.path.state time).potential defn

section
variable {flow : WorkflowDefinition D} {data : D}
  {execution : Execution flow data (Undisturbed flow)} {start time : Nat}

variable (execution)

theorem Execution.reached (time : Nat) : Reached flow data (Undisturbed flow) (execution time) := by
  have reached := execution.path.reached time
  rw [execution.first] at reached
  exact reached

theorem Execution.monotone_now : Monotone fun time => (execution time).now :=
  monotone_nat_of_le_succ fun time => now_le (execution.path.next time).2

variable (accepted : flow.Accepted) (nodup : flow.Distinct)
include accepted nodup

theorem Execution.orderly (time : Nat) : Orderly flow (execution time) :=
  orderly_of_reached accepted nodup (execution.reached time)

theorem Execution.bounded (time : Nat) : Bounded flow (execution time) :=
  bounded_of_reached accepted nodup (execution.reached time)

variable {execution} (stuck : Stuck execution start)
include stuck

theorem Stuck.open_ (time : Nat) : (execution time).scheduler.isOver = false := by
  by_contra closed
  rw [Bool.not_eq_false] at closed
  have verdict := (execution.orderly accepted nodup time).sound.phase.verdict closed
  have unfinished := stuck.unfinished time
  rcases verdict.status with ⟨completed, -⟩ | ⟨failed, -⟩
  · rw [show (execution time).store.status = _ from completed] at unfinished
    cases unfinished
  · rw [show (execution time).store.status = _ from failed] at unfinished
    cases unfinished

theorem Stuck.idles (post : start ≤ time) : Idles flow (execution time) (execution (time + 1)) := by
  obtain ⟨undisturbed, stepped⟩ := execution.path.next time
  rcases ((execution.orderly accepted nodup time).descends_or_idles
    (execution.bounded accepted nodup time) undisturbed stepped).2 with less | idles
  · exact absurd (stuck.level time post) less.ne
  · exact idles

theorem Stuck.constant (post : start ≤ time) : (execution time).tasks = (execution start).tasks ∧
      (execution time).channel = (execution start).channel ∧
      (execution time).tracker = (execution start).tracker := by
  induction time, post using le_induction with
  | base => exact ⟨rfl, rfl, rfl⟩
  | succ time post ih =>
    have idles := stuck.idles accepted nodup post
    exact ⟨idles.tasks.trans ih.1, idles.channel.trans ih.2.1, idles.tracker.trans ih.2.2⟩

theorem Stuck.task_still (post : start ≤ time) : execution.path.move time ≠ .task position outcome context := by
  intro moved
  obtain ⟨-, stepped⟩ := execution.path.next time
  rw [moved] at stepped
  have less := (potential_taskStep (execution.orderly accepted nodup time).once
    (execution.bounded accepted nodup time) stepped).2
  exact absurd (stuck.level time post) less.ne

variable (fair : execution.Fair)
include fair

theorem Stuck.waits (mem : task ∈ (execution start).tasks) (unended : ∀ signal, task.phase ≠ .ended signal) :
    task.phase.locks = false ∧ (execution start).locked = true := by
  obtain ⟨position, spawned⟩ := getElem?_of_mem mem
  have orderly := execution.orderly accepted nodup start
  have inside := orderly.sound.tracked.known task.step _ (standingIn_of_mem orderly.once mem)
  by_contra free
  have able : ∀ time ≥ start, ∃ outcome context,
      ((execution time).taskStep flow position outcome context).isSome = true := by
    intro time post
    have constant := stuck.constant accepted nodup post
    refine ⟨.timedOut, (execution time).store.context, ?_⟩
    apply taskStep_isSome (constant.1 ▸ spawned) (getElem?_eq_getElem inside) unended
    rw [Engine.locked, constant.1]
    by_contra both
    rw [not_or, Bool.not_eq_true, Bool.not_eq_false] at both
    exact free both
  -- a task that could always move would
  obtain ⟨later, post, outcome, context, moved⟩ := fair.task position start able
  exact stuck.task_still accepted nodup post moved

variable (post : start ≤ time)
include post

theorem Stuck.ended (mem : task ∈ (execution time).tasks) : ∃ signal, task.phase = .ended signal := by
  rw [(stuck.constant accepted nodup post).1] at mem
  by_contra unended
  rw [not_exists] at unended
  obtain ⟨-, locked⟩ := stuck.waits accepted nodup fair mem unended
  obtain ⟨holder, held, locks⟩ := any_eq_true.mp locked
  have waits := stuck.waits accepted nodup fair held fun signal ended => by
    rw [ended] at locks
    cases locks
  cases waits.1.symm.trans locks

theorem Stuck.unlocked : (execution time).locked = false := by
  rw [Engine.locked, any_eq_false]
  intro task mem
  obtain ⟨signal, ended⟩ := stuck.ended accepted nodup fair post mem
  rw [ended]
  exact Bool.false_ne_true

theorem Stuck.told {idx : Nat} {standing : Standing} (found : (execution time).board.standing idx = some standing) :
    standing.signal.isSome = true ∧ standing.sent = true := by
  obtain ⟨task, mem, -, rfl⟩ := standingIn_eq_some found
  obtain ⟨signal, ended⟩ := stuck.ended accepted nodup fair post mem
  rw [ended]
  exact ⟨rfl, rfl⟩

theorem Stuck.running : (execution time).tracker.running = [] := by
  have tracked := (execution.orderly accepted nodup time).sound.tracked
  apply eq_nil_iff_forall_not_mem.mpr
  intro id mem
  obtain ⟨step, listed, rfl⟩ := mem_map.mp (tracked.runningKnown mem)
  obtain ⟨idx, defined⟩ := getElem?_of_mem listed
  obtain ⟨standing, found, unsettled⟩ := (tracked.running idx step defined).mp mem
  have told := (stuck.told accepted nodup fair post found).1
  rw [unsettled] at told
  cases told

/-! ### The scheduler goes on -/

/-- From any time on the scheduler moves, with nothing changed but the clock. -/
theorem Stuck.acts : ∃ later ≥ time, ∃ clock, (execution later).scheduler = (execution time).scheduler ∧
      (execution later).pendingCheck = (execution time).pendingCheck ∧
      Calm flow (execution later) (.scheduler clock) ∧
      (execution later).schedulerStep flow clock = some (execution (later + 1)) := by
  have acts := @fair.scheduler.acts _ _ _ _ _ _ (fun engine =>
    engine.scheduler = (execution time).scheduler ∧
      engine.pendingCheck = (execution time).pendingCheck) time ⟨rfl, rfl⟩
  obtain ⟨later, past, ⟨same, pending⟩, clock, moved⟩ := acts (by
    intro later past other held
    have kept := scheduler_kept (execution.orderly accepted nodup later).once (execution.path.next later).2 other
    exact ⟨kept.1.trans held.1, kept.2.trans held.2⟩) (by
    intro still
    obtain ⟨bound, wakes⟩ : ∃ bound, ∀ wake, (execution time).scheduler = .sleeping wake → wake ≤ bound := by
      cases (execution time).scheduler with
      | sleeping wake => exact ⟨wake, fun other same => by cases same; exact le_rfl⟩
      | _ => exact ⟨0, nofun⟩
    obtain ⟨awake, passed⟩ := fair.time bound
    refine ⟨max time awake, le_max_left _ _, fun later past => ⟨fun _ => 0, ?_⟩⟩
    have beyond : time ≤ later := (le_max_left _ _).trans past
    have sound := (execution.orderly accepted nodup later).sound
    apply schedulerStep_isSome (stuck.open_ accepted nodup later)
      (stuck.unlocked accepted nodup fair (post.trans beyond))
    · intro receiving
      obtain ⟨-, held | ⟨idx, standing, found, unsent⟩⟩ :
        _ ∧ Awaited (execution later).board := sound.facts receiving
      · exact held
      · have told := (stuck.told accepted nodup fair (post.trans beyond) found).2
        cases told.symm.trans unsent
    · intro wake sleeping
      rw [(still later beyond).1] at sleeping
      calc wake ≤ bound := wakes wake sleeping
        _ ≤ (execution awake).now := passed
        _ ≤ (execution later).now := execution.monotone_now ((le_max_right _ _).trans past))
  obtain ⟨⟨-, calm⟩, stepped⟩ := execution.path.next later
  rw [moved] at calm stepped
  exact ⟨later, past, clock, same, pending, calm, stepped⟩

theorem Stuck.reads : ∃ later ≥ time, (execution later).scheduler = .reading := by
  induction left : (execution time).scheduler.ahead using Nat.strong_induction_on generalizing time with
  | _ count ih =>
    obtain ⟨later, past, clock, same, -, calm, stepped⟩ := stuck.acts accepted nodup fair post
    rcases (execution.orderly accepted nodup later).schedulerStep_idles calm stepped with
      less | ⟨-, reading | closer⟩
    · exact absurd (stuck.level later (post.trans past)) less.ne
    · exact ⟨later, past, reading⟩
    · rw [same, left] at closer
      obtain ⟨last, beyond, reading⟩ := ih _ closer ((post.trans past).trans (le_succ _)) rfl
      exact ⟨last, past.trans ((le_succ _).trans beyond), reading⟩

theorem Stuck.undecided : (execution time).scheduler ≠ .finishing ∧ (execution time).scheduler ≠ .blocked := by
  have unwritten : ∀ later ≥ start, ∀ status event, (execution later).scheduler ≠ .writing status event := by
    intro later past status event writing
    obtain ⟨last, -, clock, same, -, -, stepped⟩ := stuck.acts accepted nodup fair past
    simp only [schedulerStep, same, writing, some.injEq] at stepped
    have open_ := stuck.open_ accepted nodup (last + 1)
    rw [← stepped] at open_
    cases open_
  obtain ⟨later, past, clock, same, -, -, stepped⟩ := stuck.acts accepted nodup fair post
  have beyond : start ≤ later + 1 := (post.trans past).trans (le_succ _)
  have free := stuck.unlocked accepted nodup fair (post.trans past)
  constructor
  · intro finishing
    simp only [schedulerStep, same, finishing, free, Bool.false_eq_true, if_false, some.injEq] at stepped
    have concluded : (execution (later + 1)).scheduler = (execution later).conclusion := by rw [← stepped]
    unfold conclusion at concluded
    split at concluded
    · exact unwritten _ beyond _ _ concluded
    · exact unwritten _ beyond _ _ concluded
  · intro blocked
    simp only [schedulerStep, same, blocked, free, Bool.false_eq_true, if_false, some.injEq] at stepped
    exact unwritten _ beyond _ _ (congrArg Engine.scheduler stepped.symm)

/-- The scheduler finds no step to launch, and something to wait for. -/
theorem Stuck.places {snapshot : Snapshot} (phase : (execution time).scheduler = .scheduling snapshot) :
    snapshot.waitReady = [] ∧ (snapshot.currentRunning = 0 → snapshot.currentWaiting = 0 →
      (execution time).pendingCheck ≠ []) := by
  obtain ⟨later, past, clock, same, pending, calm, stepped⟩ := stuck.acts accepted nodup fair post
  rw [phase] at same
  have beyond : start ≤ later := post.trans past
  have sound := (execution.orderly accepted nodup later).sound
  obtain ⟨-, fresh⟩ : _ ∧ Fresh flow (execution later).board snapshot := sound.facts same
  simp only [schedulerStep, same, stuck.unlocked accepted nodup fair beyond,
    Bool.false_eq_true, if_false, some.injEq] at stepped
  obtain ⟨-, falls⟩ := potential_schedule same sound.tracked fresh (calm.2 snapshot same)
  rw [stepped] at falls
  have nothing := mt falls (stuck.level later beyond).not_lt
  rw [not_or, not_not, not_not] at nothing
  refine ⟨nothing.1, fun none_running none_waiting none_pending => ?_⟩
  have undecided := stuck.undecided accepted nodup fair (beyond.trans (le_succ later))
  have empty : (execution later).pass flow clock snapshot = { tracker := (execution later).tracker } := by
    rw [Engine.pass, nothing.1, nothing.2]
    rfl
  have placed : (execution (later + 1)).scheduler = (execution later).afterPass flow snapshot
        { tracker := (execution later).tracker } := by
    rw [← stepped, ← empty]
    rfl
  unfold afterPass at placed
  split at placed
  · exact undecided.1 placed
  · rw [if_pos ⟨rfl, none_running, none_waiting, pending.trans none_pending⟩] at placed
    exact undecided.2 placed

omit post

theorem Stuck.false : False := by
  obtain ⟨bound, ready⟩ := exists_ready_at (execution start).tracker
  obtain ⟨late, passed⟩ := fair.time bound
  obtain ⟨first, past, reading⟩ := stuck.reads accepted nodup fair (le_max_left start late)
  have post : start ≤ first := (le_max_left _ _).trans past
  obtain ⟨later, since, clock, same, -, -, read⟩ := stuck.acts accepted nodup fair post
  rw [reading] at same
  have beyond : start ≤ later := post.trans since
  simp only [schedulerStep, same, stuck.unlocked accepted nodup fair beyond,
    Bool.false_eq_true, if_false, some.injEq] at read
  obtain ⟨none_ready, pending⟩ := stuck.places accepted nodup fair (beyond.trans (le_succ later))
    (congrArg Engine.scheduler read.symm)
  have none_waiting : (execution later).tracker.waitingUntil.size = 0 := by
    have constant := (stuck.constant accepted nodup beyond).2.2
    have now : bound ≤ (execution later).now :=
      passed.trans (execution.monotone_now (((le_max_right _ _).trans past).trans since))
    rw [constant] at none_ready ⊢
    exact ready _ now none_ready
  have none_running : (execution later).tracker.running.length = 0 := by
    rw [stuck.running accepted nodup fair beyond]
    rfl
  exact pending none_running none_waiting (congrArg pendingCheck read.symm)

omit stuck

theorem Execution.terminates : ∃ time, (execution time).store.status.isTerminal = true := by
  by_contra never
  simp only [not_exists, Bool.not_eq_true] at never
  have falls : ∀ time, (execution (time + 1)).potential flow ≤ (execution time).potential flow := by
    intro time
    obtain ⟨undisturbed, stepped⟩ := execution.path.next time
    rcases ((execution.orderly accepted nodup time).descends_or_idles
      (execution.bounded accepted nodup time) undisturbed stepped).2 with less | idles
    · exact less.le
    · exact idles.level
  obtain ⟨start, level⟩ := Path.settles falls
  exact Stuck.false accepted nodup ⟨never, level⟩ fair

end

/-! ### Executions that come to an end -/

section
variable {flow : WorkflowDefinition D}

/-- The state after some of the moves of a list; when none are left, the clock goes on. -/
def stateAt (defn : WorkflowDefinition D) : List (Move D) → Engine D → Nat → Engine D
  | _, engine, 0 => engine
  | moves, engine, time + 1 =>
    stateAt defn moves.tail ((engine.step defn (moves.headD .tick)).getD engine) time

variable {permits : Engine D → Move D → Bool} {allowed : Engine D → Move D → Prop}

theorem stateAt_next (sound : ∀ engine move, permits engine move = true → allowed engine move)
    (ticks : ∀ engine, allowed engine .tick) : ∀ (time : Nat) (moves : List (Move D)) {pre post : Engine D},
      run flow permits moves pre = some post →
      allowed (stateAt flow moves pre time) (moves.getD time .tick) ∧
        (stateAt flow moves pre time).step flow (moves.getD time .tick) =
          some (stateAt flow moves pre (time + 1))
  | 0, [], pre, post, _ => ⟨ticks pre, rfl⟩
  | 0, move :: rest, pre, post, ran => by
    unfold run at ran
    split at ran
    · next permitted =>
      obtain ⟨between, first, -⟩ := bind_eq_some_iff.mp ran
      refine ⟨sound pre move permitted, first.trans ?_⟩
      show some between = some ((pre.step flow move).getD pre)
      rw [first, getD_some]
    · cases ran
  | time + 1, [], pre, post, _ =>
    @stateAt_next sound ticks time [] { pre with now := pre.now + 1 } _ rfl
  | time + 1, move :: rest, pre, post, ran => by
    unfold run at ran
    split at ran
    · next permitted =>
      obtain ⟨between, first, later⟩ := bind_eq_some_iff.mp ran
      have next := stateAt_next sound ticks time rest later
      have here : (pre.step flow move).getD pre = between := by rw [first, getD_some]
      rw [← here] at next
      exact next
    · cases ran

theorem stateAt_nil : ∀ (time : Nat) (engine : Engine D),
    stateAt flow [] engine time = { engine with now := engine.now + time }
  | 0, engine => rfl
  | time + 1, engine => by
    refine (stateAt_nil time { engine with now := engine.now + 1 }).trans ?_
    simp only [add_assoc, add_comm 1]

theorem stateAt_length (time : Nat) : ∀ (moves : List (Move D)) {pre post : Engine D},
    run flow permits moves pre = some post →
    stateAt flow moves pre (moves.length + time) = { post with now := post.now + time }
  | [], pre, post, ran => by
    cases ran
    rw [length_nil, zero_add]
    exact stateAt_nil time pre
  | move :: rest, pre, post, ran => by
    unfold run at ran
    split at ran
    · obtain ⟨between, first, later⟩ := bind_eq_some_iff.mp ran
      rw [length_cons, add_right_comm]
      show stateAt flow rest ((pre.step flow move).getD pre) (rest.length + time) = _
      rw [first, getD_some]
      exact stateAt_length time rest later
    · cases ran

/-- A run that ends with the scheduler returned and every task ended is fair. -/
theorem exists_fair_execution {data : D} {moves : List (Move D)} {final : Engine D}
    (sound : ∀ engine move, permits engine move = true → allowed engine move)
    (ticks : ∀ engine, allowed engine .tick)
    (ran : run flow permits moves (.start flow data) = some final)
    (returned : final.scheduler = .returned)
    (ended : ∀ task ∈ final.tasks, ∃ signal, task.phase = .ended signal) :
    ∃ execution : Execution flow data allowed, execution.Fair ∧ execution.path.state moves.length = final := by
  have last := fun time => stateAt_length time moves ran
  refine ⟨⟨⟨stateAt flow moves (.start flow data), fun time => moves.getD time .tick,
    fun time => stateAt_next sound ticks time moves ran⟩, by cases moves <;> rfl⟩, ⟨?_, ?_, ?_⟩, last 0⟩
  · intro time able
    obtain ⟨clock, moved⟩ := able (moves.length + time) (le_add_left _ _)
    dsimp only at moved
    rw [last] at moved
    simp [schedulerStep, returned] at moved
  · intro position time able
    obtain ⟨outcome, context, moved⟩ := able (moves.length + time) (le_add_left _ _)
    dsimp only at moved
    rw [last] at moved
    obtain ⟨post, stepped⟩ := Option.isSome_iff_exists.mp moved
    obtain ⟨task, step, middle, next, spawned, -, advanced, -⟩ := taskStep_eq_some stepped
    obtain ⟨signal, over_⟩ := ended task (mem_of_getElem? spawned)
    rw [over_] at advanced
    cases advanced
  · intro bound
    refine ⟨moves.length + bound, ?_⟩
    dsimp only
    rw [last]
    exact le_add_left _ _

end

/-- The steps that `Undisturbed` allows when no step has a scheduled time. -/
def calmly (engine : Engine D) : Move D → Bool
  | .scheduler _ =>
    decide (engine.scheduler ≠ .reading) || !engine.tracker.running.isEmpty || !engine.tracker.waitingUntil.isEmpty ||
      (engine.channel.isEmpty && engine.tasks.all fun task => task.phase.sent)
  | .tick | .listActive | .task _ _ _ => true
  | .cancel | .cancelListed => false

theorem calmly_sound {flow : WorkflowDefinition D}
    (unscheduled : ∀ step ∈ flow.steps, step.scheduledAt = none) (engine : Engine D) (move : Move D)
    (permitted : calmly engine move = true) : Undisturbed flow engine move := by
  cases move with
  | tick | listActive | task _ _ _ => exact ⟨rfl, trivial⟩
  | cancel | cancelListed => cases permitted
  | scheduler clock =>
    refine ⟨rfl, fun reading still idle => ?_, ?_⟩
    · simpa [calmly, reading, still, idle] using permitted
    · intro snapshot _ first second idx step time _ _ defined scheduled
      rw [unscheduled step (mem_of_getElem? defined)] at scheduled
      cases scheduled

/-! ### What an undisturbed workflow ends with -/

/-- Two steps, and a third that depends on the second. -/
def staggeredSteps : WorkflowDefinition Unit where
  steps := [{ id := "fetch" }, { id := "build" }, { id := "deploy", dependsOn := ["build"] }]

def staggered : WorkflowDefinition Unit :=
  { staggeredSteps with
      reverseDeps := buildReverseDeps staggeredSteps.steps
      initialStepIndices := buildInitialStepIndices staggeredSteps.steps }

/-- Both first steps end before the scheduler goes on. -/
def staggeredMoves : List (Move Unit) :=
  schedulerMoves Unit 6 ++ taskMoves 9 0 () ++ taskMoves 9 1 () ++ schedulerMoves Unit 8 ++
    taskMoves 9 2 () ++ schedulerMoves Unit 8

/-- In an undisturbed execution no completion is lost: until the scheduler returns, the channel has room for
the message of every task that has told the tracker how its step ended. -/
theorem completions_arrive {original flow : WorkflowDefinition D} (valid : original.validate = .ok flow)
    (nodup : (flow.steps.map StepDefinition.id).Nodup) {data : D} {engine : Engine D}
    (reached : Reached flow data (Undisturbed flow) engine) (running : engine.scheduler ≠ .returned) :
    ∀ task ∈ engine.tasks, ∀ step signal, flow.steps[task.step]? = some step →
      task.phase.standing = ⟨some signal, false⟩ →
      (engine.trySend flow (step.id, signal)).channel = engine.channel ++ [(step.id, signal)] := by
  obtain ⟨once, sound⟩ := orderly_of_reached (accepted_of_validate valid) nodup reached
  intro task mem step signal defined told
  have here := standingIn_of_mem once mem
  rw [told] at here
  have room := sound.tracked.room defined (sound.tracked.not_mem_channel nodup defined here)
  rw [trySend, if_pos ⟨running, room⟩]

theorem fetch_arrives : ∃ engine, Reached staggered () (Undisturbed staggered) engine ∧
    (engine.trySend staggered ("fetch", .success)).channel = engine.channel ++ [("fetch", .success)] := by
  obtain ⟨engine, ran, running, tasks⟩ : ∃ engine,
      run staggered calmly (staggeredMoves.take 14) (.start staggered ()) = some engine ∧
      engine.scheduler ≠ .returned ∧ engine.tasks = [⟨0, .sending .success false⟩, ⟨1, .starting⟩] :=
    ⟨_, rfl, nofun, rfl⟩
  have reached := next_of_run (@calmly_sound Unit staggered (by decide)) _ ran
  exact ⟨engine, reached, completions_arrive (show staggeredSteps.validate = _ from rfl) (by decide) reached running
    _ (tasks ▸ mem_cons_self) { id := "fetch" } _ rfl rfl⟩

/-- The second step ends between the moment the scheduler has emptied the channel and its look at the
tracker. -/
def overtaken : List (Move Unit) :=
  schedulerMoves Unit 6 ++ taskMoves 9 0 () ++ schedulerMoves Unit 3 ++ taskMoves 9 1 () ++ schedulerMoves Unit 5

end ModelGateway.Workflow
