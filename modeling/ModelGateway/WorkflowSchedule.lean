import ModelGateway.WorkflowBoard

/-! The bookkeeping of the scheduler.  The tracker says how far each step is, the channel holds messages of
steps that have ended, and every step whose dependencies are satisfied is launched, waits, is about to be
checked or launched, or depends on a step whose message is still on its way.  When the scheduler looks at a
tracker in which nothing runs or waits only once no message is on its way, the status it writes says whether
a step failed. -/
namespace ModelGateway.Workflow
open List Prod Function

namespace StepTracker

/-- The steps that ended with a result. -/
def ended (tracker : StepTracker) : StepResult → List StepId
  | .success => tracker.completed
  | .failure => tracker.failed
  | .skip => tracker.skipped

/-- The dependencies of a step are satisfied. -/
def depsMet {D : Type} (tracker : StepTracker) (step : StepDefinition D) : Bool :=
  tracker.areDependenciesSatisfied step.dependsOn && tracker.isAnyDependencySatisfied step.dependsOnAny

variable {D : Type} {tracker other : StepTracker} {id : StepId} {signal : StepResult}

theorem ended_finish (result : StepResult) : (tracker.finish id signal).ended result =
      if result = signal then (tracker.ended result).insert id else tracker.ended result := by
  cases signal <;> cases result <;> rfl

theorem running_finish : (tracker.finish id signal).running = tracker.running.erase id := by
  cases signal <;> rfl

theorem waitingUntil_finish : (tracker.finish id signal).waitingUntil = tracker.waitingUntil := by
  cases signal <;> rfl

theorem satisfied_iff : tracker.satisfied id = true ↔ ∃ signal, signal ≠ .failure ∧ id ∈ tracker.ended signal := by
  unfold satisfied
  rw [Bool.or_eq_true, decide_eq_true_eq, decide_eq_true_eq]
  constructor
  · rintro (completed | skipped)
    · exact ⟨.success, by decide, completed⟩
    · exact ⟨.skip, by decide, skipped⟩
  · rintro ⟨signal, well, mem⟩
    cases signal with
    | success => exact .inl mem
    | skip => exact .inr mem
    | failure => exact absurd rfl well

variable {step : StepDefinition D}

theorem depsMet_iff : tracker.depsMet step = true ↔ (∀ id ∈ step.dependsOn, tracker.satisfied id = true) ∧
      (step.dependsOnAny = [] ∨ ∃ id ∈ step.dependsOnAny, tracker.satisfied id = true) := by
  simp [depsMet, areDependenciesSatisfied, isAnyDependencySatisfied]

theorem depsMet_congr (same : ∀ id ∈ step.allDependencies, other.satisfied id = tracker.satisfied id) :
    other.depsMet step = tracker.depsMet step := by
  have all : ∀ id ∈ step.dependsOn, other.satisfied id = tracker.satisfied id :=
    fun id mem => same id (mem_append_left _ mem)
  have any : ∀ id ∈ step.dependsOnAny, other.satisfied id = tracker.satisfied id :=
    fun id mem => same id (mem_append_right _ mem)
  rw [Bool.eq_iff_iff, depsMet_iff, depsMet_iff]
  refine and_congr (forall₂_congr fun id mem => ?_)
    (or_congr_right (exists_congr fun id => and_congr_right fun mem => ?_))
  · rw [all id mem]
  · rw [any id mem]

theorem depsMet_of_forall (all : ∀ id ∈ step.allDependencies, tracker.satisfied id = true) :
    tracker.depsMet step = true := by
  rw [depsMet_iff]
  refine ⟨fun id mem => all id (mem_append_left _ mem), ?_⟩
  cases any : step.dependsOnAny with
  | nil => exact .inl rfl
  | cons first rest =>
    right
    refine ⟨first, mem_cons_self, all first (mem_append_right _ ?_)⟩
    rw [any]
    exact mem_cons_self

theorem exists_satisfied (named : step.allDependencies ≠ []) (met : tracker.depsMet step = true) :
    ∃ id ∈ step.allDependencies, tracker.satisfied id = true := by
  obtain ⟨every, some⟩ := depsMet_iff.mp met
  rcases some with none_any | ⟨id, mem, satisfied⟩
  · cases all : step.dependsOn with
    | nil => exact absurd (by rw [StepDefinition.allDependencies, all, none_any]; rfl) named
    | cons first rest =>
      have mem : first ∈ step.dependsOn := by rw [all]; exact mem_cons_self
      exact ⟨first, mem_append_left _ mem, every first mem⟩
  · exact ⟨id, mem_append_right _ mem, satisfied⟩

end StepTracker

/-! ### What is known of a board -/

section
variable {D : Type} (defn : WorkflowDefinition D) (board : Board)

/-- The message of a satisfied step is on its way to the scheduler. -/
def InFlight (idx : Nat) (id : StepId) : Prop :=
  ∃ standing signal, board.standing idx = some standing ∧ standing.signal = some signal ∧
    signal ≠ .failure ∧ (standing.sent = false ∨ id ∈ board.channel.map fst)

/-- The indices the scheduler is about to launch or to set waiting. -/
def SchedulerPhase.held : SchedulerPhase → List Nat
  | .scheduling snapshot => snapshot.depsReady
  | .launching ready => ready
  | _ => []

/-- A message to the scheduler is in the channel, or will be. -/
def Awaited : Prop :=
  board.channel ≠ [] ∨ ∃ idx standing, board.standing idx = some standing ∧ standing.sent = false

/-- Nothing runs or waits, and no message is on its way. -/
structure Quiet : Prop where
  told : ∀ idx standing, board.standing idx = some standing → standing.signal.isSome = true ∧ standing.sent = true
  empty : board.channel = []
  idle : ∀ idx, board.tracker.waitingUntil.contains idx = false

/-- Every step has ended. -/
def AllEnded : Prop :=
  ∀ idx < defn.steps.length, ∃ standing, board.standing idx = some standing ∧ standing.signal.isSome = true

/-- Steps that can be launched. -/
def Launchable (indices : List Nat) : Prop :=
  ∀ idx ∈ indices, idx < defn.steps.length ∧ board.standing idx = none ∧
    board.tracker.waitingUntil.contains idx = false

/-- The workflow is over: every launched step has ended, every step with satisfied dependencies was
launched, and the status says whether a step failed. -/
structure Verdict (status : WorkflowStatus) : Prop where
  settled : ∀ idx standing, board.standing idx = some standing → standing.signal.isSome = true
  launched : ∀ idx step, defn.steps[idx]? = some step → board.tracker.depsMet step = true →
    (board.standing idx).isSome = true
  status : status = .completed ∧ (∀ idx standing, board.standing idx = some standing →
      standing.signal ≠ some .failure) ∨
    status = .failed ∧ ∃ idx standing, board.standing idx = some standing ∧ standing.signal = some .failure

/-- What the scheduler has read still holds. -/
structure Fresh (snapshot : Snapshot) : Prop where
  waiting : ∀ idx ∈ snapshot.waitReady, board.tracker.waitingUntil.contains idx = true
  ready : Launchable defn board snapshot.depsReady
  all : snapshot.totalProcessed = defn.steps.length → AllEnded defn board
  quiet : snapshot.currentRunning = 0 → snapshot.currentWaiting = 0 →
    Quiet board ∧ (AllEnded defn board → snapshot.totalProcessed = defn.steps.length)

/-- What holds at each place of the scheduler. -/
def PhaseFacts : SchedulerPhase → Prop
  | .polling | .draining | .reading | .timing | .sleeping _ => board.status = .running
  | .scheduling snapshot => board.status = .running ∧ Fresh defn board snapshot
  | .launching ready => board.status = .running ∧ ready.Nodup ∧ Launchable defn board ready
  | .checking tasksLaunched => board.status = .running ∧ (0 < tasksLaunched → Awaited board)
  | .receiving => board.status = .running ∧ Awaited board
  | .blocked => board.status = .running ∧ Verdict defn board .failed
  | .finishing => board.status = .running ∧ AllEnded defn board
  | .writing status _ => board.status = .running ∧ Verdict defn board status
  | .publishing _ | .returned => Verdict defn board board.status

/-- The tracker and the channel say how far the steps are. -/
structure Tracked : Prop where
  known : ∀ idx standing, board.standing idx = some standing → idx < defn.steps.length
  unsent : ∀ idx standing, board.standing idx = some standing → standing.signal = none → standing.sent = false
  running : ∀ idx step, defn.steps[idx]? = some step → (step.id ∈ board.tracker.running ↔
      ∃ standing, board.standing idx = some standing ∧ standing.signal = none)
  runningKnown : board.tracker.running ⊆ defn.steps.map StepDefinition.id
  runningOnce : board.tracker.running.Nodup
  ended : ∀ signal idx step, defn.steps[idx]? = some step → (step.id ∈ board.tracker.ended signal ↔
      ∃ standing, board.standing idx = some standing ∧ standing.signal = some signal)
  endedKnown : ∀ signal, board.tracker.ended signal ⊆ defn.steps.map StepDefinition.id
  endedOnce : ∀ signal, (board.tracker.ended signal).Nodup
  waiting : ∀ idx, board.tracker.waitingUntil.contains idx = true →
    idx < defn.steps.length ∧ board.standing idx = none
  channelOnce : (board.channel.map fst).Nodup
  channelSent : ∀ message ∈ board.channel, ∃ (idx : Nat) (step : StepDefinition D),
    defn.steps[idx]? = some step ∧ step.id = message.1 ∧
    board.standing idx = some ⟨some message.2, true⟩

/-- A step whose dependencies are satisfied is accounted for, or a message it waits for is on its way. -/
def Covered : Prop :=
  ∀ idx step, defn.steps[idx]? = some step → board.standing idx = none →
    board.tracker.waitingUntil.contains idx = false → idx ∉ board.pendingCheck →
    idx ∉ board.scheduler.held → board.tracker.depsMet step = true →
    ∃ (dependency : Nat) (other : StepDefinition D), defn.steps[dependency]? = some other ∧
      other.id ∈ step.allDependencies ∧ InFlight board dependency other.id

structure Sound : Prop where
  tracked : Tracked defn board
  covered : board.scheduler.isOver = false → Covered defn board
  phase : PhaseFacts defn board board.scheduler

end
section
variable {D : Type} {flow : WorkflowDefinition D} {board : Board} {idx : Nat}
  {step : StepDefinition D} {signal : StepResult}

variable {phase : SchedulerPhase} {other : Nat} {id : StepId} {dependency : Nat} {indices : List Nat}
  {message : StepId × StepResult}

theorem Sound.facts (sound : Sound flow board) (here : board.scheduler = phase) : PhaseFacts flow board phase :=
  here ▸ sound.phase

theorem index_unique (nodup : flow.Distinct) {first second : Nat}
    {one two : StepDefinition D} (atFirst : flow.steps[first]? = some one)
    (atSecond : flow.steps[second]? = some two) (same : one.id = two.id) : first = second := by
  have inside : first < (flow.steps.map StepDefinition.id).length := by
    rw [length_map]
    exact (List.getElem?_eq_some_iff.mp atFirst).1
  apply (getElem?_inj inside nodup).mp
  rw [getElem?_map, getElem?_map, atFirst, atSecond, Option.map_some, Option.map_some, same]

/-! ### A launched step gets on -/

/-- A step that was launched and has sent nothing gets on, and nothing else does. -/
structure Advances (idx : Nat) (pre post : Board) (next : Standing) : Prop where
  here : ∃ old, pre.standing idx = some old ∧ old.sent = false
  standing : ∀ other, post.standing other = if other = idx then some next else pre.standing other
  waiting : post.tracker.waitingUntil = pre.tracker.waitingUntil

open StepTracker

theorem settle_advances (here : board.standing idx = some ⟨none, false⟩) (id : StepId) :
    Advances idx board (board.settle idx id signal) ⟨some signal, false⟩ :=
  ⟨⟨_, here, rfl⟩, fun _ => update_apply _ _ _ _, waitingUntil_finish⟩

theorem send_advances (here : board.standing idx = some ⟨some signal, false⟩) (id : StepId) :
    Advances idx board (board.send flow idx id signal) ⟨some signal, true⟩ :=
  ⟨⟨_, here, rfl⟩, fun _ => update_apply _ _ _ _, rfl⟩

namespace Advances
variable {post : Board} {next standing : Standing} (advances : Advances idx board post next)
include advances

theorem self : post.standing idx = some next := by
  rw [advances.standing, if_pos rfl]

theorem elsewhere (apart : other ≠ idx) : post.standing other = board.standing other := by
  rw [advances.standing, if_neg apart]

theorem unlaunched_iff : post.standing other = none ↔ board.standing other = none := by
  by_cases same : other = idx
  · obtain ⟨old, found, -⟩ := advances.here
    simp [same, advances.self, found]
  · rw [advances.elsewhere same]

theorem of_sent (found : board.standing other = some standing) (sent : standing.sent = true) :
    post.standing other = some standing := by
  rw [advances.elsewhere, found]
  rintro rfl
  obtain ⟨old, here, unsent⟩ := advances.here
  cases here.symm.trans found
  cases unsent.symm.trans sent

theorem known (tracked : Tracked flow board) (found : post.standing other = some standing) :
    other < flow.steps.length := by
  by_cases same : other = idx
  · obtain ⟨old, here, -⟩ := advances.here
    exact same ▸ tracked.known idx old here
  · exact tracked.known other standing (advances.elsewhere same ▸ found)

theorem tracked_waiting (tracked : Tracked flow board)
    (contained : post.tracker.waitingUntil.contains other = true) :
    other < flow.steps.length ∧ post.standing other = none := by
  rw [advances.waiting] at contained
  rw [advances.unlaunched_iff]
  exact tracked.waiting other contained

theorem channelSent (tracked : Tracked flow board) (mem : message ∈ board.channel) :
    ∃ (idx : Nat) (step : StepDefinition D), flow.steps[idx]? = some step ∧ step.id = message.1 ∧
      post.standing idx = some ⟨some message.2, true⟩ := by
  obtain ⟨other, stepOther, there, named, standing⟩ := tracked.channelSent message mem
  exact ⟨other, stepOther, there, named, advances.of_sent standing rfl⟩

theorem launchable (launchable : Launchable flow board indices) : Launchable flow post indices := by
  intro other mem
  rw [advances.unlaunched_iff, advances.waiting]
  exact launchable other mem

theorem allEnded (done : next.signal.isSome = true) (ended : AllEnded flow board) : AllEnded flow post := by
  intro other inside
  rw [advances.standing]
  split
  · exact ⟨_, rfl, done⟩
  · exact ended other inside

theorem phaseFacts (facts : PhaseFacts flow board phase) (status : post.status = board.status)
    (done : next.signal.isSome = true) (awaited : phase.isOver = false → Awaited post)
    (verdict : ∀ {status}, Verdict flow board status → Verdict flow post status) :
    PhaseFacts flow post phase := by
  have running : board.status = .running → post.status = .running := status.trans
  have settled (held : Verdict flow board board.status) : Verdict flow post post.status := status ▸ verdict held
  cases phase with
  | polling | draining | reading | timing | sleeping _ => exact running facts
  | scheduling snapshot =>
    refine ⟨running facts.1, ?_, advances.launchable facts.2.ready,
      fun total => advances.allEnded done (facts.2.all total), fun running waiting => ?_⟩
    · rw [advances.waiting]
      exact facts.2.waiting
    · obtain ⟨old, here, unsent⟩ := advances.here
      cases unsent.symm.trans ((facts.2.quiet running waiting).1.told idx old here).2
  | launching ready => exact ⟨running facts.1, facts.2.1, advances.launchable facts.2.2⟩
  | checking tasksLaunched => exact ⟨running facts.1, fun _ => awaited rfl⟩
  | receiving => exact ⟨running facts.1, awaited rfl⟩
  | finishing => exact ⟨running facts.1, advances.allEnded done facts.2⟩
  | blocked | writing => exact ⟨running facts.1, verdict facts.2⟩
  | publishing | returned => exact settled facts

end Advances

/-! ### A step ends -/

theorem satisfied_finish {tracker : StepTracker} {other : StepId} (unrelated : other = id → signal = .failure) :
    (tracker.finish id signal).satisfied other = tracker.satisfied other := by
  rw [Bool.eq_iff_iff, satisfied_iff, satisfied_iff]
  have same : ∀ result, result ≠ .failure →
      (other ∈ (tracker.finish id signal).ended result ↔ other ∈ tracker.ended result) := by
    intro result well
    rw [ended_finish]
    split
    · next equal =>
      rw [mem_insert_iff]
      exact or_iff_right fun named => well (equal.trans (unrelated named))
    · rfl
  exact exists_congr fun result => and_congr_right (same result)

variable (nodup : flow.Distinct)
include nodup

variable (defined : flow.steps[idx]? = some step)
include defined

theorem id_ne {stepOther : StepDefinition D} (there : flow.steps[other]? = some stepOther)
    (elsewhere : other ≠ idx) : stepOther.id ≠ step.id :=
  fun same => elsewhere (index_unique nodup there defined same)

omit nodup in
theorem mem_ids : step.id ∈ flow.steps.map StepDefinition.id := mem_map_of_mem (mem_of_getElem? defined)

section
variable (here : board.standing idx = some ⟨none, false⟩)
include here

theorem Tracked.settle (tracked : Tracked flow board) : Tracked flow (board.settle idx step.id signal) where
  known _ _ := (settle_advances here step.id).known tracked
  unsent other standing found := by
    rw [(settle_advances here step.id).standing] at found
    split at found
    · cases found
      exact fun _ => rfl
    · exact tracked.unsent other standing found
  running other stepOther there := by
    show _ ∈ (board.tracker.finish step.id signal).running ↔ _
    rw [running_finish, tracked.runningOnce.mem_erase_iff, (settle_advances here step.id).standing]
    by_cases same : other = idx
    · subst same
      cases defined.symm.trans there
      simp
    · simp only [if_neg same, id_ne nodup defined there same, ne_eq, not_false_eq_true, true_and]
      exact tracked.running other stepOther there
  runningKnown := by
    show (board.tracker.finish step.id signal).running ⊆ _
    rw [running_finish]
    exact fun id mem => tracked.runningKnown (mem_of_mem_erase mem)
  runningOnce := by
    show (board.tracker.finish step.id signal).running.Nodup
    rw [running_finish]
    exact tracked.runningOnce.erase _
  ended result other stepOther there := by
    show _ ∈ (board.tracker.finish step.id signal).ended result ↔ _
    rw [ended_finish, (settle_advances here step.id).standing]
    by_cases same : other = idx
    · subst same
      cases defined.symm.trans there
      have pre : step.id ∉ board.tracker.ended result := by
        rw [tracked.ended result other step there, here]
        rintro ⟨standing, found, ended⟩
        cases found
        cases ended
      split
      · next equal => simp [equal]
      · next unequal => simpa [pre] using fun equal : signal = result => unequal equal.symm
    · rw [if_neg same]
      have pre := tracked.ended result other stepOther there
      split
      · rw [mem_insert_iff]
        simpa [id_ne nodup defined there same] using pre
      · exact pre
  endedKnown result := by
    show (board.tracker.finish step.id signal).ended result ⊆ _
    rw [ended_finish]
    split
    · intro id mem
      rcases mem_insert_iff.mp mem with rfl | mem
      · exact mem_ids defined
      · exact tracked.endedKnown result mem
    · exact tracked.endedKnown result
  endedOnce result := by
    show ((board.tracker.finish step.id signal).ended result).Nodup
    rw [ended_finish]
    split
    · exact (tracked.endedOnce result).insert
    · exact tracked.endedOnce result
  waiting _ := (settle_advances here step.id).tracked_waiting tracked
  channelOnce := tracked.channelOnce
  channelSent _ := (settle_advances here step.id).channelSent tracked

omit nodup in
theorem Covered.settle (covered : Covered flow board) : Covered flow (board.settle idx step.id signal) := by
  have advances : Advances idx board (board.settle idx step.id signal) _ := settle_advances here step.id
  intro other stepOther there unlaunched idle unchecked unheld met
  rw [advances.unlaunched_iff] at unlaunched
  rw [advances.waiting] at idle
  by_cases related : step.id ∈ stepOther.allDependencies ∧ signal ≠ .failure
  · -- the message of the step that ended is the one to wait for
    exact ⟨idx, step, defined, related.1, _, signal, advances.self, rfl, related.2, .inl rfl⟩
  · have pre : board.tracker.depsMet stepOther = true := by
      rw [← met]
      refine (depsMet_congr fun id named => satisfied_finish ?_).symm
      rintro rfl
      by_contra well
      exact related ⟨named, well⟩
    obtain ⟨dependency, found, at_, named, standing, result, flying, ended, rest⟩ :=
      covered other stepOther there unlaunched idle unchecked unheld pre
    refine ⟨dependency, found, at_, named, standing, result, ?_, ended, rest⟩
    rw [advances.elsewhere, flying]
    rintro rfl
    cases here.symm.trans flying
    cases ended

theorem Sound.settle (sound : Sound flow board) : Sound flow (board.settle idx step.id signal) := by
  have advances : Advances idx board (board.settle idx step.id signal) _ := settle_advances here step.id
  refine ⟨sound.tracked.settle nodup defined here, fun open_ => (sound.covered open_).settle defined here,
    advances.phaseFacts sound.phase rfl rfl (fun _ => .inr ⟨idx, _, advances.self, rfl⟩) ?_⟩
  intro status verdict
  cases verdict.settled idx _ here

end
/-! ### A step sends how it ended -/

section
variable (tracked : Tracked flow board)
include tracked

theorem Tracked.not_mem_channel (here : board.standing idx = some ⟨some signal, false⟩) :
    step.id ∉ board.channel.map fst := by
  intro mem
  obtain ⟨message, held, named⟩ := mem_map.mp mem
  obtain ⟨other, stepOther, there, same, standing⟩ := tracked.channelSent message held
  obtain rfl := index_unique nodup there defined (same.trans named)
  cases here.symm.trans standing

omit nodup in
theorem Tracked.room (new : step.id ∉ board.channel.map fst) : board.channel.length < max flow.steps.length 1 := by
  have once : (step.id :: board.channel.map fst).Nodup := nodup_cons.mpr ⟨new, tracked.channelOnce⟩
  have known : step.id :: board.channel.map fst ⊆ flow.steps.map StepDefinition.id := by
    intro id mem
    rcases mem_cons.mp mem with rfl | mem
    · exact mem_ids defined
    · obtain ⟨message, held, rfl⟩ := mem_map.mp mem
      obtain ⟨other, stepOther, there, same, -⟩ := tracked.channelSent message held
      exact same ▸ mem_ids there
  have bound := (subperm_of_subset once known).length_le
  simp only [length_cons, length_map] at bound
  omega

end
omit nodup defined

theorem mem_send_channel (mem : message ∈ (board.send flow idx step.id signal).channel) :
    message ∈ board.channel ∨ message = (step.id, signal) := by
  unfold Board.send at mem
  dsimp only at mem
  split at mem
  · simpa using mem
  · exact .inl mem

variable (here : board.standing idx = some ⟨some signal, false⟩)
include here

theorem send_signal {result : Option StepResult} :
    (∃ standing, (board.send flow idx id signal).standing other = some standing ∧ standing.signal = result) ↔
      ∃ standing, board.standing other = some standing ∧ standing.signal = result := by
  rw [(send_advances here id).standing]
  by_cases same : other = idx
  · subst same
    simp [here]
  · rw [if_neg same]

theorem Verdict.send {status : WorkflowStatus} (id : StepId) (verdict : Verdict flow board status) :
    Verdict flow (board.send flow idx id signal) status := by
  have same {other : Nat} {standing : Standing}
      (found : (board.send flow idx id signal).standing other = some standing) :
      ∃ pre, board.standing other = some pre ∧ pre.signal = standing.signal :=
    (send_signal here).mp ⟨standing, found, rfl⟩
  refine ⟨?_, ?_, ?_⟩
  · intro other standing found
    obtain ⟨pre, earlier, signal⟩ := same found
    rw [← signal]
    exact verdict.settled other pre earlier
  · intro other stepOther there met
    rw [(send_advances here id).standing]
    split
    · rfl
    · exact verdict.launched other stepOther there met
  · rcases verdict.status with ⟨completed, none_failed⟩ | ⟨failed, other, standing, found, failure⟩
    · refine .inl ⟨completed, fun other standing found => ?_⟩
      obtain ⟨pre, earlier, signal⟩ := same found
      rw [← signal]
      exact none_failed other pre earlier
    · obtain ⟨post, later, signal⟩ := (send_signal here).mpr ⟨standing, found, failure⟩
      exact .inr ⟨failed, other, post, later, signal⟩

include nodup defined

theorem Tracked.send (tracked : Tracked flow board) : Tracked flow (board.send flow idx step.id signal) := by
  have advances : Advances idx board (board.send flow idx step.id signal) _ := send_advances here step.id
  refine ⟨fun _ _ => advances.known tracked, ?_, ?_, tracked.runningKnown, tracked.runningOnce, ?_,
    tracked.endedKnown, tracked.endedOnce, fun _ => advances.tracked_waiting tracked, ?_, ?_⟩
  · intro other standing found
    rw [advances.standing] at found
    split at found
    · cases found
      exact nofun
    · exact tracked.unsent other standing found
  · intro other stepOther there
    rw [send_signal here]
    exact tracked.running other stepOther there
  · intro result other stepOther there
    rw [send_signal here]
    exact tracked.ended result other stepOther there
  · unfold Board.send
    dsimp only
    split
    · rw [map_append, map_singleton, nodup_append]
      refine ⟨tracked.channelOnce, nodup_singleton _, fun id mem other single => ?_⟩
      rw [mem_singleton.mp single]
      rintro rfl
      exact tracked.not_mem_channel nodup defined here mem
    · exact tracked.channelOnce
  · intro message mem
    rcases mem_send_channel mem with old | rfl
    · exact advances.channelSent tracked old
    · exact ⟨idx, step, defined, rfl, advances.self⟩

omit nodup in
theorem Covered.send (covered : Covered flow board)
    (arrives : (board.send flow idx step.id signal).channel = board.channel ++ [(step.id, signal)]) :
    Covered flow (board.send flow idx step.id signal) := by
  have advances : Advances idx board (board.send flow idx step.id signal) _ := send_advances here step.id
  intro other stepOther there unlaunched idle unchecked unheld met
  rw [advances.unlaunched_iff] at unlaunched
  obtain ⟨dependency, found, at_, named, standing, result, flying, ended, well, way⟩ :=
    covered other stepOther there unlaunched idle unchecked unheld met
  refine ⟨dependency, found, at_, named, ?_⟩
  by_cases same : dependency = idx
  · subst same
    cases defined.symm.trans at_
    cases here.symm.trans flying
    cases ended
    refine ⟨_, signal, advances.self, rfl, well, .inr ?_⟩
    rw [arrives]
    simp
  · refine ⟨standing, result, by rw [advances.elsewhere same, flying], ended, well, way.imp_right ?_⟩
    intro mem
    rw [arrives, map_append]
    exact mem_append_left _ mem

theorem Sound.send (sound : Sound flow board) : Sound flow (board.send flow idx step.id signal) := by
  have arrives (open_ : board.scheduler.isOver = false) :
      (board.send flow idx step.id signal).channel = board.channel ++ [(step.id, signal)] := by
    have room := sound.tracked.room defined (sound.tracked.not_mem_channel nodup defined here)
    refine if_pos ⟨?_, room⟩
    intro returned
    rw [returned] at open_
    cases open_
  refine ⟨sound.tracked.send nodup defined here,
    fun open_ => (sound.covered open_).send defined here (arrives open_),
    (send_advances here step.id).phaseFacts sound.phase rfl rfl (fun open_ => .inl ?_) (Verdict.send here step.id)⟩
  rw [arrives open_]
  simp

end
end ModelGateway.Workflow
