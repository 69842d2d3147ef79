import ModelGateway.WorkflowPass
import ModelGateway.WorkflowSchedule

/-! The steps of the scheduler loop and what they keep: messages taken from the channel, the two phases that
read and update the tracker, the launch of ready steps, and the decision that the workflow is finished or
blocked. -/
namespace ModelGateway.Workflow
open List StepTracker KeyedMap
open Bool (and_eq_true not_eq_true' not_eq_true)

section
variable {D : Type} {flow : WorkflowDefinition D} {board post : Board} {idx : Nat}
  {step : StepDefinition D} {status : WorkflowStatus} {next phase : SchedulerPhase}

/-! ### Steps that leave the tracker alone -/

theorem Tracked.frame (tracked : Tracked flow board) (standing : post.standing = board.standing)
    (tracker : post.tracker = board.tracker) (channel : post.channel = board.channel) :
    Tracked flow post := by
  cases post
  cases standing
  cases tracker
  cases channel
  exact { tracked with }

theorem Verdict.frame (verdict : Verdict flow board status)
    (standing : post.standing = board.standing) (tracker : post.tracker = board.tracker) :
    Verdict flow post status := by
  cases post
  cases standing
  cases tracker
  exact { verdict with }

theorem Sound.goTo (sound : Sound flow board) (here : board.scheduler = phase)
    (open_ : phase.isOver = false) (held : next.held = phase.held)
    (facts : PhaseFacts flow { board with scheduler := next } next) :
    Sound flow { board with scheduler := next } := by
  refine ⟨sound.tracked.frame rfl rfl rfl, fun _ other stepOther there unlaunched idle unchecked unheld =>
    ?_, facts⟩
  subst here
  rw [show ({ board with scheduler := next } : Board).scheduler.held = board.scheduler.held from held] at unheld
  exact sound.covered open_ other stepOther there unlaunched idle unchecked unheld

/-! ### Messages -/

/-- A message is taken from the channel and the dependents of its step are to be checked. -/
theorem Sound.pop (sound : Sound flow board) (accepted : flow.Accepted) (nodup : flow.Distinct)
    {message : StepId × StepResult} {rest : List (StepId × StepResult)} {pending : List Nat}
    (here : board.scheduler = phase) (open_ : phase.isOver = false) (idle : phase.held = [])
    (held : board.channel = message :: rest) (kept : board.pendingCheck ⊆ pending)
    (added : message.2 ≠ .failure → flow.getDependentIndices message.1 ⊆ pending)
    (facts : PhaseFacts flow { board with channel := rest, pendingCheck := pending, scheduler := next } next) :
    Sound flow { board with channel := rest, pendingCheck := pending, scheduler := next } := by
  subst here
  have tracked := sound.tracked
  have once := tracked.channelOnce
  rw [held, map_cons, nodup_cons] at once
  have sent : ∀ other ∈ rest, _ := fun other mem =>
    tracked.channelSent other (by rw [held]; exact mem_cons_of_mem _ mem)
  refine ⟨{ tracked with channelOnce := once.2, channelSent := sent }, fun _ => ?_, facts⟩
  intro other stepOther there unlaunched waiting unchecked _ met
  obtain ⟨dependency, found, at_, named, standing, signal, launched, ended, well, way⟩ :=
    sound.covered open_ other stepOther there unlaunched waiting (fun mem => unchecked (kept mem))
      (by rw [idle]; exact not_mem_nil) met
  refine ⟨dependency, found, at_, named, standing, signal, launched, ended, well, way.imp_right ?_⟩
  intro mem
  rw [held, map_cons, mem_cons] at mem
  refine mem.resolve_left fun same => ?_
  -- the message taken is that of the dependency, so the step is to be checked
  obtain ⟨source, stepSource, defined, id, sent⟩ := tracked.channelSent message (by rw [held]; simp)
  obtain rfl := index_unique nodup defined at_ (id.trans same.symm)
  rw [launched] at sent
  cases sent
  cases ended
  apply unchecked
  apply added well
  rw [accepted.dependents, ← same]
  exact ⟨stepOther, there, named⟩

/-! ### The tracker is read -/

variable (tracked : Tracked flow board) {id : StepId}
include tracked

theorem Tracked.ended_unique {first second : StepResult} (inFirst : id ∈ board.tracker.ended first)
    (inSecond : id ∈ board.tracker.ended second) : first = second := by
  obtain ⟨step, mem, rfl⟩ := mem_map.mp (tracked.endedKnown first inFirst)
  obtain ⟨idx, defined⟩ := getElem?_of_mem mem
  obtain ⟨one, found, ended⟩ := (tracked.ended first idx step defined).mp inFirst
  obtain ⟨two, same, also⟩ := (tracked.ended second idx step defined).mp inSecond
  rw [found] at same
  cases same
  exact Option.some.inj (ended.symm.trans also)

variable (defined : flow.steps[idx]? = some step) {standing : Standing} {engine : Engine D}
  {clock : Nat → Nat} {snapshot : Snapshot} {ready indices : List Nat} {waiting : KeyedMap Nat Nat}
  {post : StepTracker} {event : WorkflowEvent}
include defined

theorem Tracked.mem_of_standing (found : board.standing idx = some standing) :
    step.id ∈ board.tracker.running ∨ ∃ signal, step.id ∈ board.tracker.ended signal := by
  cases told : standing.signal with
  | none => exact .inl ((tracked.running idx step defined).mpr ⟨standing, found, told⟩)
  | some signal => exact .inr ⟨signal, (tracked.ended signal idx step defined).mpr ⟨standing, found, told⟩⟩

/-- A step is processable when it is neither launched nor waiting. -/
theorem Tracked.isStepProcessable_iff : board.tracker.isStepProcessable step.id idx = true ↔
      board.standing idx = none ∧ board.tracker.waitingUntil.contains idx = false := by
  simp only [isStepProcessable, and_eq_true, decide_eq_true_eq, not_eq_true']
  constructor
  · rintro ⟨⟨⟨⟨completed, failed⟩, skipped⟩, running⟩, idle⟩
    refine ⟨?_, idle⟩
    cases found : board.standing idx with
    | none => rfl
    | some standing =>
      rcases tracked.mem_of_standing defined found with runs | ⟨signal, ended⟩
      · exact absurd runs running
      · cases signal with
        | success => exact absurd ended completed
        | failure => exact absurd ended failed
        | skip => exact absurd ended skipped
  · rintro ⟨unlaunched, idle⟩
    have absent : ∀ signal, step.id ∉ board.tracker.ended signal := by
      intro signal mem
      obtain ⟨standing, found, -⟩ := (tracked.ended signal idx step defined).mp mem
      rw [unlaunched] at found
      cases found
    refine ⟨⟨⟨⟨absent .success, absent .failure⟩, absent .skip⟩, fun mem => ?_⟩, idle⟩
    obtain ⟨standing, found, -⟩ := (tracked.running idx step defined).mp mem
    rw [unlaunched] at found
    cases found

/-- The filter of phase 1 finds the steps that can be launched. -/
theorem Tracked.isReady_iff : board.tracker.isReady step idx = true ↔
      (board.standing idx = none ∧ board.tracker.waitingUntil.contains idx = false) ∧
        board.tracker.depsMet step = true := by
  have well : ∀ id, board.tracker.satisfied id = true → id ∉ board.tracker.failed := by
    intro id satisfied failed
    obtain ⟨signal, good, mem⟩ := satisfied_iff.mp satisfied
    exact good (@Tracked.ended_unique _ _ _ tracked _ _ .failure mem failed)
  rw [← tracked.isStepProcessable_iff defined]
  unfold isReady
  rw [and_eq_true, and_eq_true, and_eq_true, and_eq_true]
  constructor
  · rintro ⟨⟨⟨⟨processable, all⟩, any⟩, -⟩, -⟩
    exact ⟨processable, by rw [depsMet, all, any]; rfl⟩
  · rintro ⟨processable, met⟩
    obtain ⟨every, some⟩ := depsMet_iff.mp met
    rw [depsMet, and_eq_true] at met
    refine ⟨⟨⟨⟨processable, met.1⟩, met.2⟩, ?_⟩, ?_⟩
    · simp only [hasFailedDependency, not_eq_true', any_eq_false, decide_eq_true_eq]
      exact fun id mem => well id (every id mem)
    · rw [not_eq_true', Bool.eq_false_iff]
      intro failed
      simp only [haveAllAnyDepsFailed, and_eq_true, not_eq_true',
        isEmpty_eq_false_iff, all_eq_true, decide_eq_true_eq] at failed
      rcases some with empty | ⟨id, mem, satisfied⟩
      · exact failed.1 empty
      · exact well id satisfied (failed.2 id mem)

omit defined

/-- All steps are processed when each of them has ended. -/
theorem Tracked.totalProcessed_iff (nodup : flow.Distinct) :
    board.tracker.totalProcessed = flow.steps.length ↔ AllEnded flow board := by
  let processed := board.tracker.ended .success ++ board.tracker.ended .failure ++ board.tracker.ended .skip
  have mem_processed : ∀ id, id ∈ processed ↔ ∃ signal, id ∈ board.tracker.ended signal := by
    intro id
    rw [mem_append, mem_append]
    constructor
    · rintro ((mem | mem) | mem) <;> exact ⟨_, mem⟩
    · rintro ⟨signal, mem⟩
      cases signal with
      | success => exact .inl (.inl mem)
      | failure => exact .inl (.inr mem)
      | skip => exact .inr mem
  have length : processed.length = board.tracker.totalProcessed := by
    rw [length_append, length_append]
    rfl
  have once : processed.Nodup := by
    have apart : ∀ first second, first ≠ second → ∀ id ∈ board.tracker.ended first,
        ∀ other ∈ board.tracker.ended second, id ≠ other := by
      rintro first second differ id inFirst _ inSecond rfl
      exact differ (tracked.ended_unique inFirst inSecond)
    refine nodup_append.mpr ⟨nodup_append.mpr ⟨tracked.endedOnce .success,
      tracked.endedOnce .failure, apart _ _ (by decide)⟩, tracked.endedOnce .skip, ?_⟩
    intro id mem
    rcases mem_append.mp mem with completed | failed
    · exact apart .success .skip (by decide) id completed
    · exact apart .failure .skip (by decide) id failed
  have known : processed ⊆ flow.steps.map StepDefinition.id := by
    intro id mem
    obtain ⟨signal, ended⟩ := (mem_processed id).mp mem
    exact tracked.endedKnown signal ended
  have within := subperm_of_subset once known
  constructor
  · intro total idx inside
    have full : (flow.steps.map StepDefinition.id).length ≤ processed.length := by
      rw [length, total, length_map]
    have defined := getElem?_eq_getElem inside
    have mem := (within.perm_of_length_le full).mem_iff.mpr (mem_ids defined)
    obtain ⟨signal, ended⟩ := (mem_processed _).mp mem
    obtain ⟨standing, found, told⟩ := (tracked.ended signal idx _ defined).mp ended
    exact ⟨standing, found, by rw [told]; rfl⟩
  · intro all
    have covers : flow.steps.map StepDefinition.id ⊆ processed := by
      intro id mem
      obtain ⟨step, held, rfl⟩ := mem_map.mp mem
      obtain ⟨idx, defined⟩ := getElem?_of_mem held
      obtain ⟨standing, found, told⟩ := all idx (List.getElem?_eq_some_iff.mp defined).1
      obtain ⟨signal, ended⟩ := Option.isSome_iff_exists.mp told
      exact (mem_processed _).mpr ⟨signal, (tracked.ended signal idx step defined).mpr ⟨standing, found, ended⟩⟩
    have least := (subperm_of_subset nodup covers).length_le
    have most := within.length_le
    rw [length_map, length] at least most
    exact Nat.le_antisymm most least

theorem Tracked.settled (none_running : board.tracker.running = [])
    (found : board.standing idx = some standing) : standing.signal.isSome = true := by
  have defined := getElem?_eq_getElem (tracked.known idx standing found)
  cases told : standing.signal with
  | some signal => rfl
  | none =>
    have mem := (tracked.running idx _ defined).mpr ⟨standing, found, told⟩
    rw [none_running] at mem
    cases mem

theorem Tracked.launchable_filter (pending : List Nat) : Launchable flow board (pending.filter fun idx =>
      match flow.steps[idx]? with
      | some step => board.tracker.isReady step idx
      | none => false) := by
  intro idx mem
  have ready := (mem_filter.mp mem).2
  split at ready
  · next step defined =>
    obtain ⟨⟨unlaunched, idle⟩, -⟩ := (tracked.isReady_iff defined).mp ready
    exact ⟨(List.getElem?_eq_some_iff.mp defined).1, unlaunched, idle⟩
  · cases ready

omit tracked in
theorem Sound.read (sound : Sound flow engine.board) (nodup : flow.Distinct)
    (phase : engine.scheduler = .reading) (calm : engine.tracker.running = [] →
      engine.tracker.waitingUntil.isEmpty = true → engine.channel = [] ∧ ∀ idx standing,
      engine.board.standing idx = some standing → standing.sent = true) :
    Sound flow (engine.read flow).board := by
  have tracked := sound.tracked
  have running : engine.board.status = .running := sound.facts phase
  refine ⟨tracked.frame rfl rfl rfl, fun _ => ?_, running, ?_, ?_, ?_, ?_⟩
  · intro idx step defined unlaunched idle _ unready met
    apply sound.covered (by rw [show engine.board.scheduler = .reading from phase]; rfl) idx step defined
      unlaunched idle
    · -- a pending step that phase 1 drops is not ready
      intro pending
      apply unready
      apply mem_filter.mpr
      refine ⟨pending, ?_⟩
      simp only [defined]
      exact (tracked.isReady_iff defined).mpr ⟨⟨unlaunched, idle⟩, met⟩
    · rw [show engine.board.scheduler = .reading from phase]
      exact not_mem_nil
    · exact met
  · intro idx mem
    obtain ⟨⟨key, readyAt⟩, held, rfl⟩ := mem_map.mp mem
    have found := mem_toList_iff.mp (mem_filter.mp held).1
    show (engine.tracker.waitingUntil.get? key).isSome = true
    rw [found]
    rfl
  · exact tracked.launchable_filter engine.pendingCheck
  · exact (tracked.totalProcessed_iff nodup).mp
  · intro noneRunning noneWaiting
    have still : engine.tracker.running = [] := length_eq_zero_iff.mp noneRunning
    have idle : engine.tracker.waitingUntil.isEmpty = true := by
      rw [KeyedMap.isEmpty, List.isEmpty_iff]
      exact length_eq_zero_iff.mp noneWaiting
    obtain ⟨empty, sent⟩ := calm still idle
    refine ⟨⟨fun idx standing found => ⟨tracked.settled still found, sent idx standing found⟩, empty,
      fun idx => ?_⟩, (tracked.totalProcessed_iff nodup).mpr⟩
    show (engine.tracker.waitingUntil.get? idx).isSome = false
    rw [isEmpty_iff.mp idle idx]
    rfl

/-! ### Nothing is left to do -/

/-- A quiet workflow in which a step is left over has a failed step: without one, every step would have been
launched after its dependencies. -/
theorem Tracked.verdict_failed (accepted : flow.Accepted) (nodup : flow.Distinct) (quiet : Quiet board)
    (launched : ∀ idx step, flow.steps[idx]? = some step → board.tracker.depsMet step = true →
      (board.standing idx).isSome = true) (left : ¬ AllEnded flow board) :
    Verdict flow board .failed := by
  refine ⟨fun idx standing found => (quiet.told idx standing found).1, launched, .inr ⟨rfl, ?_⟩⟩
  by_contra none_failed
  apply left
  intro idx inside
  have ever : (board.standing idx).isSome = true := by
    refine accepted.induct nodup (motive := fun idx => (board.standing idx).isSome = true)
      (fun idx step defined below => ?_) (getElem?_eq_getElem inside)
    apply launched idx step defined
    apply depsMet_of_forall
    intro dependency named
    obtain ⟨place, other, there, rfl, launched⟩ := below dependency named
    obtain ⟨standing, found⟩ := Option.isSome_iff_exists.mp launched
    obtain ⟨signal, told⟩ := Option.isSome_iff_exists.mp (quiet.told place standing found).1
    rw [satisfied_iff]
    refine ⟨signal, ?_, (tracked.ended signal place other there).mpr ⟨standing, found, told⟩⟩
    rintro rfl
    exact none_failed ⟨place, standing, found, told⟩
  obtain ⟨standing, found⟩ := Option.isSome_iff_exists.mp ever
  exact ⟨standing, found, (quiet.told idx standing found).1⟩

/-! ### Phase 2 -/

theorem Tracked.rewait (unlaunched : ∀ idx, waiting.contains idx = true → idx < flow.steps.length ∧
      board.standing idx = none) : Tracked flow
      { board with tracker := { board.tracker with waitingUntil := waiting }, scheduler := next } :=
  { tracked with waiting := unlaunched }

omit tracked

/-- Two looks of phase 2 at the wall clock for one step fall on the same side of its scheduled time. -/
def SameSide (defn : WorkflowDefinition D) (clock : Nat → Nat) (snapshot : Snapshot) : Prop :=
  ∀ first second idx step time, snapshot.depsReady[first]? = some idx →
    snapshot.depsReady[second]? = some idx → defn.steps[idx]? = some step →
    step.scheduledAt = some time → (clock first < time ↔ clock second < time)

theorem mem_placed {utc : Nat} : (idx, utc) ∈ indices.zipIdx.map (fun entry => (entry.1, clock entry.2)) ↔
      ∃ place, indices[place]? = some idx ∧ clock place = utc := by
  simp only [mem_map, Prod.exists, Prod.mk.injEq, mem_zipIdx_iff_getElem?]
  constructor
  · rintro ⟨other, place, found, rfl, rfl⟩
    exact ⟨place, found, rfl⟩
  · rintro ⟨place, found, rfl⟩
    exact ⟨idx, place, found, rfl, rfl⟩

/-- What phase 2 leaves: the steps to launch, the steps that wait, and nothing in between. -/
structure Placed (defn : WorkflowDefinition D) (board : Board) (snapshot : Snapshot) (pass : Pass) :
    Prop where
  launchable : Launchable defn { board with tracker := pass.tracker } pass.ready
  once : pass.ready.Nodup
  waiting : ∀ idx, pass.tracker.waitingUntil.contains idx = true →
    idx < defn.steps.length ∧ board.standing idx = none
  decided : ∀ idx ∈ snapshot.depsReady, idx ∈ pass.ready ∨ pass.tracker.waitingUntil.contains idx = true
  kept : ∀ idx, board.tracker.waitingUntil.contains idx = true →
    idx ∈ pass.ready ∨ pass.tracker.waitingUntil.contains idx = true
  idle : pass.ready = [] → pass.addedToWaiting = 0 →
    snapshot.depsReady = [] ∧ ∀ idx, pass.tracker.waitingUntil.contains idx = true →
      board.tracker.waitingUntil.contains idx = true

theorem placed_of_result {pass : Pass} (tracked : Tracked flow board)
    (fresh : Fresh flow board snapshot) (same : SameSide flow clock snapshot)
    (result : Pass.Result flow board.tracker snapshot.waitReady (snapshot.depsReady.zipIdx.map fun
      entry => (entry.1, clock entry.2)) pass) : Placed flow board snapshot pass := by
  have decided : ∀ idx ∈ snapshot.depsReady, idx ∈ pass.ready ∨ pass.tracker.waitingUntil.contains idx = true := by
    intro idx mem
    obtain ⟨place, found⟩ := getElem?_of_mem mem
    cases answer : waits flow idx (clock place) with
    | true => exact .inr ((result.waiting idx).mpr (.inr ⟨_, mem_placed.mpr ⟨place, found, rfl⟩, answer⟩))
    | false => exact .inl ((result.ready idx).mpr (.inr ⟨_, mem_placed.mpr ⟨place, found, rfl⟩, answer⟩))
  refine ⟨?_, result.once, ?_, decided, ?_, ?_⟩
  · intro idx ready
    rcases (result.ready idx).mp ready with woken | ⟨utc, entry, launches⟩
    · have held := fresh.waiting idx woken
      obtain ⟨inside, unlaunched⟩ := tracked.waiting idx held
      refine ⟨inside, unlaunched, ?_⟩
      rw [← not_eq_true]
      intro still
      rcases (result.waiting idx).mp still with ⟨-, asleep⟩ | ⟨utc, entry, -⟩
      · exact asleep woken
      · obtain ⟨place, found, -⟩ := mem_placed.mp entry
        have idle := (fresh.ready idx (mem_of_getElem? found)).2.2
        cases held.symm.trans idle
    · obtain ⟨place, found, rfl⟩ := mem_placed.mp entry
      obtain ⟨inside, unlaunched, idle⟩ := fresh.ready idx (mem_of_getElem? found)
      refine ⟨inside, unlaunched, ?_⟩
      rw [← not_eq_true]
      intro still
      rcases (result.waiting idx).mp still with ⟨held, -⟩ | ⟨utc, other, waiting⟩
      · cases held.symm.trans idle
      · obtain ⟨elsewhere, also, rfl⟩ := mem_placed.mp other
        have defined := getElem?_eq_getElem inside
        have agree : waits flow idx (clock place) = waits flow idx (clock elsewhere) := by
          rw [Bool.eq_iff_iff, waits_iff defined, waits_iff defined]
          refine or_congr_right (exists_congr fun time => and_congr_right fun scheduled => ?_)
          exact same place elsewhere idx _ time found also defined scheduled
        rw [launches, waiting] at agree
        cases agree
  · intro idx held
    rcases (result.waiting idx).mp held with ⟨pre, -⟩ | ⟨utc, entry, -⟩
    · exact tracked.waiting idx pre
    · obtain ⟨place, found, -⟩ := mem_placed.mp entry
      obtain ⟨inside, unlaunched, -⟩ := fresh.ready idx (mem_of_getElem? found)
      exact ⟨inside, unlaunched⟩
  · intro idx held
    by_cases woken : idx ∈ snapshot.waitReady
    · exact .inl ((result.ready idx).mpr (.inl woken))
    · exact .inr ((result.waiting idx).mpr (.inl ⟨held, woken⟩))
  · intro none_ready none_added
    have launches := result.added.mp none_added
    have none_deps : snapshot.depsReady = [] := by
      apply eq_nil_iff_forall_not_mem.mpr
      intro idx mem
      obtain ⟨place, found⟩ := getElem?_of_mem mem
      have entry : (idx, clock place) ∈ _ := mem_placed.mpr ⟨place, found, rfl⟩
      have ready := (result.ready idx).mpr (.inr ⟨clock place, entry, launches _ entry⟩)
      rw [none_ready] at ready
      cases ready
    refine ⟨none_deps, fun idx held => ?_⟩
    rcases (result.waiting idx).mp held with ⟨pre, -⟩ | ⟨utc, entry, -⟩
    · exact pre
    · rw [none_deps] at entry
      cases entry

theorem Quiet.not_inFlight (quiet : Quiet board) : ¬ InFlight board idx id := by
  rintro ⟨standing, signal, found, -, -, unsent | mem⟩
  · rw [(quiet.told idx standing found).2] at unsent
    cases unsent
  · rw [quiet.empty] at mem
    cases mem

/-- Phase 2 ends with the workflow finished, blocked, or going on. -/
theorem Sound.placed (sound : Sound flow board) (accepted : flow.Accepted) (nodup : flow.Distinct)
    (phase : board.scheduler = .scheduling snapshot) {added : Nat} (placed : Placed flow board
      snapshot ⟨{ board.tracker with waitingUntil := waiting }, ready, added⟩) : Sound flow
      { board with
          tracker := { board.tracker with waitingUntil := waiting }
          scheduler :=
            if snapshot.totalProcessed = flow.steps.length then .finishing
            else if ready = [] ∧ snapshot.currentRunning = 0 ∧ snapshot.currentWaiting + added = 0 ∧
                board.pendingCheck = [] then .blocked
            else .launching ready } := by
  obtain ⟨running, fresh⟩ : board.status = .running ∧ Fresh flow board snapshot := sound.facts phase
  have open_ : board.scheduler.isOver = false := by rw [phase]; rfl
  split
  · next total =>
    have ended : AllEnded flow board := fresh.all total
    refine ⟨sound.tracked.rewait placed.waiting, fun _ idx step defined unlaunched => ?_, running, ended⟩
    obtain ⟨standing, found, -⟩ := ended idx (List.getElem?_eq_some_iff.mp defined).1
    cases found.symm.trans unlaunched
  · next unfinished =>
    split
    · next stuck =>
      obtain ⟨none_ready, none_running, none_waiting, none_pending⟩ := stuck
      obtain ⟨quiet, all⟩ := fresh.quiet none_running (Nat.eq_zero_of_add_eq_zero_right none_waiting)
      obtain ⟨none_deps, shrunk⟩ := placed.idle none_ready (Nat.eq_zero_of_add_eq_zero_left none_waiting)
      have launched : ∀ idx step, flow.steps[idx]? = some step →
          board.tracker.depsMet step = true → (board.standing idx).isSome = true := by
        intro idx step defined met
        by_contra missing
        rw [Option.not_isSome_iff_eq_none] at missing
        obtain ⟨dependency, other, -, -, flying⟩ := sound.covered open_ idx step defined missing
          (quiet.idle idx) (by rw [none_pending]; exact not_mem_nil)
          (by rw [phase]; show idx ∉ snapshot.depsReady; rw [none_deps]; exact not_mem_nil) met
        exact quiet.not_inFlight flying
      have tracked : Tracked flow { board with
          tracker := { board.tracker with waitingUntil := waiting }, scheduler := .blocked } :=
        sound.tracked.rewait placed.waiting
      have still : Quiet { board with
          tracker := { board.tracker with waitingUntil := waiting }, scheduler := .blocked } := by
        refine ⟨quiet.told, quiet.empty, fun idx => ?_⟩
        rw [← not_eq_true]
        intro held
        cases (quiet.idle idx).symm.trans (shrunk idx held)
      refine ⟨tracked, fun _ idx step defined unlaunched _ _ _ met => ?_, running,
        tracked.verdict_failed accepted nodup still launched fun ended => unfinished (all ended)⟩
      have some_ := launched idx step defined met
      rw [show board.standing idx = none from unlaunched] at some_
      cases some_
    · refine ⟨sound.tracked.rewait placed.waiting, ?_, running, placed.once, placed.launchable⟩
      intro _ idx step defined unlaunched idle unchecked unheld met
      have absent : board.tracker.waitingUntil.contains idx = false := by
        rw [← not_eq_true]
        intro held
        rcases placed.kept idx held with ready | waits
        · exact unheld ready
        · cases idle.symm.trans waits
      refine sound.covered open_ idx step defined unlaunched absent unchecked ?_ met
      rw [phase]
      intro pending
      rcases placed.decided idx pending with ready | waits
      · exact unheld ready
      · cases idle.symm.trans waits

theorem Sound.schedule (sound : Sound flow engine.board) (accepted : flow.Accepted)
    (nodup : flow.Distinct) (phase : engine.scheduler = .scheduling snapshot)
    (same : SameSide flow clock snapshot) : Sound flow (engine.schedule flow clock snapshot).board := by
  obtain ⟨-, fresh⟩ : engine.board.status = .running ∧ Fresh flow engine.board snapshot := sound.facts phase
  have result := pass_result engine clock snapshot fun idx mem => (fresh.ready idx mem).1
  have placed := placed_of_result sound.tracked fresh same result
  have sets := result.sets
  show Sound flow { engine.board with
    tracker := (engine.pass flow clock snapshot).tracker
    scheduler := engine.afterPass flow snapshot (engine.pass flow clock snapshot) }
  generalize engine.pass flow clock snapshot = pass at placed sets ⊢
  obtain ⟨tracker, ready, added⟩ := pass
  dsimp only at sets
  generalize tracker.waitingUntil = waiting at sets
  subst sets
  exact sound.placed accepted nodup phase placed

/-! ### Ready steps are launched -/

/-- What launching the steps of the indices does to the tracker. -/
structure Started (defn : WorkflowDefinition D) (ready : List Nat) (pre post : StepTracker) :
    Prop where
  sets : post = { pre with running := post.running }
  mem : ∀ id, id ∈ post.running ↔ id ∈ pre.running ∨
    ∃ idx ∈ ready, ∃ step, defn.steps[idx]? = some step ∧ step.id = id
  once : pre.running.Nodup → post.running.Nodup

theorem started_foldl : ∀ (ready : List Nat) (tracker : StepTracker),
    Started flow ready tracker (ready.foldl (fun tracker idx =>
      match flow.steps[idx]? with
      | some step => tracker.start step.id
      | none => tracker) tracker)
  | [], tracker => ⟨rfl, by simp, id⟩
  | idx :: rest, tracker => by
    rw [foldl_cons]
    have later := started_foldl rest (match flow.steps[idx]? with
      | some step => tracker.start step.id
      | none => tracker)
    refine ⟨?_, ?_, ?_⟩
    · rw [later.sets]
      split <;> rfl
    · intro id
      rw [later.mem]
      cases defined : flow.steps[idx]? with
      | none => simp [defined]
      | some step =>
        simp only [start, mem_insert_iff, mem_cons, exists_eq_or_imp, defined, Option.some.injEq, exists_eq_left']
        rw [@eq_comm _ id step.id, or_assoc, or_left_comm]
    · intro once
      apply later.once
      split
      · exact once.insert
      · exact once

theorem launched_eq_some (found : board.launched ready idx = some standing) :
    idx ∈ ready ∧ standing = ⟨none, false⟩ ∨ idx ∉ ready ∧ board.standing idx = some standing := by
  unfold Board.launched at found
  split at found
  · next mem => exact .inl ⟨mem, (Option.some.inj found).symm⟩
  · next outside => exact .inr ⟨outside, found⟩

theorem launched_of_some (new : ∀ idx ∈ ready, board.standing idx = none)
    (found : board.standing idx = some standing) : board.launched ready idx = some standing := by
  unfold Board.launched
  rw [if_neg, found]
  intro mem
  rw [new idx mem] at found
  cases found

theorem Tracked.launched (tracked : Tracked flow board) (nodup : flow.Distinct)
    (launchable : Launchable flow board ready) (started : Started flow ready board.tracker post) :
    Tracked flow { board with standing := board.launched ready, tracker := post, scheduler := next } := by
  have new : ∀ idx ∈ ready, board.standing idx = none := fun idx mem => (launchable idx mem).2.1
  obtain ⟨running, rfl⟩ : ∃ running, post = { board.tracker with running := running } := ⟨_, started.sets⟩
  refine ⟨?_, ?_, ?_, ?_, started.once tracked.runningOnce, ?_, tracked.endedKnown, tracked.endedOnce, ?_,
    tracked.channelOnce, ?_⟩
  · intro idx standing found
    rcases launched_eq_some found with ⟨mem, -⟩ | ⟨-, pre⟩
    · exact (launchable idx mem).1
    · exact tracked.known idx standing pre
  · intro idx standing found
    rcases launched_eq_some found with ⟨-, rfl⟩ | ⟨-, pre⟩
    · exact fun _ => rfl
    · exact tracked.unsent idx standing pre
  · intro idx step defined
    rw [started.mem]
    constructor
    · rintro (runs | ⟨other, mem, stepOther, there, same⟩)
      · obtain ⟨standing, found, told⟩ := (tracked.running idx step defined).mp runs
        exact ⟨standing, launched_of_some new found, told⟩
      · obtain rfl := index_unique nodup there defined same
        exact ⟨_, if_pos mem, rfl⟩
    · rintro ⟨standing, found, told⟩
      rcases launched_eq_some found with ⟨mem, -⟩ | ⟨-, pre⟩
      · exact .inr ⟨idx, mem, step, defined, rfl⟩
      · exact .inl ((tracked.running idx step defined).mpr ⟨standing, pre, told⟩)
  · intro id runs
    rcases (started.mem id).mp runs with pre | ⟨idx, -, step, defined, rfl⟩
    · exact tracked.runningKnown pre
    · exact mem_ids defined
  · intro signal idx step defined
    constructor
    · intro mem
      obtain ⟨standing, found, told⟩ := (tracked.ended signal idx step defined).mp mem
      exact ⟨standing, launched_of_some new found, told⟩
    · rintro ⟨standing, found, told⟩
      rcases launched_eq_some found with ⟨-, rfl⟩ | ⟨-, pre⟩
      · cases told
      · exact (tracked.ended signal idx step defined).mpr ⟨standing, pre, told⟩
  · intro idx held
    obtain ⟨inside, unlaunched⟩ := tracked.waiting idx held
    refine ⟨inside, ?_⟩
    show board.launched ready idx = none
    rw [Board.launched, if_neg, unlaunched]
    intro mem
    cases held.symm.trans (launchable idx mem).2.2
  · intro message mem
    obtain ⟨idx, step, defined, named, standing⟩ := tracked.channelSent message mem
    exact ⟨idx, step, defined, named, launched_of_some new standing⟩

theorem Sound.launched (sound : Sound flow board) (nodup : flow.Distinct)
    (phase : board.scheduler = .launching ready) (started : Started flow ready board.tracker post) :
    Sound flow { board with
      standing := board.launched ready, tracker := post, scheduler := .checking ready.length } := by
  obtain ⟨running, -, launchable⟩ : board.status = .running ∧ ready.Nodup ∧
      Launchable flow board ready := sound.facts phase
  have new : ∀ idx ∈ ready, board.standing idx = none := fun idx mem => (launchable idx mem).2.1
  refine ⟨sound.tracked.launched nodup launchable started, fun _ => ?_, running, fun some_ => ?_⟩
  · intro idx step defined unlaunched idle unchecked _ met
    dsimp only at unlaunched idle unchecked met
    have outside : idx ∉ ready := by
      intro mem
      rw [show board.launched ready idx = some ⟨none, false⟩ from if_pos mem] at unlaunched
      cases unlaunched
    have pre : board.standing idx = none := by
      rwa [show board.launched ready idx = board.standing idx from if_neg outside] at unlaunched
    rw [started.sets] at idle met
    obtain ⟨dependency, other, there, named, standing, signal, found, rest⟩ :=
      sound.covered (by rw [phase]; rfl) idx step defined pre idle unchecked (by rw [phase]; exact outside) met
    exact ⟨dependency, other, there, named, standing, signal, launched_of_some new found, rest⟩
  · cases ready with
    | nil => cases some_
    | cons first rest => exact .inr ⟨first, _, if_pos mem_cons_self, rfl⟩

theorem Sound.launch (sound : Sound flow engine.board) (nodup : flow.Distinct)
    (phase : engine.scheduler = .launching ready) : Sound flow (engine.launch flow ready).board := by
  have launchable : Launchable flow engine.board ready := (sound.facts phase).2.2
  have standing : (engine.launch flow ready).board.standing = engine.board.launched ready :=
    standingIn_append fun idx mem => (launchable idx mem).2.1
  have sound' := sound.launched nodup phase (started_foldl ready engine.tracker)
  rw [← standing] at sound'
  exact sound'

/-! ### What the loop waits for, and how it ends -/

theorem Tracked.awaited (tracked : Tracked flow board) (runs : board.tracker.running ≠ []) : Awaited board := by
  obtain ⟨id, mem⟩ := exists_mem_of_ne_nil _ runs
  obtain ⟨step, held, rfl⟩ := mem_map.mp (tracked.runningKnown mem)
  obtain ⟨idx, defined⟩ := getElem?_of_mem held
  obtain ⟨standing, found, told⟩ := (tracked.running idx step defined).mp mem
  exact .inr ⟨idx, standing, found, tracked.unsent idx standing found told⟩

theorem Sound.check (sound : Sound flow engine.board) {tasksLaunched : Nat}
    (phase : engine.scheduler = .checking tasksLaunched) :
    Sound flow { engine with scheduler := engine.check tasksLaunched }.board := by
  obtain ⟨running, launched⟩ :
      engine.board.status = .running ∧ (0 < tasksLaunched → Awaited engine.board) := sound.facts phase
  unfold Engine.check
  split
  · next some_ =>
    have awaited : Awaited engine.board := some_.elim launched sound.tracked.awaited
    exact sound.goTo phase rfl rfl ⟨running, awaited⟩
  · split
    · exact sound.goTo phase rfl rfl running
    · exact sound.goTo phase rfl rfl running

theorem AllEnded.verdict (ended : AllEnded flow board) (tracked : Tracked flow board)
    (decided : status = .completed ∧ board.tracker.failed = [] ∨ status = .failed ∧
      board.tracker.failed ≠ []) : Verdict flow board status := by
  have all : ∀ idx standing, board.standing idx = some standing → standing.signal.isSome = true := by
    intro idx standing found
    obtain ⟨other, same, told⟩ := ended idx (tracked.known idx standing found)
    rw [found] at same
    cases same
    exact told
  refine ⟨all, fun idx step defined _ => ?_, ?_⟩
  · obtain ⟨standing, found, -⟩ := ended idx (List.getElem?_eq_some_iff.mp defined).1
    rw [found]
    rfl
  · rcases decided with ⟨completed, none_failed⟩ | ⟨failed, some_failed⟩
    · refine .inl ⟨completed, fun idx standing found told => ?_⟩
      have defined := getElem?_eq_getElem (tracked.known idx standing found)
      have mem := (tracked.ended .failure idx _ defined).mpr ⟨standing, found, told⟩
      rw [show board.tracker.ended .failure = [] from none_failed] at mem
      cases mem
    · obtain ⟨id, mem⟩ := exists_mem_of_ne_nil _ some_failed
      obtain ⟨step, held, rfl⟩ := mem_map.mp (tracked.endedKnown .failure mem)
      obtain ⟨idx, defined⟩ := getElem?_of_mem held
      obtain ⟨standing, found, told⟩ := (tracked.ended .failure idx step defined).mp mem
      exact .inr ⟨failed, idx, standing, found, told⟩

theorem Sound.conclude (sound : Sound flow engine.board) (phase : engine.scheduler = .finishing) :
    Sound flow { engine with scheduler := engine.conclusion }.board := by
  obtain ⟨running, ended⟩ : engine.board.status = .running ∧ AllEnded flow engine.board := sound.facts phase
  unfold Engine.conclusion
  split
  · next id first =>
    have verdict : Verdict flow engine.board .failed := by
      apply ended.verdict sound.tracked (.inr ⟨rfl, ?_⟩)
      intro empty
      rw [show engine.tracker.failed = [] from empty] at first
      cases first
    exact sound.goTo phase rfl rfl ⟨running, verdict.frame rfl rfl⟩
  · next none_failed =>
    have verdict : Verdict flow engine.board .completed :=
      ended.verdict sound.tracked (.inl ⟨rfl, head?_eq_none_iff.mp none_failed⟩)
    exact sound.goTo phase rfl rfl ⟨running, verdict.frame rfl rfl⟩

theorem Sound.write (sound : Sound flow board) (phase : board.scheduler = .writing status event) :
    Sound flow { board with status := status, scheduler := .publishing event } := by
  obtain ⟨-, verdict⟩ : board.status = .running ∧ Verdict flow board status := sound.facts phase
  exact ⟨sound.tracked.frame rfl rfl rfl, nofun, verdict.frame rfl rfl⟩

theorem Sound.publish (sound : Sound flow board) (phase : board.scheduler = .publishing event) :
    Sound flow { board with scheduler := .returned } := by
  have verdict : Verdict flow board board.status := sound.facts phase
  exact ⟨sound.tracked.frame rfl rfl rfl, nofun, verdict.frame rfl rfl⟩

end
end ModelGateway.Workflow
