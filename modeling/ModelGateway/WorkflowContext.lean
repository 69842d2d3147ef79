import ModelGateway.WorkflowEngine

/-! The workflow data that steps read and change.  A step works on a copy of the whole context and stores
the whole copy afterwards.  When no step takes its copy while another one holds its own, the stored context
has the changes of every step that wrote back; without that, the later of two overlapping steps undoes the
changes of the earlier one. -/
namespace ModelGateway.Workflow
open List Function Engine

/-- The copy of the context a task works on. -/
def TaskPhase.copy? {D : Type} : TaskPhase D → Option D
  | .executing _ context | .writingBack _ context _ => some context
  | _ => none

/-- The executor has returned success. -/
def TaskPhase.succeeded {D : Type} : TaskPhase D → Bool
  | .succeeding | .settling (some .success) | .sending .success _ | .recordingSkip .success
  | .ended .success => true
  | _ => false

section
variable {D : Type} {flow : WorkflowDefinition D} {pre post : Engine D} {step : StepDefinition D}

/-- What a step of a task has to do with the context. -/
inductive ContextStep (pre post : Engine D) (context : D) (outcome : ExecutorOutcome) :
    TaskPhase D → TaskPhase D → Prop
  | copies (attempt : Nat) (kept : post.store.context = pre.store.context) :
    ContextStep pre post context outcome (.copying attempt) (.executing attempt pre.store.context)
  | executes (attempt : Nat) (copied : D) (kept : post.store.context = pre.store.context) :
    ContextStep pre post context outcome (.executing attempt copied) (.writingBack attempt context outcome)
  | writes (attempt : Nat) (written : D) (ended : ExecutorOutcome) {next : TaskPhase D}
    (stored : post.store.context = written) (dropped : next.copy? = none) :
    ContextStep pre post context outcome (.writingBack attempt written ended) next
  | other {phase next : TaskPhase D} (kept : post.store.context = pre.store.context)
    (none_held : phase.copy? = none) (none_taken : next.copy? = none)
    (success : next.succeeded = true → phase.succeeded = true) :
    ContextStep pre post context outcome phase next

theorem context_updateStep (store : WorkflowState D) (id : StepId) (change : StepState → StepState) :
    (store.updateStep id change).context = store.context := by
  unfold WorkflowState.updateStep
  split <;> rfl

theorem copy?_afterCall (attempt : Nat) (outcome : ExecutorOutcome) :
    (afterCall flow step attempt outcome).copy? = none := by
  cases outcome with
  | returned result => cases result <;> rfl
  | error retryable => rfl
  | timedOut => rfl

theorem succeeded_sending {signal : StepResult} {needs : Bool} :
    (TaskPhase.sending signal needs : TaskPhase D).succeeded = true ↔ signal = .success := by
  cases signal <;> simp [TaskPhase.succeeded]

theorem signalOf_eq_success {result : Option StepResult} (success : signalOf step result = .success) :
    result = some .success := by
  unfold signalOf at success
  split at success
  · rfl
  · cases success
  · split at success <;> cases success
  · split at success <;> cases success

variable {phase : TaskPhase D}

theorem contextStep {outcome : ExecutorOutcome} {context : D} {next : TaskPhase D}
    (stepped : pre.advance flow step outcome context phase = some (post, next)) :
    ContextStep pre post context outcome phase next := by
  cases phase with
  | starting =>
    simp only [advance] at stepped
    split at stepped
    · cases stepped
      refine .other rfl rfl ?_ ?_ <;> split <;> first | rfl | exact id
    · cases stepped
      exact .other rfl rfl rfl id
  | skipping =>
    simp only [advance] at stepped
    obtain ⟨-, ⟨⟩⟩ := unlocked stepped
    exact .other rfl rfl rfl id
  | skipSending =>
    cases stepped
    exact .other (by rw [trySend_eq]) rfl rfl fun success => by cases success
  | polling attempt =>
    cases stepped
    refine .other rfl rfl ?_ ?_ <;> split <;> first | rfl | exact id
  | copying attempt =>
    cases stepped
    exact .copies attempt rfl
  | executing attempt copied =>
    cases stepped
    exact .executes attempt copied rfl
  | writingBack attempt written ended =>
    cases stepped
    exact .writes attempt written ended rfl (copy?_afterCall attempt ended)
  | marking | skipRecording | succeeding =>
    cases stepped
    exact .other (context_updateStep _ _ _) rfl rfl id
  | recordingSkip signal =>
    cases stepped
    refine .other (context_updateStep _ _ _) rfl rfl fun success => ?_
    cases signal <;> exact success
  | failing attempt willRetry =>
    cases stepped
    refine .other (context_updateStep _ _ _) rfl ?_ ?_ <;> split <;>
      first | rfl | exact id
  | backingOff attempt =>
    cases stepped
    exact .other rfl rfl rfl id
  | settling result =>
    simp only [advance] at stepped
    obtain ⟨-, ⟨⟩⟩ := unlocked stepped
    refine .other rfl rfl rfl fun success => ?_
    rw [succeeded_sending] at success
    rw [signalOf_eq_success success]
    rfl
  | sending signal needs =>
    cases stepped
    refine .other (by rw [trySend_eq]) rfl ?_ ?_ <;> split <;>
      first | rfl | (cases signal <;> exact id)
  | ended signal => cases stepped

theorem schedulerStep_tasks {utc : Nat → Nat} (stepped : pre.schedulerStep flow utc = some post) :
    post.store.context = pre.store.context ∧
      ∃ ready : List Nat, post.tasks = pre.tasks ++ ready.map fun idx => ⟨idx, .starting⟩ := by
  have same (tasks : post.tasks = pre.tasks) :
      ∃ ready : List Nat, post.tasks = pre.tasks ++ ready.map fun idx => ⟨idx, .starting⟩ :=
    ⟨[], by rw [tasks, map_nil, append_nil]⟩
  cases schedules_of_schedulerStep stepped with
  | @drain message rest phase held =>
    obtain ⟨pending, moved⟩ := @enqueueDependents_frame D flow { pre with channel := rest } message
    rw [moved] at same ⊢
    exact ⟨rfl, same rfl⟩
  | @receive message rest phase held =>
    obtain ⟨pending, moved⟩ :=
      @enqueueDependents_frame D flow { pre with channel := rest, scheduler := .polling } message
    rw [moved] at same ⊢
    exact ⟨rfl, same rfl⟩
  | @launch ready phase => exact ⟨rfl, ready, rfl⟩
  | stop | enter | drained | read | schedule | check | time | awake | block | conclude | write
  | publish => exact ⟨rfl, same rfl⟩

/-! ### Runs in which the copies do not overlap -/

/-- No step takes its copy of the context while a task holds one. -/
def Exclusive (engine : Engine D) : Move D → Prop
  | .task position _ _ => ∀ idx attempt, engine.tasks[position]? = some ⟨idx, .copying attempt⟩ →
      ∀ task ∈ engine.tasks, task.phase.copy? = none
  | .tick | .cancel | .listActive | .cancelListed | .scheduler _ => True

/-- What each step has left in the context, as its last call was written back. -/
def record (engine : Engine D) (left : Nat → Option D) : Move D → Nat → Option D
  | .task position _ _ =>
    match engine.tasks[position]? with
    | some ⟨idx, .writingBack _ context _⟩ => update left idx (some context)
    | _ => left
  | .tick | .cancel | .listActive | .cancelListed | .scheduler _ => left

/-- The states that allowed steps lead to, with what the steps have left in the context. -/
inductive Observed (defn : WorkflowDefinition D) (data : D) (allowed : Engine D → Move D → Prop) :
    Engine D → (Nat → Option D) → Prop
  | start : Observed defn data allowed (.start defn data) fun _ => none
  | step {pre post : Engine D} {left : Nat → Option D} (move : Move D)
    (earlier : Observed defn data allowed pre left) (permitted : allowed pre move)
    (stepped : pre.step defn move = some post) :
    Observed defn data allowed post (record pre left move)

/-- The step of the index has ended successfully. -/
def Completed (engine : Engine D) (idx : Nat) : Prop :=
  ∃ task ∈ engine.tasks, task.step = idx ∧ task.phase.signal? = some .success

theorem succeeded_of_signal (success : phase.signal? = some .success) : phase.succeeded = true := by
  cases phase <;> simp_all [TaskPhase.signal?, TaskPhase.succeeded]

/-- At most one task holds a copy. -/
def Single (tasks : List (StepTask D)) : Prop :=
  ∀ (first second : Nat) (task other : StepTask D), tasks[first]? = some task →
    tasks[second]? = some other → task.phase.copy?.isSome = true → other.phase.copy?.isSome = true → first = second

theorem Single.set {tasks : List (StepTask D)} {position : Nat} {task replacement : StepTask D}
    (single : Single tasks) (spawned : tasks[position]? = some task)
    (held : replacement.phase.copy?.isSome = true → task.phase.copy?.isSome = true ∨
      ∀ other ∈ tasks, other.phase.copy? = none) : Single (tasks.set position replacement) := by
  have here : ∀ (place : Nat) (other : StepTask D), (tasks.set position replacement)[place]? = some other →
      other.phase.copy?.isSome = true → place = position → replacement.phase.copy?.isSome = true := by
    rintro place other found holds rfl
    rw [getElem?_set_self (List.getElem?_eq_some_iff.mp spawned).1] at found
    exact Option.some.inj found ▸ holds
  intro first second one two atFirst atSecond holdsFirst holdsSecond
  by_cases now : replacement.phase.copy?.isSome = true
  · -- nobody else holds a copy
    have only : ∀ (place : Nat) (other : StepTask D), (tasks.set position replacement)[place]? = some other →
        other.phase.copy?.isSome = true → place = position := by
      intro place other found holds
      by_contra elsewhere
      rw [getElem?_set_ne (Ne.symm elsewhere)] at found
      rcases held now with pre | none_held
      · exact elsewhere (single place position other task found spawned holds pre)
      · rw [none_held other (mem_of_getElem? found)] at holds
        cases holds
    rw [only first one atFirst holdsFirst, only second two atSecond holdsSecond]
  · have apart := fun same => now (here first one atFirst holdsFirst same)
    have also := fun same => now (here second two atSecond holdsSecond same)
    rw [getElem?_set_ne (Ne.symm apart)] at atFirst
    rw [getElem?_set_ne (Ne.symm also)] at atSecond
    exact single first second one two atFirst atSecond holdsFirst holdsSecond

end

section
variable {Field Value : Type} {flow defn : WorkflowDefinition (Field → Value)}
  {pre post engine : Engine (Field → Value)} {left : Nat → Option (Field → Value)}
  {owner : Field → Nat}

/-- The steps write disjoint fields: a call changes only the fields that its step owns. -/
def WritesOwn (owner : Field → Nat) (engine : Engine (Field → Value)) : Move (Field → Value) → Prop
  | .task position _ context => ∀ idx attempt copied,
      engine.tasks[position]? = some ⟨idx, .executing attempt copied⟩ →
      ∀ field, owner field ≠ idx → context field = copied field
  | .tick | .cancel | .listActive | .cancelListed | .scheduler _ => True

/-- The context has the changes of a step. -/
def HasChanges (owner : Field → Nat) (left : Nat → Option (Field → Value)) (context : Field → Value)
    (idx : Nat) : Prop :=
  ∃ written, left idx = some written ∧ ∀ field, owner field = idx → context field = written field

variable {context written : Field → Value} {idx position : Nat} {next : TaskPhase (Field → Value)}
  {outcome : ExecutorOutcome}

theorem not_hasChanges {field : Field} (recorded : left idx = some written) (owned : owner field = idx)
    (lost : context field ≠ written field) : ¬ HasChanges owner left context idx := by
  rintro ⟨other, also, same⟩
  rw [recorded] at also
  cases also
  exact lost (same field owned)

/-- The stored context has what every step has left, and a copy differs from it in the fields of its own
step only. -/
structure Merged (owner : Field → Nat) (engine : Engine (Field → Value))
    (left : Nat → Option (Field → Value)) : Prop where
  stored : ∀ idx written, left idx = some written →
    ∀ field, owner field = idx → engine.store.context field = written field
  copies : ∀ task ∈ engine.tasks, ∀ copied, task.phase.copy? = some copied →
    ∀ field, owner field ≠ task.step → copied field = engine.store.context field
  single : Single engine.tasks
  recorded : ∀ task ∈ engine.tasks, task.phase.succeeded = true → (left task.step).isSome = true

variable (merged : Merged owner pre left)
include merged

/-- Steps that keep the context and spawn tasks at most. -/
theorem Merged.spawn (context : post.store.context = pre.store.context) {ready : List Nat}
    (tasks : post.tasks = pre.tasks ++ ready.map fun idx => ⟨idx, .starting⟩) :
    Merged owner post left := by
  have fresh : ∀ task ∈ post.tasks, task ∈ pre.tasks ∨ task.phase = .starting := by
    intro task mem
    rw [tasks, mem_append, mem_map] at mem
    rcases mem with old | ⟨idx, -, rfl⟩
    · exact .inl old
    · exact .inr rfl
  have holder : ∀ (place : Nat) (task : StepTask _), post.tasks[place]? = some task → task.phase.copy?.isSome = true →
      pre.tasks[place]? = some task := by
    intro place task found holds
    rw [tasks, getElem?_append] at found
    split at found
    · exact found
    · rw [getElem?_map] at found
      obtain ⟨idx, -, rfl⟩ := Option.map_eq_some_iff.mp found
      cases holds
  refine ⟨?_, ?_, ?_, ?_⟩
  · rw [context]
    exact merged.stored
  · intro task mem copied copy
    rw [context]
    rcases fresh task mem with old | new
    · exact merged.copies task old copied copy
    · rw [new] at copy
      cases copy
  · intro first second one two atFirst atSecond holdsFirst holdsSecond
    exact merged.single first second one two (holder first one atFirst holdsFirst)
      (holder second two atSecond holdsSecond) holdsFirst holdsSecond
  · intro task mem success
    rcases fresh task mem with old | new
    · exact merged.recorded task old success
    · rw [new] at success
      cases success

theorem Merged.move {phase : TaskPhase (Field → Value)} (spawned : pre.tasks[position]? = some ⟨idx, phase⟩)
    (context : post.store.context = pre.store.context) (copies : ∀ copied, next.copy? = some copied →
      ∀ field, owner field ≠ idx → copied field = pre.store.context field)
    (held : next.copy?.isSome = true → phase.copy?.isSome = true ∨ ∀ other ∈ pre.tasks, other.phase.copy? = none)
    (success : next.succeeded = true → phase.succeeded = true) :
    Merged owner { post with tasks := pre.tasks.set position ⟨idx, next⟩ } left := by
  refine ⟨?_, ?_, merged.single.set spawned held, ?_⟩
  · show ∀ i written, _ → ∀ field, _ → post.store.context field = _
    rw [context]
    exact merged.stored
  · intro task mem copied copy field other
    show copied field = post.store.context field
    rw [context]
    rcases mem_or_eq_of_mem_set mem with old | rfl
    · exact merged.copies task old copied copy field other
    · exact copies copied copy field other
  · intro task mem succeeded
    rcases mem_or_eq_of_mem_set mem with old | rfl
    · exact merged.recorded task old succeeded
    · exact merged.recorded ⟨idx, phase⟩ (mem_of_getElem? spawned) (success succeeded)

/-- The step that writes its copy back: the fields of the others are as they were stored. -/
theorem Merged.writeBack {attempt : Nat}
    (spawned : pre.tasks[position]? = some ⟨idx, .writingBack attempt written outcome⟩)
    (context : post.store.context = written) (dropped : next.copy? = none) :
    Merged owner { post with tasks := pre.tasks.set position ⟨idx, next⟩ } (update left idx (some written)) := by
  have mem := mem_of_getElem? spawned
  refine ⟨?_, ?_, merged.single.set spawned fun holds => ?_, ?_⟩
  · intro other changes recorded field owned
    show post.store.context field = _
    rw [context]
    by_cases same : other = idx
    · subst same
      rw [update_self] at recorded
      rw [Option.some.inj recorded]
    · rw [update_of_ne same] at recorded
      rw [← merged.stored other changes recorded field owned]
      exact merged.copies _ mem written rfl field (by rw [owned]; exact same)
  · intro task inside copied copy
    -- nobody else holds a copy
    obtain ⟨place, found⟩ := getElem?_of_mem inside
    by_cases here : place = position
    · subst here
      rw [getElem?_set_self (List.getElem?_eq_some_iff.mp spawned).1] at found
      rw [← Option.some.inj found, dropped] at copy
      cases copy
    · rw [getElem?_set_ne (Ne.symm here)] at found
      exact absurd (merged.single place position task _ found spawned (by rw [copy]; rfl) rfl) here
  · rw [dropped] at holds
    cases holds
  · intro task inside succeeded
    by_cases same : task.step = idx
    · rw [same, update_self]
      rfl
    · rw [update_of_ne same]
      rcases mem_or_eq_of_mem_set inside with old | rfl
      · exact merged.recorded task old succeeded
      · exact absurd rfl same

omit merged in
theorem record_of_ne {D : Type} {engine : Engine D} {left : Nat → Option D} {context : D}
    {phase : TaskPhase D} (spawned : engine.tasks[position]? = some ⟨idx, phase⟩)
    (other : ∀ attempt written ended, phase ≠ .writingBack attempt written ended) :
    record engine left (.task position outcome context) = left := by
  unfold record
  dsimp only
  split
  · next found =>
    rw [spawned] at found
    cases found
    exact absurd rfl (other _ _ _)
  · rfl

theorem Merged.taskStep (own : WritesOwn owner pre (.task position outcome context))
    (exclusive : Exclusive pre (.task position outcome context))
    (stepped : pre.taskStep flow position outcome context = some post) :
    Merged owner post (record pre left (.task position outcome context)) := by
  obtain ⟨⟨idx, phase⟩, step, middle, next, spawned, -, advanced, rfl⟩ := taskStep_eq_some stepped
  cases contextStep advanced with
  | copies attempt kept =>
    rw [record_of_ne spawned nofun]
    refine merged.move spawned kept ?_ (fun _ => .inr (exclusive idx attempt spawned)) nofun
    intro copied copy field _
    rw [← Option.some.inj copy]
  | executes attempt copied kept =>
    rw [record_of_ne spawned nofun]
    refine merged.move spawned kept ?_ (fun _ => .inl rfl) nofun
    intro changed copy field other
    rw [← Option.some.inj copy, own idx attempt copied spawned field other]
    exact merged.copies _ (mem_of_getElem? spawned) copied rfl field other
  | writes attempt written ended stored dropped =>
    have recorded : record pre left (.task position outcome context) = update left idx (some written) := by
      unfold record
      dsimp only
      rw [spawned]
    rw [recorded]
    exact merged.writeBack spawned stored dropped
  | other kept none_held none_taken success =>
    rw [record_of_ne spawned (by rintro _ _ _ rfl; cases none_held)]
    refine merged.move spawned kept ?_ ?_ success
    · intro copied copy
      rw [none_taken] at copy
      cases copy
    · rw [none_taken]
      exact nofun

theorem Merged.step {move : Move (Field → Value)} (own : WritesOwn owner pre move)
    (exclusive : Exclusive pre move) (stepped : pre.step flow move = some post) :
    Merged owner post (record pre left move) := by
  have same (context : post.store.context = pre.store.context) (tasks : post.tasks = pre.tasks) :
      Merged owner post left :=
    @Merged.spawn _ _ _ _ _ _ merged context [] (by rw [tasks, map_nil, append_nil])
  cases steps_of_step stepped with
  | tick | cancel | listActive | cancelListed => exact same rfl rfl
  | scheduler stepped =>
    obtain ⟨context, ready, tasks⟩ := schedulerStep_tasks stepped
    exact merged.spawn context tasks
  | task stepped => exact merged.taskStep own exclusive stepped

omit merged

theorem merged_of_observed {data : Field → Value} (observed : Observed flow data
      (fun engine move => WritesOwn owner engine move ∧ Exclusive engine move) engine left) :
    Merged owner engine left := by
  induction observed with
  | start =>
    exact ⟨nofun, forall_mem_nil _, nofun, forall_mem_nil _⟩
  | step move earlier permitted stepped ih => exact ih.step permitted.1 permitted.2 stepped

/-- For steps that write disjoint fields: the context a step receives when it starts executing has the
changes of every successful step that it depends on, and the stored context of a completed workflow has the
changes of every successful step, if no step takes its copy of the context while another one holds one. -/
theorem context_has_changes {data : Field → Value} (observed : Observed defn data
      (fun engine move => WritesOwn owner engine move ∧ Exclusive engine move) engine left) :
    (∀ position idx attempt outcome context post, engine.tasks[position]? = some ⟨idx, .copying attempt⟩ →
      engine.step defn (.task position outcome context) = some post →
      ∃ received, post.tasks[position]? = some ⟨idx, .executing attempt received⟩ ∧
        ∀ dependency, Relation.TransGen defn.Depends idx dependency →
          Completed engine dependency → HasChanges owner left received dependency) ∧
    (engine.store.status = .completed → ∀ idx, Completed engine idx →
      HasChanges owner left engine.store.context idx) := by
  have merged := merged_of_observed observed
  have stored : ∀ idx, Completed engine idx → HasChanges owner left engine.store.context idx := by
    rintro idx ⟨task, mem, rfl, success⟩
    obtain ⟨written, recorded⟩ :=
      Option.isSome_iff_exists.mp (merged.recorded task mem (succeeded_of_signal success))
    exact ⟨written, recorded, merged.stored _ written recorded⟩
  refine ⟨?_, fun _ => stored⟩
  intro position idx attempt outcome context post spawned stepped
  obtain ⟨⟨same, phase⟩, step, middle, next, found, -, advanced, rfl⟩ := taskStep_eq_some stepped
  rw [spawned] at found
  cases found
  cases advanced
  refine ⟨engine.store.context, ?_, fun dependency _ => stored dependency⟩
  exact getElem?_set_self (List.getElem?_eq_some_iff.mp spawned).1

end

/-! ### Two steps side by side -/

/-- The state after permitted moves, with what the steps have left in the context. -/
def observe {D : Type} (defn : WorkflowDefinition D) (permits : Engine D → Move D → Bool) :
    List (Move D) → Engine D × (Nat → Option D) → Option (Engine D × (Nat → Option D))
  | [], observed => some observed
  | move :: rest, (engine, left) =>
    if permits engine move then
      (engine.step defn move).bind fun post =>
        observe defn permits rest (post, record engine left move)
    else none

theorem observed_of_observe {D : Type} {flow : WorkflowDefinition D} {data : D}
    {permits : Engine D → Move D → Bool} {allowed : Engine D → Move D → Prop}
    (sound : ∀ engine move, permits engine move = true → allowed engine move) :
    ∀ (moves : List (Move D)) {pre post : Engine D} {left right : Nat → Option D},
      Observed flow data allowed pre left →
      observe flow permits moves (pre, left) = some (post, right) →
      Observed flow data allowed post right
  | [], _, _, _, _, earlier, ran => by
    cases ran
    exact earlier
  | move :: rest, pre, post, left, right, earlier, ran => by
    unfold observe at ran
    split at ran
    · next permitted =>
      obtain ⟨between, first, later⟩ := Option.bind_eq_some_iff.mp ran
      exact observed_of_observe sound rest (earlier.step move (sound pre move permitted) first) later
    · cases ran

/-- Two independent steps, and one that depends on the first of them. -/
def forkedSteps : WorkflowDefinition (Bool → Nat) where
  steps := [{ id := "fetch" }, { id := "probe" }, { id := "join", dependsOn := ["fetch"] }]

def forked : WorkflowDefinition (Bool → Nat) :=
  { forkedSteps with
      reverseDeps := WorkflowDefinition.buildReverseDeps forkedSteps.steps
      initialStepIndices := [0, 1] }

/-- The first step owns one field and the second step the other. -/
def forkedOwner (field : Bool) : Nat := if field then 0 else 1

def writesOwn (engine : Engine (Bool → Nat)) : Move (Bool → Nat) → Bool
  | .task position _ context =>
    match engine.tasks[position]? with
    | some ⟨idx, .executing _ copied⟩ =>
      decide (∀ field, forkedOwner field ≠ idx → context field = copied field)
    | _ => true
  | _ => true

def exclusive (engine : Engine (Bool → Nat)) : Move (Bool → Nat) → Bool
  | .task position _ _ =>
    match engine.tasks[position]? with
    | some ⟨_, .copying _⟩ => engine.tasks.all fun task => task.phase.copy?.isNone
    | _ => true
  | _ => true

variable (engine : Engine (Bool → Nat))

theorem writesOwn_sound (move : Move (Bool → Nat))
    (permitted : writesOwn engine move = true) : WritesOwn forkedOwner engine move := by
  cases move with
  | task position outcome context =>
    intro idx attempt copied spawned
    simp only [writesOwn, spawned, decide_eq_true_eq] at permitted
    exact permitted
  | tick | cancel | listActive | cancelListed | scheduler _ => trivial

theorem exclusive_sound (move : Move (Bool → Nat))
    (permitted : exclusive engine move = true) : Exclusive engine move := by
  cases move with
  | task position outcome context =>
    intro idx attempt spawned task mem
    simp only [exclusive, spawned, all_eq_true, Option.isNone_iff_eq_none] at permitted
    exact permitted task mem
  | tick | cancel | listActive | cancelListed | scheduler _ => trivial

/-- Each step writes back before the next one takes its copy. -/
def sequential : List (Move (Bool → Nat)) :=
  schedulerMoves _ 6 ++ taskMoves 9 0 (fun field => if field then 7 else 0) ++
    taskMoves 9 1 (fun field => if field then 7 else 8) ++ schedulerMoves _ 8 ++
    taskMoves 3 2 (fun _ => 0)

/-- The dependent step receives the field of the step it depends on. -/
theorem join_receives_changes : ∃ engine left post received, Observed forked (fun _ => 0)
        (fun engine move => WritesOwn forkedOwner engine move ∧ Exclusive engine move) engine left ∧
      engine.step forked (.task 2 .timedOut fun _ => 0) = some post ∧
      post.tasks[2]? = some ⟨2, .executing 1 received⟩ ∧ HasChanges forkedOwner left received 0 := by
  obtain ⟨engine, left, post, ran, stepped, fetched, joining⟩ : ∃ engine left post,
      observe forked (fun engine move => writesOwn engine move && exclusive engine move) sequential
        (.start forked fun _ => 0, fun _ => none) = some (engine, left) ∧
      engine.step forked (.task 2 .timedOut fun _ => 0) = some post ∧
      engine.tasks[0]? = some ⟨0, .ended .success⟩ ∧ engine.tasks[2]? = some ⟨2, .copying 1⟩ :=
    ⟨_, _, _, rfl, rfl, rfl, rfl⟩
  have observed : Observed forked (fun _ => 0)
      (fun engine move => WritesOwn forkedOwner engine move ∧ Exclusive engine move) engine left := by
    refine observed_of_observe (fun engine move permitted => ?_) _ .start ran
    rw [Bool.and_eq_true] at permitted
    exact ⟨writesOwn_sound engine move permitted.1, exclusive_sound engine move permitted.2⟩
  have completed : Completed engine 0 := ⟨_, mem_of_getElem? fetched, rfl, rfl⟩
  have depends : forked.Depends 2 0 := ⟨_, _, rfl, rfl, mem_singleton_self _⟩
  obtain ⟨received, executing, changes⟩ :=
    (context_has_changes observed).1 2 2 1 .timedOut (fun _ => 0) post joining stepped
  exact ⟨engine, left, post, received, observed, stepped, executing, changes 0 (.single depends) completed⟩

/-- The first two steps take their copies before either writes back. -/
def overlapping : List (Move (Bool → Nat)) :=
  schedulerMoves _ 6 ++ taskMoves 4 0 (fun _ => 0) ++ taskMoves 4 1 (fun _ => 0) ++
    taskMoves 5 0 (fun field => if field then 7 else 0) ++
    taskMoves 5 1 (fun field => if field then 0 else 8) ++ schedulerMoves _ 8 ++
    taskMoves 3 2 (fun _ => 0)

/-- The second step undoes the change of the first: the step that depends on the first does not receive it,
and the completed workflow does not have it. -/
theorem overlapping_copies_lose_changes : forkedSteps.validate = .ok forked ∧ (∃ engine left post received,
      Observed forked (fun _ => 0) (WritesOwn forkedOwner) engine left ∧
      engine.step forked (.task 2 .timedOut fun _ => 0) = some post ∧
      post.tasks[2]? = some ⟨2, .executing 1 received⟩ ∧ forked.Depends 2 0 ∧ Completed engine 0 ∧
      ¬ HasChanges forkedOwner left received 0) ∧
    ∃ engine left, Observed forked (fun _ => 0) (WritesOwn forkedOwner) engine left ∧
      engine.store.status = .completed ∧ Completed engine 0 ∧
      ¬ HasChanges forkedOwner left engine.store.context 0 := by
  refine ⟨rfl, ?_, ?_⟩
  · obtain ⟨engine, left, post, received, written, ran, stepped, executing, fetched, wrote, changed, lost⟩ :
        ∃ engine left post received written,
          observe forked writesOwn overlapping (.start forked fun _ => 0, fun _ => none) = some (engine, left) ∧
          engine.step forked (.task 2 .timedOut fun _ => 0) = some post ∧
          post.tasks[2]? = some ⟨2, .executing 1 received⟩ ∧
          engine.tasks[0]? = some ⟨0, .ended .success⟩ ∧ left 0 = some written ∧ written true = 7 ∧
          received true = 0 := ⟨_, _, _, _, _, rfl, rfl, rfl, rfl, rfl, rfl, rfl⟩
    refine ⟨engine, left, post, received, observed_of_observe writesOwn_sound _ .start ran, stepped,
      executing, ⟨_, _, rfl, rfl, mem_singleton_self _⟩,
      ⟨_, mem_of_getElem? fetched, rfl, rfl⟩, ?_⟩
    exact not_hasChanges wrote (by decide : forkedOwner true = 0) (by rw [lost, changed]; decide)
  · obtain ⟨engine, left, written, ran, status, fetched, wrote, changed, lost⟩ : ∃ engine left written,
          observe forked writesOwn
            (overlapping ++ taskMoves 6 2 (fun field => if field then 0 else 8) ++ schedulerMoves _ 7)
            (.start forked fun _ => 0, fun _ => none) = some (engine, left) ∧
          engine.store.status = .completed ∧ engine.tasks[0]? = some ⟨0, .ended .success⟩ ∧
          left 0 = some written ∧ written true = 7 ∧ engine.store.context true = 0 :=
      ⟨_, _, _, rfl, rfl, rfl, rfl, rfl, rfl⟩
    refine ⟨engine, left, observed_of_observe writesOwn_sound _ .start ran, status,
      ⟨_, mem_of_getElem? fetched, rfl, rfl⟩, ?_⟩
    exact not_hasChanges wrote (by decide : forkedOwner true = 0) (by rw [lost, changed]; decide)

end ModelGateway.Workflow
