import ModelGateway.WorkflowEngine

/-! Terminal statuses and cancellation.  The scheduler looks for a cancellation at the head of its loop
only, and both it and `cancel_workflow` write the status without looking at it.  A cancellation that comes
while the scheduler is bound for the head of its loop is seen, and every terminal status is final then. -/
namespace ModelGateway.Workflow
open Relation

/-- The loop polls for a cancellation before it writes a status. -/
def SchedulerPhase.pollsFirst : SchedulerPhase → Bool
  | .polling | .launching _ | .checking _ | .timing | .receiving | .sleeping _ => true
  | _ => false

/-- A call cancels only a workflow that is cancelled already, or one without a terminal status whose
scheduler polls before it writes. -/
def InTime {D : Type} (engine : Engine D) : Move D → Prop
  | .cancel | .cancelListed =>
    engine.store.status = .cancelled ∨ engine.store.status.isTerminal = false ∧ engine.scheduler.pollsFirst = true
  | .tick | .listActive | .scheduler _ | .task _ _ _ => True

instance {D : Type} (engine : Engine D) : (move : Move D) → Decidable (InTime engine move)
  | .cancel | .cancelListed => inferInstanceAs (Decidable (_ ∨ _ ∧ _))
  | .tick | .listActive | .scheduler _ | .task _ _ _ => inferInstanceAs (Decidable True)

/-- A workflow with a terminal status is left alone by the scheduler, or was cancelled and will be. -/
def LeftAlone {D : Type} (engine : Engine D) : Prop :=
  engine.store.status.isTerminal = true → engine.scheduler.isOver = true ∨
      engine.store.status = .cancelled ∧ engine.scheduler.pollsFirst = true

section
variable {D : Type} {defn : WorkflowDefinition D} {pre post : Engine D} {utc : Nat → Nat}

theorem LeftAlone.frame (alone : LeftAlone pre) (status : post.store.status = pre.store.status)
    (scheduler : post.scheduler = pre.scheduler) : LeftAlone post := by
  unfold LeftAlone
  rw [status, scheduler]
  exact alone

theorem LeftAlone.cancel (engine : Engine D)
    (inTime : engine.store.status = .cancelled ∨ engine.scheduler.pollsFirst = true)
    (alone : LeftAlone engine) : LeftAlone engine.cancel := by
  intro _
  rcases inTime with cancelled | polls
  · rcases alone (by rw [cancelled]; rfl) with finished | ⟨-, polls⟩
    · exact .inl finished
    · exact .inr ⟨rfl, polls⟩
  · exact .inr ⟨rfl, polls⟩

/-- What a step of the scheduler has to do with the status: it is on its way to the head of the loop, finds
the workflow cancelled or not, is past that point, or is finished. -/
inductive StatusStep (pre post : Engine D) : Prop
  | returning (same : post.store.status = pre.store.status)
    (from_ : pre.scheduler.pollsFirst = true) (to_ : post.scheduler.pollsFirst = true)
  | stopped (same : post.store.status = pre.store.status) (finished : post.scheduler.isOver = true)
  | entered (same : post.store.status = pre.store.status) (head : pre.scheduler = .polling)
    (live : pre.store.status ≠ .cancelled)
  | decided (same : post.store.status = pre.store.status)
    (passed : pre.scheduler.pollsFirst = false) (busy : pre.scheduler.isOver = false)
  | written (passed : pre.scheduler.pollsFirst = false) (busy : pre.scheduler.isOver = false)
    (finished : post.scheduler.isOver = true)

theorem statusStep (stepped : pre.schedulerStep defn utc = some post) : StatusStep pre post := by
  cases schedules_of_schedulerStep stepped with
  | stop | publish => exact .stopped rfl rfl
  | enter phase live => exact .entered rfl phase live
  | @drain message rest phase held =>
    obtain ⟨pending, same⟩ := @enqueueDependents_frame D defn { pre with channel := rest } message
    rw [same]
    exact .decided rfl (by rw [phase]; rfl) (by rw [phase]; rfl)
  | drained phase | read phase | schedule phase | block phase | conclude phase =>
    exact .decided rfl (by rw [phase]; rfl) (by rw [phase]; rfl)
  | launch phase | time phase | awake phase => exact .returning rfl (by rw [phase]; rfl) rfl
  | check phase =>
    refine .returning rfl (by rw [phase]; rfl) ?_
    unfold Engine.check
    split
    · rfl
    · split <;> rfl
  | @receive message rest phase held =>
    obtain ⟨pending, same⟩ :=
      @enqueueDependents_frame D defn { pre with channel := rest, scheduler := .polling } message
    rw [same]
    exact .returning rfl (by rw [phase]; rfl) rfl
  | write phase => exact .written (by rw [phase]; rfl) (by rw [phase]; rfl) rfl

theorem LeftAlone.running (alone : LeftAlone pre) (passed : pre.scheduler.pollsFirst = false)
    (busy : pre.scheduler.isOver = false) : pre.store.status.isTerminal = false := by
  by_contra terminal
  rw [Bool.not_eq_false] at terminal
  rcases alone terminal with finished | ⟨-, polls⟩
  · cases busy.symm.trans finished
  · cases passed.symm.trans polls

theorem LeftAlone.of_running (running : post.store.status.isTerminal = false) : LeftAlone post :=
  fun terminal => absurd (running.symm.trans terminal) (by decide)

theorem schedulerStep_final (alone : LeftAlone pre)
    (stepped : pre.schedulerStep defn utc = some post) : LeftAlone post ∧
      (pre.store.status.isTerminal = true → post.store.status = pre.store.status) := by
  rcases statusStep stepped with ⟨same, from_, to_⟩ | ⟨same, finished⟩ | ⟨same, head, live⟩ |
    ⟨same, passed, busy⟩ | ⟨passed, busy, finished⟩
  · refine ⟨fun terminal => ?_, fun _ => same⟩
    rw [same] at terminal ⊢
    rcases alone terminal with finished | ⟨cancelled, -⟩
    · cases phase : pre.scheduler <;> rw [phase] at from_ finished <;> contradiction
    · exact .inr ⟨cancelled, to_⟩
  · exact ⟨fun _ => .inl finished, fun _ => same⟩
  · have running : pre.store.status.isTerminal = false := by
      by_contra terminal
      rw [Bool.not_eq_false] at terminal
      rcases alone terminal with finished | ⟨cancelled, -⟩
      · rw [head] at finished
        cases finished
      · exact live cancelled
    exact ⟨.of_running (by rw [same]; exact running), fun _ => same⟩
  · have running := alone.running passed busy
    exact ⟨.of_running (by rw [same]; exact running), fun _ => same⟩
  · have running := alone.running passed busy
    exact ⟨fun _ => .inl finished, fun terminal => absurd (running.symm.trans terminal) (by decide)⟩

theorem next_final (alone : LeftAlone pre) (next : Next defn InTime pre post) : LeftAlone post ∧
      (pre.store.status.isTerminal = true → post.store.status = pre.store.status) := by
  obtain ⟨move, inTime, stepped⟩ := next
  have cancelled (timely : InTime pre .cancel) : LeftAlone pre.cancel ∧
      (pre.store.status.isTerminal = true → pre.cancel.store.status = pre.store.status) := by
    rcases timely with already | ⟨running, polls⟩
    · exact ⟨alone.cancel pre (.inl already), fun _ => already.symm⟩
    · exact ⟨alone.cancel pre (.inr polls), fun terminal => absurd (running.symm.trans terminal) (by decide)⟩
  cases steps_of_step stepped with
  | tick | listActive => exact ⟨alone, fun _ => rfl⟩
  | cancel | cancelListed => exact cancelled inTime
  | scheduler stepped => exact schedulerStep_final alone stepped
  | task stepped =>
    obtain ⟨status, scheduler, -⟩ := taskStep_frame stepped
    exact ⟨alone.frame status scheduler, fun _ => status⟩

theorem later_final (alone : LeftAlone pre)
    (later : ReflTransGen (Next defn InTime) pre post) : LeftAlone post ∧
      (pre.store.status.isTerminal = true → post.store.status = pre.store.status) := by
  induction later with
  | refl => exact ⟨alone, fun _ => rfl⟩
  | tail _ next ih =>
    obtain ⟨kept, same⟩ := ih
    obtain ⟨moved, final⟩ := next_final kept next
    refine ⟨moved, fun terminal => ?_⟩
    have between := same terminal
    rw [← between] at terminal ⊢
    exact final terminal

/-- Once a status is terminal no later step changes it, and a workflow that is cancelled before its status
is terminal stays cancelled, if every cancellation comes in time. -/
theorem terminal_status_final {data : D} (reached : Reached defn data InTime pre)
    (later : ReflTransGen (Next defn InTime) pre post) :
    (pre.store.status.isTerminal = true → post.store.status = pre.store.status) ∧
      ∀ move cancelled ended, move.cancels = true → pre.store.status.isTerminal = false →
        InTime pre move → pre.step defn move = some cancelled →
        ReflTransGen (Next defn InTime) cancelled ended →
        ended.store.status = .cancelled := by
  have alone : LeftAlone pre := (later_final (.of_running rfl) reached).1
  refine ⟨(later_final alone later).2, ?_⟩
  intro move cancelled ended cancels _ inTime stepped post
  have left := (next_final alone ⟨move, inTime, stepped⟩).1
  have status : cancelled.store.status = .cancelled := by
    cases steps_of_step stepped with
    | cancel | cancelListed => rfl
    | tick | listActive | scheduler | task => cases cancels
  exact ((later_final left post).2 (by rw [status]; rfl)).trans status

end

def singleStep : WorkflowDefinition Unit := { steps := [{ id := "load" }], initialStepIndices := [0] }

/-- A workflow that is cancelled while its scheduler waits for a step ends as cancelled. -/
theorem cancelled_while_receiving :
    ∃ pre ended, Reached singleStep () InTime pre ∧ pre.scheduler = .receiving ∧
      ReflTransGen (Next singleStep InTime) pre.cancel ended ∧
      ended.scheduler = .returned ∧ ended.store.status = .cancelled := by
  obtain ⟨pre, ended, ran, ranOn, phase, running, finished⟩ : ∃ pre ended,
      run singleStep (fun engine move => decide (InTime engine move)) (schedulerMoves Unit 6)
        (.start singleStep ()) = some pre ∧
      run singleStep (fun engine move => decide (InTime engine move))
        (List.replicate 4 (.task 0 .timedOut ()) ++ schedulerMoves Unit 3) pre.cancel = some ended ∧
      pre.scheduler = .receiving ∧ pre.store.status = .running ∧ ended.scheduler = .returned :=
    ⟨_, _, rfl, rfl, rfl, rfl, rfl⟩
  have reached : Reached singleStep () InTime pre :=
    next_of_run (fun _ _ permitted => of_decide_eq_true permitted) _ ran
  have later : ReflTransGen (Next singleStep InTime) pre.cancel ended :=
    next_of_run (fun _ _ permitted => of_decide_eq_true permitted) _ ranOn
  have inTime : InTime pre .cancel := .inr ⟨by rw [running]; rfl, by rw [phase]; rfl⟩
  exact ⟨pre, ended, reached, phase, later, finished,
    (terminal_status_final reached .refl).2 .cancel pre.cancel ended rfl (by rw [running]; rfl) inTime rfl later⟩

/-- A completed workflow becomes cancelled, and one that is cancelled after the last poll becomes
completed. -/
theorem late_cancellations_overwrite :
    (∃ pre post : Engine Unit, Reached { steps := [] } () (fun _ _ => True) pre ∧
      Next { steps := [] } (fun _ _ => True) pre post ∧
      pre.store.status = .completed ∧ post.store.status = .cancelled) ∧
    ∃ pre post : Engine Unit, Reached { steps := [] } () (fun _ _ => True) pre ∧
      Next { steps := [] } (fun _ _ => True) pre post ∧
      pre.store.status = .cancelled ∧ post.store.status = .completed := by
  constructor
  · obtain ⟨pre, ran, status⟩ : ∃ pre,
        run { steps := [] } (fun _ _ => true) (schedulerMoves Unit 7) (.start { steps := [] } ()) =
          some pre ∧ pre.store.status = .completed := ⟨_, rfl, rfl⟩
    exact ⟨pre, pre.cancel, next_of_run (fun _ _ _ => trivial) _ ran, ⟨.cancel, trivial, rfl⟩, status, rfl⟩
  · obtain ⟨pre, post, ran, written, status, final⟩ : ∃ pre post,
        run { steps := [] } (fun _ _ => true) (schedulerMoves Unit 5 ++ [.cancel])
          (.start { steps := [] } ()) = some pre ∧
        pre.step { steps := [] } (.scheduler fun _ => 0) = some post ∧
        pre.store.status = .cancelled ∧ post.store.status = .completed := ⟨_, _, rfl, rfl, rfl, rfl⟩
    exact ⟨pre, post, next_of_run (fun _ _ _ => trivial) _ ran, ⟨_, trivial, written⟩, status, final⟩

end ModelGateway.Workflow
