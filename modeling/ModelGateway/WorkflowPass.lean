import ModelGateway.WorkflowEngine

/-! Phase 2 of the scheduler loop: steps whose wait is over are woken, and steps whose dependencies are
satisfied are launched or set waiting, by what the wall clock shows when each of them is looked at. -/
namespace ModelGateway.Workflow
open List Pass

section
variable {D : Type} {flow : WorkflowDefinition D} {tracker : StepTracker} {woken : List Nat}
  {placed : List (Nat × Nat)} {pass : Pass} {idx utc now : Nat}

/-- The step of an index has to wait at a time of the wall clock. -/
def waits (defn : WorkflowDefinition D) (idx utc : Nat) : Bool :=
  match defn.steps[idx]? with
  | some step => (calculateWaitDuration step utc).any fun duration => decide (0 < duration)
  | none => false

theorem waits_iff {step : StepDefinition D} (defined : flow.steps[idx]? = some step) : waits flow idx utc = true ↔
      (∃ delay, step.delay = some delay ∧ 0 < delay) ∨ ∃ time, step.scheduledAt = some time ∧ utc < time := by
  simp only [waits, defined, calculateWaitDuration]
  cases step.scheduledAt with
  | none => cases step.delay <;> simp
  | some time =>
    by_cases early : utc < time
    · have left : 0 < time - utc := Nat.sub_pos_of_lt early
      cases step.delay with
      | none => simp [early, left]
      | some delay => simp [early, Nat.add_pos_right delay left]
    · cases step.delay <;> simp [early]

/-- What phase 2 makes of the tracker once some waiting steps were woken and some ready steps placed, each
at its time of the wall clock. -/
structure Pass.Result (defn : WorkflowDefinition D) (tracker : StepTracker) (woken : List Nat)
    (placed : List (Nat × Nat)) (pass : Pass) : Prop where
  sets : pass.tracker = { tracker with waitingUntil := pass.tracker.waitingUntil }
  waiting : ∀ idx, pass.tracker.waitingUntil.contains idx = true ↔
    tracker.waitingUntil.contains idx = true ∧ idx ∉ woken ∨
      ∃ utc, (idx, utc) ∈ placed ∧ waits defn idx utc = true
  ready : ∀ idx, idx ∈ pass.ready ↔ idx ∈ woken ∨ ∃ utc, (idx, utc) ∈ placed ∧ waits defn idx utc = false
  once : pass.ready.Nodup
  added : pass.addedToWaiting = 0 ↔ ∀ entry ∈ placed, waits defn entry.1 entry.2 = false

theorem Pass.mem_push (other : Nat) : other ∈ (pass.push idx).ready ↔ other ∈ pass.ready ∨ other = idx := by
  unfold push
  split
  · next mem =>
    refine ⟨.inl, fun either => either.elim id ?_⟩
    rintro rfl
    exact mem
  · simp

theorem Pass.nodup_push (once : pass.ready.Nodup) : (pass.push idx).ready.Nodup := by
  unfold push
  split
  · exact once
  · next new =>
    refine nodup_append.mpr ⟨once, nodup_singleton _, fun other mem single same => ?_⟩
    intro equal
    rw [mem_singleton.mp same] at equal
    exact new (equal ▸ mem)

theorem Pass.push_frame :
    (pass.push idx).tracker = pass.tracker ∧ (pass.push idx).addedToWaiting = pass.addedToWaiting := by
  unfold push
  split <;> exact ⟨rfl, rfl⟩

theorem Pass.Result.wake (result : Result flow tracker woken [] pass) (idx : Nat) :
    Result flow tracker (woken ++ [idx]) [] (pass.wake idx) := by
  have frame := @Pass.push_frame { pass with tracker := pass.tracker.clearWaiting idx } idx
  refine ⟨?_, ?_, ?_, nodup_push result.once, ?_⟩
  · rw [Pass.wake, frame.1]
    show pass.tracker.clearWaiting idx = _
    rw [StepTracker.clearWaiting, result.sets]
  · intro other
    rw [Pass.wake, frame.1]
    show (pass.tracker.waitingUntil.erase idx).contains other = true ↔ _
    have pre := result.waiting other
    simp only [not_mem_nil, false_and, exists_false, or_false] at pre ⊢
    simp only [KeyedMap.contains_erase, Bool.and_eq_true, Bool.not_eq_true', decide_eq_false_iff_not,
      pre, mem_append, mem_singleton, not_or]
    tauto
  · intro other
    have pre := result.ready other
    simp only [not_mem_nil, false_and, exists_false, or_false] at pre ⊢
    rw [Pass.wake, Pass.mem_push, mem_append, mem_singleton]
    exact or_congr_left pre
  · rw [Pass.wake, frame.2]
    exact result.added

theorem Pass.place_cases (pass : Pass) (inside : idx < flow.steps.length) :
    (waits flow idx utc = true ∧ ∃ readyAt, pass.place flow now idx utc = pass.await idx readyAt) ∨
      waits flow idx utc = false ∧ pass.place flow now idx utc = pass.push idx := by
  have defined := getElem?_eq_getElem inside
  simp only [waits, place, defined]
  cases calculateWaitDuration flow.steps[idx] utc with
  | none => exact .inr ⟨rfl, rfl⟩
  | some duration =>
    by_cases pos : 0 < duration
    · exact .inl ⟨by simpa using pos, _, if_pos pos⟩
    · exact .inr ⟨by simpa using pos, if_neg pos⟩

theorem Pass.Result.place (result : Result flow tracker woken placed pass) (inside : idx < flow.steps.length) :
    Result flow tracker woken (placed ++ [(idx, utc)]) (pass.place flow now idx utc) := by
  have last : ∀ other (answer : Bool), (∃ time, (other, time) ∈ placed ++ [(idx, utc)] ∧
      waits flow other time = answer) ↔ (∃ time, (other, time) ∈ placed ∧
      waits flow other time = answer) ∨ other = idx ∧ waits flow idx utc = answer := by
    intro other answer
    constructor
    · rintro ⟨time, mem, decided⟩
      rcases mem_append.mp mem with earlier | single
      · exact .inl ⟨time, earlier, decided⟩
      · cases mem_singleton.mp single
        exact .inr ⟨rfl, decided⟩
    · rintro (⟨time, earlier, decided⟩ | ⟨rfl, decided⟩)
      · exact ⟨time, mem_append_left _ earlier, decided⟩
      · exact ⟨utc, by simp, decided⟩
  have all : (∀ entry ∈ placed ++ [(idx, utc)], waits flow entry.1 entry.2 = false) ↔
      (∀ entry ∈ placed, waits flow entry.1 entry.2 = false) ∧ waits flow idx utc = false :=
    forall_mem_append.trans (and_congr_right' forall_mem_singleton)
  rcases @Pass.place_cases _ _ _ _ now pass inside with ⟨waiting, readyAt, moved⟩ | ⟨ready, moved⟩
  · rw [moved]
    refine ⟨?_, ?_, ?_, result.once, ?_⟩
    · show pass.tracker.setWaiting idx readyAt = _
      rw [StepTracker.setWaiting, result.sets]
      rfl
    · intro other
      show (pass.tracker.waitingUntil.insert idx readyAt).contains other = true ↔ _
      rw [last, KeyedMap.contains_insert, Bool.or_eq_true, decide_eq_true_eq, result.waiting other]
      simp only [waiting, and_true]
      rw [or_comm, or_assoc]
    · intro other
      rw [last]
      simp only [waiting, Bool.true_eq_false, and_false, or_false]
      exact result.ready other
    · rw [all]
      simp [waiting, await]
  · rw [moved]
    have frame := @Pass.push_frame pass idx
    refine ⟨?_, ?_, ?_, nodup_push result.once, ?_⟩
    · rw [frame.1]
      exact result.sets
    · intro other
      rw [frame.1, last, result.waiting other]
      simp [ready]
    · intro other
      rw [mem_push, last, result.ready other]
      simp only [ready, and_true]
      exact or_assoc
    · rw [all, frame.2, result.added]
      simp [ready]

theorem Pass.Result.foldl_wake : ∀ (indices : List Nat) {woken : List Nat} {pass : Pass},
    Result flow tracker woken [] pass →
    Pass.Result flow tracker (woken ++ indices) [] (indices.foldl Pass.wake pass)
  | [], woken, pass, result => by rwa [append_nil]
  | idx :: rest, woken, pass, result => by
    have later := Pass.Result.foldl_wake rest (result.wake idx)
    rwa [append_assoc] at later

theorem Pass.Result.foldl_place (now : Nat) (clock : Nat → Nat) : ∀ (entries : List (Nat × Nat))
    {placed : List (Nat × Nat)} {pass : Pass}, (∀ entry ∈ entries, entry.1 < flow.steps.length) →
    Result flow tracker woken placed pass →
    Result flow tracker woken (placed ++ entries.map fun entry => (entry.1, clock entry.2))
      (entries.foldl (fun pass entry => pass.place flow now entry.1 (clock entry.2)) pass)
  | [], placed, pass, _, result => by rwa [map_nil, append_nil]
  | entry :: rest, placed, pass, inside, result => by
    have first : Result flow tracker woken (placed ++ [(entry.1, clock entry.2)])
        (pass.place flow now entry.1 (clock entry.2)) := result.place (inside entry mem_cons_self)
    have later := Result.foldl_place now clock rest
      (fun other mem => inside other (mem_cons_of_mem _ mem)) first
    rwa [append_assoc] at later

theorem pass_result (engine : Engine D) (clock : Nat → Nat) (snapshot : Snapshot)
    (inside : ∀ idx ∈ snapshot.depsReady, idx < flow.steps.length) :
    Result flow engine.tracker snapshot.waitReady
      (snapshot.depsReady.zipIdx.map fun entry => (entry.1, clock entry.2))
      (engine.pass flow clock snapshot) := by
  have start : Result flow engine.tracker [] [] { tracker := engine.tracker } :=
    ⟨rfl, by simp, by simp, nodup_nil, by simp⟩
  have woken := Result.foldl_wake snapshot.waitReady start
  rw [nil_append] at woken
  apply Result.foldl_place engine.now clock snapshot.depsReady.zipIdx _ woken
  intro entry mem
  exact inside _ (fst_mem_of_mem_zipIdx mem)

end
end ModelGateway.Workflow
