import ModelGateway.DepthFirst
import ModelGateway.KeyedMap

/-! Workflow definitions (`crates/workflow/src/definition.rs`, `types.rs`): steps with their dependencies,
failure actions, delays and conditions, and the validation that rejects missing dependencies and cycles and
computes who depends on whom. -/
namespace ModelGateway.Workflow
open List DepthFirst Relation KeyedMap

abbrev StepId := String

structure RetryPolicy where
  maxAttempts : Nat
  deriving DecidableEq, Repr

instance : Inhabited RetryPolicy := ⟨⟨3⟩⟩

inductive FailureAction where
  | failWorkflow
  | continueNextStep
  | retryIndefinitely
  deriving DecidableEq, Repr

/-- A step.  The executor, its timeout and the back-off are not part of it: what a call does, and how long
it or a pause takes, is decided by the environment. -/
structure StepDefinition (D : Type) where
  id : StepId
  retryPolicy : Option RetryPolicy := none
  onFailure : FailureAction := .failWorkflow
  dependsOn : List StepId := []
  dependsOnAny : List StepId := []
  delay : Option Nat := none
  scheduledAt : Option Nat := none
  runIf : Option (D → Bool) := none

inductive ValidationError where
  | missingDependency (step dependency : StepId)
  | cycleDetected (step : StepId)
  deriving DecidableEq, Repr

structure WorkflowDefinition (D : Type) where
  steps : List (StepDefinition D)
  defaultRetryPolicy : RetryPolicy := default
  reverseDeps : KeyedMap StepId (List Nat) := ∅
  initialStepIndices : List Nat := []

variable {D : Type}

def StepDefinition.allDependencies (self : StepDefinition D) : List StepId :=
  self.dependsOn ++ self.dependsOnAny

namespace WorkflowDefinition

variable (self : WorkflowDefinition D)

def getRetryPolicy (step : StepDefinition D) : RetryPolicy :=
  step.retryPolicy.getD self.defaultRetryPolicy

def getDependentIndices (stepId : StepId) : List Nat :=
  (self.reverseDeps.get? stepId).getD []

/-- `steps_map`: of two steps with one id the later one is found. -/
def stepsMap (id : StepId) : Option (StepDefinition D) :=
  self.steps.reverse.find? fun step => step.id = id

/-- The first dependency that is no step, with the step that names it. -/
def findMissing : Option ValidationError :=
  self.steps.findSome? fun step =>
    (step.allDependencies.find? fun dependency => (self.stepsMap dependency).isNone).map
      (.missingDependency step.id ·)

/-- The dependencies that the search for cycles follows. -/
def dependencies (id : StepId) : List StepId :=
  match self.stepsMap id with
  | some step => step.allDependencies
  | none => []

/-- `has_cycle`, with the visited steps and the recursion stack. -/
def hasCycle (id : StepId) (marks : Marks StepId) :
    Bool × Marks StepId :=
  (search self.dependencies (self.steps.length + 1) id marks).getD (true, marks)

/-- The first step from which a cycle is found. -/
def findCycle (self : WorkflowDefinition D) :
    List (StepDefinition D) → Marks StepId → Option ValidationError
  | [], _ => none
  | step :: rest, marks =>
    if step.id ∈ marks.visited then self.findCycle rest marks
    else match self.hasCycle step.id marks with
      | (true, _) => some (.cycleDetected step.id)
      | (false, marks) => self.findCycle rest marks

/-- `reverse_deps.entry(dependency).or_default().push(index)`. -/
def addDependent (index : Nat) (map : KeyedMap StepId (List Nat)) (dependency : StepId) :
    KeyedMap StepId (List Nat) :=
  map.insert dependency ((map.get? dependency).getD [] ++ [index])

def buildReverseDeps (steps : List (StepDefinition D)) : KeyedMap StepId (List Nat) :=
  steps.zipIdx.foldl (fun map entry => entry.1.allDependencies.foldl (addDependent entry.2) map) ∅

def buildInitialStepIndices (steps : List (StepDefinition D)) : List Nat :=
  (steps.zipIdx.filter fun entry => entry.1.dependsOn.isEmpty && entry.1.dependsOnAny.isEmpty).map Prod.snd

def validate : Except ValidationError (WorkflowDefinition D) :=
  match self.findMissing with
  | some error => .error error
  | none =>
    match self.findCycle self.steps {} with
    | some error => .error error
    | none => .ok
        { self with
            reverseDeps := buildReverseDeps self.steps
            initialStepIndices := buildInitialStepIndices self.steps }

/-- A step of the definition depends on another, directly. -/
def Depends (dependent dependency : Nat) : Prop :=
  ∃ step other, self.steps[dependent]? = some step ∧ self.steps[dependency]? = some other ∧
    other.id ∈ step.allDependencies

/-! ### What an accepted definition is like -/

variable {self validated : WorkflowDefinition D}

variable {id : StepId} {step : StepDefinition D} {dependency : StepId} {index other : Nat}
  {steps : List (StepDefinition D)}

theorem stepsMap_isSome : (self.stepsMap id).isSome = true ↔ ∃ step ∈ self.steps, step.id = id := by
  simp [stepsMap, find?_isSome]

theorem findMissing_eq_none : self.findMissing = none ↔ ∀ step ∈ self.steps,
    ∀ dependency ∈ step.allDependencies, ∃ other ∈ self.steps, other.id = dependency := by
  simp only [findMissing, findSome?_eq_none_iff, Option.map_eq_none_iff, find?_eq_none, ← stepsMap_isSome,
    Bool.not_eq_true, Option.isNone_eq_false_iff]

variable (defn : WorkflowDefinition D)

/-- No two steps have one id. -/
abbrev Distinct : Prop := (defn.steps.map StepDefinition.id).Nodup

theorem dependencies_of_mem (nodup : self.Distinct) (mem : step ∈ self.steps) :
    self.dependencies step.id = step.allDependencies := by
  obtain ⟨found, same⟩ : ∃ found, self.stepsMap step.id = some found :=
    Option.isSome_iff_exists.mp (stepsMap_isSome.mpr ⟨step, mem, rfl⟩)
  have id := find?_some same
  have inside := mem_reverse.mp (mem_of_find?_eq_some same)
  rw [decide_eq_true_eq] at id
  rw [dependencies, same]
  exact congrArg StepDefinition.allDependencies (inj_on_of_nodup_map nodup inside mem id)

theorem hasCycle_decided (complete : self.findMissing = none) (mem : step ∈ self.steps)
    (marks : Marks StepId) : search self.dependencies (self.steps.length + 1) step.id marks =
      some (self.hasCycle step.id marks) := by
  have closed : ∀ id, self.dependencies id ⊆ self.steps.map StepDefinition.id := by
    intro id dependency named
    unfold dependencies at named
    split at named
    · next found same =>
      have inside := mem_reverse.mp (mem_of_find?_eq_some same)
      obtain ⟨other, held, rfl⟩ := findMissing_eq_none.mp complete _ inside _ named
      exact mem_map_of_mem held
    · cases named
  have enough : unvisited (self.steps.map StepDefinition.id) marks < self.steps.length + 1 := by
    have bound := countP_le_length (l := self.steps.map StepDefinition.id)
      (p := fun id => decide (id ∉ marks.visited))
    rw [length_map] at bound
    exact Nat.lt_succ_of_le bound
  obtain ⟨answer, found⟩ := Option.isSome_iff_exists.mp
    (search_isSome closed _ _ (mem_map_of_mem mem) marks enough)
  rw [hasCycle, found]
  rfl

/-- The search accepts grounded steps only, and rejects only a definition with a cycle. -/
theorem findCycle_spec (complete : self.findMissing = none) :
    ∀ {steps : List (StepDefinition D)} {marks : Marks StepId}, steps ⊆ self.steps →
      Settled self.dependencies marks → marks.path = [] →
      (self.findCycle steps marks = none → ∀ step ∈ steps, Grounded self.dependencies step.id) ∧
      (self.findCycle steps marks ≠ none → ∃ id, TransGen (fun upper lower => lower ∈ self.dependencies upper) id id)
  | [], _, _, _, _ => ⟨fun _ => forall_mem_nil _, fun found => absurd rfl found⟩
  | step :: rest, marks, inside, settled, clear => by
    rw [cons_subset] at inside
    unfold findCycle
    split
    · next visited =>
      obtain ⟨grounded, cyclic⟩ := findCycle_spec complete inside.2 settled clear
      refine ⟨fun none_found => forall_mem_cons.mpr ⟨?_, grounded none_found⟩, cyclic⟩
      exact settled _ visited (by rw [clear]; exact not_mem_nil)
    · have decided := hasCycle_decided complete inside.1 marks
      split
      · next after found =>
        rw [found] at decided
        exact ⟨nofun, fun _ => search_found _ _ _ _ (by simp [clear]) decided⟩
      · next after found =>
        rw [found] at decided
        obtain ⟨passed, here⟩ := search_passed _ _ _ _ decided
        obtain ⟨grounded, cyclic⟩ := findCycle_spec complete inside.2 (passed.settled settled)
          (passed.path.trans clear)
        exact ⟨fun none_found => forall_mem_cons.mpr ⟨here settled, grounded none_found⟩, cyclic⟩

theorem mem_addDependent {map : KeyedMap StepId (List Nat)} :
    other ∈ ((addDependent index map dependency).get? id).getD [] ↔
      other ∈ (map.get? id).getD [] ∨ other = index ∧ id = dependency := by
  unfold addDependent
  rw [get?_insert]
  by_cases same : id = dependency
  · subst same
    simp
  · simp [same]

theorem mem_foldl_addDependent : ∀ (dependencies : List StepId) {map : KeyedMap StepId (List Nat)},
      other ∈ ((dependencies.foldl (addDependent index) map).get? id).getD [] ↔
        other ∈ (map.get? id).getD [] ∨ other = index ∧ id ∈ dependencies
  | [], _ => by simp
  | dependency :: rest, map => by
    rw [foldl_cons, mem_foldl_addDependent rest, mem_addDependent, mem_cons]
    tauto

theorem mem_foldl_dependents : ∀ (entries : List (StepDefinition D × Nat)) {map : KeyedMap StepId (List Nat)},
      other ∈ ((entries.foldl (fun map entry =>
          entry.1.allDependencies.foldl (addDependent entry.2) map) map).get? id).getD [] ↔
        other ∈ (map.get? id).getD [] ∨ ∃ entry ∈ entries, other = entry.2 ∧ id ∈ entry.1.allDependencies
  | [], _ => by simp
  | entry :: rest, map => by
    rw [foldl_cons, mem_foldl_dependents rest, mem_foldl_addDependent]
    simp only [mem_cons, exists_eq_or_imp, or_assoc]

theorem mem_buildReverseDeps : index ∈ ((buildReverseDeps steps).get? id).getD [] ↔
      ∃ step, steps[index]? = some step ∧ id ∈ step.allDependencies := by
  unfold buildReverseDeps
  rw [mem_foldl_dependents]
  simp only [get?_empty, Option.getD_none, not_mem_nil, false_or]
  constructor
  · rintro ⟨entry, mem, rfl, named⟩
    exact ⟨entry.1, mem_zipIdx_iff_getElem?.mp mem, named⟩
  · rintro ⟨step, held, named⟩
    exact ⟨(step, index), mem_zipIdx_iff_getElem?.mpr held, rfl, named⟩

/-- What validation establishes. -/
structure Accepted (defn : WorkflowDefinition D) : Prop where
  named : ∀ step ∈ defn.steps, ∀ dependency ∈ step.allDependencies,
    ∃ other ∈ defn.steps, other.id = dependency
  grounded : ∀ step ∈ defn.steps, Grounded defn.dependencies step.id
  dependents : ∀ id index, index ∈ defn.getDependentIndices id ↔
    ∃ step, defn.steps[index]? = some step ∧ id ∈ step.allDependencies
  initial : ∀ index, index ∈ defn.initialStepIndices ↔
    ∃ step, defn.steps[index]? = some step ∧ step.allDependencies = []

theorem accepted_of_validate (accepted : self.validate = .ok validated) : Accepted validated := by
  unfold validate at accepted
  split at accepted
  · cases accepted
  · next complete =>
    split at accepted
    · cases accepted
    · next acyclic =>
      cases accepted
      refine ⟨findMissing_eq_none.mp complete, (findCycle_spec complete (Subset.refl _) .start rfl).1 acyclic,
        fun id index => mem_buildReverseDeps, fun index => ?_⟩
      simp only [buildInitialStepIndices, StepDefinition.allDependencies, mem_map, mem_filter,
        Bool.and_eq_true, List.isEmpty_iff, Prod.exists, mem_zipIdx_iff_getElem?, append_eq_nil_iff,
        exists_eq_right]

theorem validated_eq (valid : self.validate = .ok validated) : ∃ reverseDeps initialStepIndices,
    validated = { self with reverseDeps := reverseDeps, initialStepIndices := initialStepIndices } := by
  unfold validate at valid
  split at valid
  · cases valid
  · split at valid
    · cases valid
    · cases valid
      exact ⟨_, _, rfl⟩

/-- A step names an id among its dependencies. -/
def Names (id dependency : StepId) : Prop :=
  ∃ step ∈ defn.steps, step.id = id ∧ dependency ∈ step.allDependencies

/-- A step is listed among the dependents of another. -/
def Leads (index dependent : Nat) : Prop :=
  ∃ step, defn.steps[index]? = some step ∧ dependent ∈ defn.getDependentIndices step.id

theorem Accepted.induct (accepted : Accepted self) (nodup : self.Distinct) {motive : Nat → Prop}
    (along : ∀ index step, self.steps[index]? = some step → (∀ dependency ∈ step.allDependencies,
      ∃ place other, self.steps[place]? = some other ∧ other.id = dependency ∧ motive place) → motive index)
    (defined : self.steps[index]? = some step) : motive index := by
  have grounded := accepted.grounded step (mem_of_getElem? defined)
  generalize held : step.id = id at grounded
  induction grounded generalizing step index with
  | intro id _ ih =>
    subst held
    have mem := mem_of_getElem? defined
    refine along index step defined fun dependency named => ?_
    obtain ⟨other, inside, rfl⟩ := accepted.named step mem dependency named
    obtain ⟨place, there⟩ := getElem?_of_mem inside
    have follows : other.id ∈ self.dependencies step.id := by rwa [dependencies_of_mem nodup mem]
    exact ⟨place, other, there, rfl, ih other.id follows there rfl⟩

theorem Accepted.reachable (accepted : Accepted self) (nodup : self.Distinct)
    (defined : self.steps[index]? = some step) :
    ∃ first ∈ self.initialStepIndices, ReflTransGen self.Leads first index := by
  refine accepted.induct nodup (motive := fun index => ∃ first ∈ self.initialStepIndices,
    ReflTransGen self.Leads first index) (fun index step defined below => ?_) defined
  cases empty : step.allDependencies with
  | nil => exact ⟨index, (accepted.initial index).mpr ⟨step, defined, empty⟩, .refl⟩
  | cons dependency rest =>
    have named : dependency ∈ step.allDependencies := by rw [empty]; exact mem_cons_self
    obtain ⟨place, other, there, rfl, first, initial, reached⟩ := below dependency named
    exact ⟨first, initial, reached.tail ⟨other, there, (accepted.dependents _ _).mpr ⟨step, defined, named⟩⟩⟩

theorem validate_decides (nodup : self.Distinct) : ((∃ validated, self.validate = .ok validated) ↔
      (∀ id dependency, self.Names id dependency → ∃ other ∈ self.steps, other.id = dependency) ∧
        ∀ id, ¬ TransGen self.Names id id) ∧
      ∀ validated, self.validate = .ok validated → validated.steps = self.steps ∧
        (∀ id index, index ∈ validated.getDependentIndices id ↔
          ∃ step, validated.steps[index]? = some step ∧ id ∈ step.allDependencies) ∧
        ∀ index < validated.steps.length, ∃ first ∈ validated.initialStepIndices,
          ReflTransGen validated.Leads first index := by
  have same : self.Names = fun id dependency => dependency ∈ self.dependencies id := by
    ext id dependency
    constructor
    · rintro ⟨step, mem, rfl, named⟩
      rwa [dependencies_of_mem nodup mem]
    · intro named
      unfold dependencies at named
      split at named
      · next step found =>
        exact ⟨step, mem_reverse.mp (mem_of_find?_eq_some found), by simpa using find?_some found, named⟩
      · cases named
  refine ⟨⟨?_, ?_⟩, fun validated valid => ?_⟩
  · rintro ⟨validated, valid⟩
    have accepted := accepted_of_validate valid
    obtain ⟨_, _, rfl⟩ := validated_eq valid
    refine ⟨fun _ dependency ⟨step, mem, _, within⟩ => accepted.named step mem dependency within,
      fun id cycle => ?_⟩
    obtain ⟨_, ⟨step, mem, rfl, _⟩, _⟩ := TransGen.head'_iff.mp cycle
    rw [same] at cycle
    exact (accepted.grounded step mem).no_cycle cycle
  · rintro ⟨named, acyclic⟩
    have complete : self.findMissing = none :=
      findMissing_eq_none.mpr fun step mem dependency within => named _ _ ⟨step, mem, rfl, within⟩
    rw [same] at acyclic
    cases found : self.findCycle self.steps {} with
    | none => exact ⟨_, by rw [validate, complete, found]⟩
    | some error =>
      obtain ⟨id, cycle⟩ := (findCycle_spec complete (Subset.refl _) .start rfl).2 (by simp [found])
      exact absurd cycle (acyclic id)
  · have accepted := accepted_of_validate valid
    obtain ⟨_, _, rfl⟩ := validated_eq valid
    exact ⟨rfl, accepted.dependents, fun index inside => accepted.reachable nodup (getElem?_eq_getElem inside)⟩

/-- A step that waits for another. -/
def loadThenReport : WorkflowDefinition Unit :=
  { steps := [{ id := "load" }, { id := "report", dependsOn := ["load"] }] }

theorem chain_has_no_cycle : loadThenReport.Distinct ∧ ∀ id, ¬ TransGen loadThenReport.Names id id :=
  have nodup : loadThenReport.Distinct := by decide
  ⟨nodup, ((validate_decides nodup).1.mp ⟨_, rfl⟩).2⟩

end WorkflowDefinition
end ModelGateway.Workflow
