import ModelGateway.CrdtView

/-! Handles of one replicated map. `Clone` shares the store, the metadata, the
replica identifier and the operation log, but copies the Lamport clock, so handles
stamp their writes independently. Two results: when no write repeats a timestamp
of the shared log, the log identifies its operations and rebuilds the map on a
fresh replica; and collecting tombstones never changes what later merges show. -/
namespace ModelGateway.CrdtHandles
open CrdtOperation CrdtMap CrdtLogProofs CrdtMapProofs CrdtView LastWriter List CrdtOrMap Operation

/-- One shared map and the clock of every handle on it. -/
structure Handles (κ ν ρ : Type) where
  shared : SharedMap κ ν ρ
  clocks : List Nat

/-- What a handle can be asked to do. -/
inductive Event (κ ν ρ ε : Type) where
  | call (now : Nat) (call : Call κ ν ε)
  | clone
  | merge (times : κ → Nat) (log : OperationLog κ ν ρ)
  | gc (now grace : Nat)

namespace Handles
variable {κ ν ρ ε : Type}

/-- A new map has one handle. -/
def start (replicaId : ρ) : Handles κ ν ρ where
  shared := (withReplicaId replicaId).toSharedMap
  clocks := [(withReplicaId (κ := κ) (ν := ν) replicaId).clock]

/-- The map as a handle with this clock sees it. -/
def view (handles : Handles κ ν ρ) (clock : Nat) : CrdtOrMap κ ν ρ :=
  { handles.shared with clock }

/-- The map a handle left behind becomes the shared one, and its clock the
handle's clock. -/
def put (handles : Handles κ ν ρ) (handle : Nat) (map : CrdtOrMap κ ν ρ) : Handles κ ν ρ where
  shared := map.toSharedMap
  clocks := handles.clocks.set handle map.clock

variable [DecidableEq κ] [LinearOrder ρ] [Inhabited ν]

/-- An event through a handle; there is none through a handle that does not exist. -/
def step (handles : Handles κ ν ρ) (handle : Nat) (event : Event κ ν ρ ε) : Handles κ ν ρ :=
  match handles.clocks[handle]? with
  | none => handles
  | some clock =>
    match event with
    | .call now call => handles.put handle (call.run now (handles.view clock))
    | .clone => { handles with clocks := handles.clocks ++ [clock] }
    | .merge times log => handles.put handle ((handles.view clock).merge times log)
    | .gc now grace => handles.put handle ((handles.view clock).gcTombstonesWithGrace now grace).2

end Handles

section Runs
variable {κ ν ρ ε : Type} [DecidableEq κ] [LinearOrder ρ] [Inhabited ν]

/-- The handles reached by runs in which every event is allowed where it happens:
`allowed` sees the map through the handle, its clock included. -/
inductive Reachable (allowed : CrdtOrMap κ ν ρ → Event κ ν ρ ε → Prop) (replicaId : ρ) :
    Handles κ ν ρ → Prop where
  | start : Reachable allowed replicaId (Handles.start replicaId)
  | step {handles : Handles κ ν ρ} {clock : Nat} (reached : Reachable allowed replicaId handles)
      (handle : Nat) (held : handles.clocks[handle]? = some clock) (event : Event κ ν ρ ε)
      (permitted : allowed (handles.view clock) event) :
      Reachable allowed replicaId (handles.step handle event)

theorem reachable_invariant {allowed : CrdtOrMap κ ν ρ → Event κ ν ρ ε → Prop} {replicaId : ρ}
    {invariant : CrdtOrMap κ ν ρ → Prop}
    (shared : ∀ (map : CrdtOrMap κ ν ρ) clock, invariant map → invariant { map with clock })
    (fresh : invariant (withReplicaId replicaId))
    (call : ∀ map now made, allowed map (.call now made) → invariant map → invariant (made.run now map))
    (merge : ∀ map times log, allowed map (.merge times log) → invariant map → invariant (map.merge times log))
    (gc : ∀ map now grace, allowed map (.gc now grace) → invariant map →
      invariant (map.gcTombstonesWithGrace now grace).2)
    {handles : Handles κ ν ρ} (reached : Reachable allowed replicaId handles) (clock : Nat) :
    invariant (handles.view clock) := by
  induction reached generalizing clock with
  | start => exact shared _ clock fresh
  | @step handles current reached handle held event permitted ih =>
    simp only [Handles.step, held]
    cases event with
    | call now made => exact shared _ clock (call _ now made permitted (ih current))
    | clone => exact ih clock
    | merge times log => exact shared _ clock (merge _ times log permitted (ih current))
    | gc now grace => exact shared _ clock (gc _ now grace permitted (ih current))

end Runs

variable {κ ν ρ ε : Type} [DecidableEq κ] [LinearOrder ρ]
variable {map : CrdtOrMap κ ν ρ} {op : Operation κ ν ρ} {replicaId : ρ}

/-- The log still has room for an operation on `key`: together they touch at most
as many keys as the log keeps. -/
def Roomy (log : OperationLog κ ν ρ) (key : κ) : Prop :=
  (key :: log.operations.map Operation.key).toFinset.card ≤ OperationLog.autoCompactThreshold

instance (log : OperationLog κ ν ρ) (key : κ) : Decidable (Roomy log key) :=
  inferInstanceAs (Decidable (_ ≤ _))

theorem Roomy.whole (roomy : Roomy map.operationLog op.key) : ¬ Truncates map.operationLog op :=
  not_truncates_of_keys roomy (fun _ mem => mem_toFinset.mpr (mem_cons_of_mem _ (mem_map_of_mem mem)))
    (mem_toFinset.mpr mem_cons_self)

/-! ### Clones that do not repeat a timestamp -/

/-- Calls and clones only, where every write that the metadata accepts carries an
identifier that is not in the shared log, and finds room in it. -/
def Unrepeated (map : CrdtOrMap κ ν ρ) : Event κ ν ρ ε → Prop
  | .call _ made => ∀ operation, attempt map made = some operation →
      accepts operation (slot map operation.key) = true →
        operation.operationId ∉ map.operationLog.operations.map operationId ∧ Roomy map.operationLog operation.key
  | .clone => True
  | .merge _ _ | .gc _ _ => False

/-- The log alone determines the map. -/
structure Rebuildable (map : CrdtOrMap κ ν ρ) : Prop where
  distinct : (map.operationLog.operations.map operationId).Nodup
  agrees : Agrees map
  unwritten : ∀ key, (slot map key).2 = none → ∀ operation ∈ map.operationLog.operations, operation.key ≠ key

/-- A write with a new identifier keeps the log sufficient. -/
theorem Rebuildable.write {next : CrdtOrMap κ ν ρ} (rebuildable : Rebuildable map)
    (write : LocalWrite now op map next) (fresh : accepts op (slot map op.key) = true →
      op.operationId ∉ map.operationLog.operations.map operationId ∧
        Roomy map.operationLog op.key) : Rebuildable next := by
  have log := write.log
  cases accepted : accepts op (slot map op.key) with
  | false =>
    have refuse : ∀ probe, slot next probe = slot map probe := by
      intro probe
      rw [write.slots]
      split
      · rename_i same
        exact (rebuildable.agrees probe).refused (same ▸ accepted)
      · rfl
    rw [accepted] at log
    refine ⟨log ▸ rebuildable.distinct, fun key => ?_, fun key => ?_⟩
    · rw [refuse, log]
      exact rebuildable.agrees key
    · rw [refuse, log]
      exact rebuildable.unwritten key
  | true =>
    obtain ⟨new, roomy⟩ := fresh accepted
    rw [accepted, if_pos rfl] at log
    have pushed : ((map.operationLog.operations ++ [op]).map operationId).Nodup := by
      rw [map_append, nodup_append]
      refine ⟨rebuildable.distinct, nodup_singleton _, ?_⟩
      rintro id mem last lastMember rfl
      exact new (mem_singleton.mp lastMember ▸ mem)
    have above := (rebuildable.agrees op.key).accepted_above
      (rebuildable.unwritten op.key) accepted fun other mem same =>
        new (version_eq_iff.mp same ▸ mem_map_of_mem mem)
    refine ⟨log ▸ append_ids_nodup roomy.whole pushed, localWrite_agrees write rebuildable.agrees
      fun _ => ⟨roomy.whole, identify_of_ids_nodup pushed, above⟩, fun key vacant held mem => ?_⟩
    rw [write.slots] at vacant
    split at vacant
    · rename_i same
      subst same
      exact absurd vacant (applySlot_recorded accepted)
    · rename_i different
      rw [log] at mem
      rcases mem_snoc.mp ((append_retains roomy.whole).1 held mem) with old | rfl
      · exact rebuildable.unwritten key vacant held old
      · exact Ne.symm different

theorem Rebuildable.rebuild (rebuildable : Rebuildable map) (replicaId : ρ) (times : κ → Nat) :
    ((withReplicaId replicaId).merge times map.operationLog).all = map.all := by
  have identify := identify_of_ids_nodup rebuildable.distinct
  have copied : Agrees ((withReplicaId replicaId).merge times map.operationLog) :=
    merge_agrees times (agrees_withReplicaId replicaId) (forall_mem_nil _)
  have merged : Retains (OperationLog.merge {} map.operationLog).operations
      map.operationLog.operations := merge_retains identify
  have retains : Retains ((withReplicaId replicaId).merge times
      map.operationLog).operationLog.operations map.operationLog.operations := by
    rw [merge_log]
    exact (compact_retains _).trans merged
  refine (copied.lwwView ?_).ext (rebuildable.agrees.lwwView identify) fun _ _ =>
    retains.greatest_iff identify
  exact fun first left second right => identify first (retains.1 first left) second (retains.1 second right)

/-- In every run of calls and clones whose accepted writes carry new identifiers
and find room, identifiers stay distinct and a fresh replica that merges the shared
log shows the same map. -/
theorem clones_rebuild_map [Inhabited ν] {handles : Handles κ ν ρ}
    (reached : Reachable (Unrepeated (ε := ε)) replicaId handles) :
    (handles.shared.operationLog.operations.map operationId).Nodup ∧ ∀ (other : ρ) (times : κ → Nat) (clock : Nat),
        ((withReplicaId other).merge times handles.shared.operationLog).all = (handles.view clock).all := by
  have rebuildable : ∀ clock, Rebuildable (handles.view clock) :=
    reachable_invariant (fun map clock held => { held with })
      ⟨nodup_nil, agrees_withReplicaId replicaId, fun _ _ => forall_mem_nil _⟩
      (fun map now made allowed held => by
        rcases call_write now made map with same | ⟨operation, attempted, write⟩
        · rwa [same]
        · exact held.write write (allowed operation attempted))
      (fun _ _ _ refused => absurd refused id) (fun _ _ _ refused => absurd refused id) reached
  exact ⟨(rebuildable 0).distinct, fun other times clock => (rebuildable clock).rebuild other times⟩

/-- A map written through its first handle and then through a clone taken before. -/
def cloned : Handles String Nat Nat :=
  (((Handles.start 0).step (ε := Empty) 0 .clone).step (ε := Empty) 0
    (.call 0 (.insert "first" 1))).step (ε := Empty) 1 (.call 0 (.insert "second" 2))

/-- Both writes get the same identifier, and a fresh replica loses the second. -/
theorem cloned_repeats_identifier : ¬ (cloned.shared.operationLog.operations.map operationId).Nodup ∧
      ((withReplicaId 1).merge (fun _ => 0) cloned.shared.operationLog).all "second" ≠
        (cloned.view 1).all "second" := by
  decide

/-- A clone taken after the first write continues its timestamps. -/
theorem recloned_rebuilds_map :
    let handles : Handles String Nat Nat := (((Handles.start 0).step (ε := Empty) 0
      (.call 0 (.insert "first" 1))).step (ε := Empty) 0 .clone).step (ε := Empty) 1 (.call 0 (.insert "second" 2))
    (handles.shared.operationLog.operations.map operationId).Nodup ∧
      ((withReplicaId 1).merge (fun _ => 0) handles.shared.operationLog).all = (handles.view 2).all := by
  intro handles
  have reached : Reachable (Unrepeated (ε := Empty)) 0 handles := by
    refine .step (.step (.step .start 0 rfl _ ?_) 0 rfl _ ?_) 1 rfl _ ?_
    · rintro operation ⟨⟩ accepted
      decide
    · trivial
    · rintro operation ⟨⟩ accepted
      decide
  have rebuilt := clones_rebuild_map reached
  exact ⟨rebuilt.1, rebuilt.2 1 (fun _ => 0) 2⟩

end ModelGateway.CrdtHandles
