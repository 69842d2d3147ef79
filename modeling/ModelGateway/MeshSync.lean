import ModelGateway.CrdtMap

/-! The versioned states of workers, policies and members: the calls of `sync.rs` that write and
apply them, and the receipt of incremental updates and of snapshot transfers (`ping_server.rs`).
A store holds states, not their bytes; bytes that do not decode are an entry without a value.
Subscribers, acknowledgements and metrics are left out, and so is the actor, which is only logged. -/
namespace ModelGateway.MeshSync
open CrdtMap Function

structure WorkerState where
  workerId : String
  modelId : String
  url : String
  health : Bool
  /-- The bits of the `f64`. -/
  load : UInt64
  version : Nat
  spec : List UInt8
  deriving DecidableEq, Inhabited, Repr

structure PolicyState where
  modelId : String
  policyType : String
  config : List UInt8
  version : Nat
  deriving DecidableEq, Inhabited, Repr

structure MembershipState where
  name : String
  address : String
  status : Int
  version : Nat
  metadata : List (String × List UInt8)
  deriving DecidableEq, Inhabited, Repr

def policyKey (modelId : String) : String := "policy:" ++ modelId

/-- A state with a version (`Versioned`) and the key it is applied under. -/
class MeshState (σ : Type) where
  key : σ → String
  version : σ → Nat

instance : MeshState WorkerState := ⟨WorkerState.workerId, WorkerState.version⟩

instance : MeshState PolicyState := ⟨fun state => policyKey state.modelId, PolicyState.version⟩

instance : MeshState MembershipState := ⟨MembershipState.name, MembershipState.version⟩

export MeshState (version)

/-- A `WorkerStore`, `PolicyStore` or `MembershipStore`. -/
abbrev StateStore (σ ρ : Type) := CrdtOrMap String σ ρ

section Stores
variable {σ ρ : Type} [MeshState σ] [LinearOrder ρ]

/-- `map(|state| state.version).unwrap_or(0)`. -/
def heldVersion (current : Option σ) : Nat := current.elim 0 version

/-- `saturating_add(1)`. -/
def nextVersion (current : Option σ) : Nat := min (heldVersion current + 1) u64Max

variable [Inhabited σ]

/-- `update` by a state with the next version. -/
def syncState (key : String) (make : Nat → σ) (store : StateStore σ ρ) : StateStore σ ρ :=
  (store.tryUpsert (ε := Empty) 0 key fun current => .ok (make (nextVersion current))).2

/-- `update_if` by a state with a version above the one held. -/
def applyRemoteState (state : σ) (store : StateStore σ ρ) : StateStore σ ρ :=
  (store.tryUpsertIf (ε := Empty) 0 (MeshState.key state) fun current =>
    .ok (if heldVersion current < version state then some state else none)).2

theorem applyRemoteState_eq (state : σ) (store : StateStore σ ρ) : applyRemoteState state store =
      if heldVersion (store.get (MeshState.key state)) < version state then
        (store.commitInsert 0 (MeshState.key state) state).2
      else store := by
  rw [applyRemoteState, CrdtOrMap.tryUpsertIf]
  split_ifs <;> rfl

end Stores

section Calls
variable {ρ : Type} [LinearOrder ρ]

def syncWorkerState (workerId modelId url : String) (health : Bool) (load : UInt64) (spec : List UInt8) :
    StateStore WorkerState ρ → StateStore WorkerState ρ :=
  syncState workerId fun newVersion => ⟨workerId, modelId, url, health, load, newVersion, spec⟩

def syncPolicyState (modelId policyType : String) (config : List UInt8) :
    StateStore PolicyState ρ → StateStore PolicyState ρ :=
  syncState (policyKey modelId) fun newVersion => ⟨modelId, policyType, config, newVersion⟩

def applyRemoteWorkerState (state : WorkerState) : StateStore WorkerState ρ → StateStore WorkerState ρ :=
  applyRemoteState state

def applyRemotePolicyState (state : PolicyState) : StateStore PolicyState ρ → StateStore PolicyState ρ :=
  applyRemoteState state

end Calls

/-! ### Writing and applying at several nodes -/

/-- One kind of state at every node. The states written anywhere and those each node has written
or been delivered are recorded on the side. -/
structure Replicas (ι σ ρ : Type) where
  stores : ι → StateStore σ ρ
  written : List σ
  known : ι → List σ

namespace Replicas
variable {ι σ ρ : Type}

def new (replicaId : ι → ρ) : Replicas ι σ ρ :=
  ⟨fun node => .withReplicaId (replicaId node), [], fun _ => []⟩

variable [DecidableEq ι]

/-- A node's store after it was delivered a state. -/
def deliver (node : ι) (next : StateStore σ ρ) (state : σ) (replicas : Replicas ι σ ρ) :
    Replicas ι σ ρ where
  stores := update replicas.stores node next
  written := replicas.written
  known := update replicas.known node (replicas.known node ++ [state])

/-- A node's store after it wrote a state. -/
def write (node : ι) (next : StateStore σ ρ) (state : σ) (replicas : Replicas ι σ ρ) :
    Replicas ι σ ρ :=
  { replicas.deliver node next state with written := replicas.written ++ [state] }

end Replicas

structure Mesh (ι ρ : Type) where
  workers : Replicas ι WorkerState ρ
  policies : Replicas ι PolicyState ρ

inductive Step (ι : Type)
  | syncWorkerState (node : ι) (workerId modelId url : String) (health : Bool) (load : UInt64)
      (spec : List UInt8)
  | syncPolicyState (node : ι) (modelId policyType : String) (config : List UInt8)
  | applyRemoteWorkerState (node : ι) (state : WorkerState)
  | applyRemotePolicyState (node : ι) (state : PolicyState)

namespace Step
variable {ι ρ : Type}

/-- Only states that were written can be delivered. -/
def Enabled (mesh : Mesh ι ρ) : Step ι → Prop
  | .applyRemoteWorkerState _ state => state ∈ mesh.workers.written
  | .applyRemotePolicyState _ state => state ∈ mesh.policies.written
  | _ => True

variable [DecidableEq ι] [LinearOrder ρ]

def run (mesh : Mesh ι ρ) : Step ι → Mesh ι ρ
  | .syncWorkerState node workerId modelId url health load spec =>
    let store := mesh.workers.stores node
    { mesh with
      workers := mesh.workers.write node (MeshSync.syncWorkerState workerId modelId url health load spec store)
        ⟨workerId, modelId, url, health, load, nextVersion (store.get workerId), spec⟩ }
  | .syncPolicyState node modelId policyType config =>
    let store := mesh.policies.stores node
    { mesh with
      policies := mesh.policies.write node (MeshSync.syncPolicyState modelId policyType config store)
        ⟨modelId, policyType, config, nextVersion (store.get (policyKey modelId))⟩ }
  | .applyRemoteWorkerState node state => { mesh with
      workers := mesh.workers.deliver node (MeshSync.applyRemoteWorkerState state (mesh.workers.stores node)) state }
  | .applyRemotePolicyState node state => { mesh with
      policies := mesh.policies.deliver node
        (MeshSync.applyRemotePolicyState state (mesh.policies.stores node)) state }

end Step

/-- The meshes reached from empty stores by steps that are allowed where they are taken. -/
inductive Reachable {ι ρ : Type} [DecidableEq ι] [LinearOrder ρ] (allowed : Mesh ι ρ → Step ι → Prop) :
    Mesh ι ρ → Prop
  | new (workers policies : ι → ρ) : Reachable allowed ⟨.new workers, .new policies⟩
  | step {mesh : Mesh ι ρ} (step : Step ι) : Reachable allowed mesh → step.Enabled mesh →
      allowed mesh step → Reachable allowed (step.run mesh)

end ModelGateway.MeshSync
