import ModelGateway.CrdtWrites
import ModelGateway.MeshSync

/-! What the nodes hold of the worker and policy states over every interleaving of writes and
deliveries. -/
namespace ModelGateway.MeshSync
open CrdtMap CrdtWrites LastWriter List Function

section Stores
variable {σ ρ : Type} [MeshState σ]

/-- The state of a key that no other state of it outranks. -/
abbrev Newest (states : List σ) (key : String) (state : σ) : Prop :=
  Greatest MeshState.key version states key state

/-- A store holds the newest of the states its node knows. -/
structure Holds (store : StateStore σ ρ) (known : List σ) : Prop where
  timely : Timely store
  newest : ∀ key state, store.get key = some state → Newest known key state
  vacant : ∀ key, store.get key = none → ∀ state ∈ known, MeshState.key state ≠ key
  positive : ∀ state ∈ known, 0 < version state

theorem holds_withReplicaId (replicaId : ρ) : Holds (.withReplicaId replicaId) ([] : List σ) where
  timely := timely_withReplicaId replicaId
  newest _ _ found := by cases found
  vacant _ _ := forall_mem_nil _
  positive := forall_mem_nil _

variable {store : StateStore σ ρ} {known : List σ} {state : σ}

variable (holds : Holds store known)
include holds

theorem Holds.le_held {other : σ} (mem : other ∈ known) :
    version other ≤ heldVersion (store.get (MeshState.key other)) := by
  cases found : store.get (MeshState.key other) with
  | none => exact absurd rfl (holds.vacant _ found other mem)
  | some held => exact (holds.newest _ held found).2.2 other mem rfl

private theorem Holds.keep (below : version state ≤ heldVersion (store.get (MeshState.key state)))
    (positive : 0 < version state) : Holds store (known ++ [state]) := by
  refine ⟨holds.timely, fun key held found => ?_, fun key none => ?_, forall_mem_snoc.mpr ⟨holds.positive, positive⟩⟩
  · refine (holds.newest key held found).keep fun same => ?_
    rw [same, found] at below
    exact below
  · refine forall_mem_snoc.mpr ⟨holds.vacant key none, ?_⟩
    rintro rfl
    rw [none] at below
    exact absurd positive (Nat.not_lt.mpr below)

private theorem Holds.replace {next : StateStore σ ρ} (timely : Timely next)
    (gets : ∀ probe, next.get probe = if probe = MeshState.key state then some state else store.get probe)
    (above : heldVersion (store.get (MeshState.key state)) < version state) :
    Holds next (known ++ [state]) := by
  refine ⟨timely, fun key held found => ?_, fun key none => ?_,
    forall_mem_snoc.mpr ⟨holds.positive, (Nat.zero_le _).trans_lt above⟩⟩
  · rw [gets] at found
    split at found
    · rename_i same
      obtain rfl := Option.some.inj found
      rw [same]
      exact greatest_last fun other mem named => (named ▸ holds.le_held mem).trans above.le
    · rename_i differs
      exact (holds.newest key held found).keep fun same => absurd same.symm differs
  · rw [gets] at none
    split at none
    · cases none
    · rename_i differs
      exact forall_mem_snoc.mpr ⟨holds.vacant key none, Ne.symm differs⟩

variable [Inhabited σ] [LinearOrder ρ]

theorem Holds.sync {key : String} {make : Nat → σ} (keyed : ∀ newVersion, MeshState.key (make newVersion) = key)
    (versioned : ∀ newVersion, version (make newVersion) = newVersion) (unsaturated : store.clock < u64Max)
    (room : heldVersion (store.get key) < u64Max) :
    Holds (syncState key make store) (known ++ [make (nextVersion (store.get key))]) := by
  refine holds.replace (holds.timely.commitInsert _ _ _) (fun probe => ?_) ?_
  · rw [keyed]
    exact holds.timely.get_commitInsert _ _ _ unsaturated probe
  · rw [keyed, versioned, nextVersion]
    omega

theorem Holds.applyRemote (positive : 0 < version state) (unsaturated : store.clock < u64Max) :
    Holds (applyRemoteState state store) (known ++ [state]) := by
  rw [applyRemoteState_eq]
  split
  · next newer =>
    exact holds.replace (holds.timely.commitInsert _ _ _) (holds.timely.get_commitInsert _ _ _ unsaturated) newer
  · next older => exact holds.keep (Nat.not_lt.mp older) positive

end Stores

/-! ### Nodes -/

section Replicas
variable {ι σ ρ : Type} [MeshState σ]

/-- Every node holds the newest of what it knows, and a version of a key names one state. -/
structure Coherent (replicas : Replicas ι σ ρ) : Prop where
  holds : ∀ node, Holds (replicas.stores node) (replicas.known node)
  published : ∀ node, ∀ state ∈ replicas.known node, state ∈ replicas.written
  positive : ∀ state ∈ replicas.written, 0 < version state
  identify : ∀ first ∈ replicas.written, ∀ second ∈ replicas.written,
    MeshState.key first = MeshState.key second → version first = version second → first = second

theorem coherent_new (replicaId : ι → ρ) : Coherent (.new replicaId : Replicas ι σ ρ) where
  holds node := holds_withReplicaId (replicaId node)
  published _ := forall_mem_nil _
  positive := forall_mem_nil _
  identify := forall_mem_nil _

variable {replicas : Replicas ι σ ρ} {node : ι} {next : StateStore σ ρ} {state : σ}

variable (coherent : Coherent replicas)
include coherent

/-- Nodes that know all that was written hold the same states. -/
theorem Coherent.agree (delivered : ∀ node, ∀ state ∈ replicas.written, state ∈ replicas.known node)
    (node other : ι) (key : String) : (replicas.stores node).get key = (replicas.stores other).get key := by
  have same : ∀ state, state ∈ replicas.known node ↔ state ∈ replicas.known other := fun state =>
    ⟨fun mem => delivered other state (coherent.published node state mem),
      fun mem => delivered node state (coherent.published other state mem)⟩
  have held := (coherent.holds node).newest key
  have held' := (coherent.holds other).newest key
  cases first : (replicas.stores node).get key with
  | none =>
    cases second : (replicas.stores other).get key with
    | none => rfl
    | some state =>
      obtain ⟨mem, named, -⟩ := held' state second
      exact absurd named ((coherent.holds node).vacant key first state ((same state).mpr mem))
  | some state =>
    obtain ⟨mem, named, top⟩ := held state first
    cases second : (replicas.stores other).get key with
    | none => exact absurd named ((coherent.holds other).vacant key second state ((same state).mp mem))
    | some state' =>
      obtain ⟨member', named', top'⟩ := held' state' second
      refine congrArg some (coherent.identify state (coherent.published node state mem) state'
        (coherent.published other state' member') (named.trans named'.symm) (le_antisymm ?_ ?_))
      · exact top' state ((same state).mp mem) named
      · exact top state' ((same state').mpr member') named'

variable [DecidableEq ι]

variable (holds : Holds next (replicas.known node ++ [state]))
include holds

theorem Coherent.learn (probe : ι) :
    Holds ((replicas.deliver node next state).stores probe) ((replicas.deliver node next state).known probe) ∧
      ∀ learned ∈ (replicas.deliver node next state).known probe, learned ∈ replicas.written ∨ learned = state := by
  by_cases here : probe = node
  · subst here
    simp only [Replicas.deliver, update_self]
    refine ⟨holds, fun learned mem => ?_⟩
    exact (mem_append.mp mem).imp (coherent.published probe learned) mem_singleton.mp
  · simp only [Replicas.deliver, update_of_ne here]
    exact ⟨coherent.holds probe, fun learned mem => .inl (coherent.published probe learned mem)⟩

theorem Coherent.deliver (mem : state ∈ replicas.written) : Coherent (replicas.deliver node next state) := by
  refine ⟨fun probe => (coherent.learn holds probe).1, fun probe learned inside => ?_, coherent.positive,
    coherent.identify⟩
  rcases (coherent.learn holds probe).2 learned inside with pre | rfl
  · exact pre
  · exact mem

theorem Coherent.write (alone : ∀ rival ∈ replicas.written, MeshState.key rival = MeshState.key state →
      version rival = version state → rival = state) : Coherent (replicas.write node next state) := by
  refine ⟨fun probe => (coherent.learn holds probe).1, fun probe learned inside => ?_,
    forall_mem_snoc.mpr ⟨coherent.positive, holds.positive state (mem_append_right _ mem_cons_self)⟩,
    fun first left second right named level => ?_⟩
  · rcases (coherent.learn holds probe).2 learned inside with pre | rfl
    · exact mem_append_left _ pre
    · exact mem_append_right _ mem_cons_self
  · rcases mem_append.mp left with old | new <;> rcases mem_append.mp right with old' | new'
    · exact coherent.identify first old second old' named level
    · obtain rfl := mem_singleton.mp new'
      exact alone first old named level
    · obtain rfl := mem_singleton.mp new
      exact (alone second old' named.symm level.symm).symm
    · rw [mem_singleton.mp new, mem_singleton.mp new']

end Replicas

/-! ### Runs -/

section Runs
variable {ι ρ : Type} [DecidableEq ι] [LinearOrder ρ]

/-- A write whose version no other state of the key has, with room for it. -/
def Alone {σ : Type} [MeshState σ] (replicas : Replicas ι σ ρ) (node : ι) (key : String) (make : Nat → σ) :
    Prop :=
  (replicas.stores node).clock < u64Max ∧ heldVersion ((replicas.stores node).get key) < u64Max ∧
    ∀ rival ∈ replicas.written, MeshState.key rival = key →
      version rival = nextVersion ((replicas.stores node).get key) → rival = make (version rival)

/-- The steps with which the nodes come to agree: a write takes a version that no different state
of its key has been written under, and no clock or version has reached its end. -/
def Unrivalled (mesh : Mesh ι ρ) : Step ι → Prop
  | .syncWorkerState node workerId modelId url health load spec =>
    Alone mesh.workers node workerId fun newVersion =>
      ⟨workerId, modelId, url, health, load, newVersion, spec⟩
  | .syncPolicyState node modelId policyType config =>
    Alone mesh.policies node (policyKey modelId) fun newVersion => ⟨modelId, policyType, config, newVersion⟩
  | .applyRemoteWorkerState node _ => (mesh.workers.stores node).clock < u64Max
  | .applyRemotePolicyState node _ => (mesh.policies.stores node).clock < u64Max

variable {σ : Type} {replicas : Replicas ι σ ρ} {node : ι}

theorem Coherent.sync [MeshState σ] [Inhabited σ] (coherent : Coherent replicas) {key : String}
    {make : Nat → σ} (keyed : ∀ newVersion, MeshState.key (make newVersion) = key)
    (versioned : ∀ newVersion, version (make newVersion) = newVersion)
    (alone : Alone replicas node key make) :
    Coherent (replicas.write node (syncState key make (replicas.stores node))
      (make (nextVersion ((replicas.stores node).get key)))) := by
  obtain ⟨unsaturated, room, rivals⟩ := alone
  refine coherent.write ((coherent.holds node).sync keyed versioned unsaturated room) ?_
  intro rival mem named level
  rw [keyed] at named
  rw [versioned] at level
  rw [rivals rival mem named level, level]

theorem Coherent.applyRemote [MeshState σ] [Inhabited σ] (coherent : Coherent replicas) {state : σ}
    (mem : state ∈ replicas.written) (unsaturated : (replicas.stores node).clock < u64Max) :
    Coherent (replicas.deliver node (applyRemoteState state (replicas.stores node)) state) :=
  coherent.deliver ((coherent.holds node).applyRemote (coherent.positive state mem) unsaturated) mem

theorem Reachable.coherent {mesh : Mesh ι ρ} (reachable : Reachable Unrivalled mesh) :
    Coherent mesh.workers ∧ Coherent mesh.policies := by
  induction reachable with
  | new workers policies => exact ⟨coherent_new workers, coherent_new policies⟩
  | step step _ enabled allowed ih =>
    cases step with
    | syncWorkerState node workerId modelId url health load spec =>
      exact ⟨ih.1.sync (fun _ => rfl) (fun _ => rfl) allowed, ih.2⟩
    | syncPolicyState node modelId policyType config =>
      exact ⟨ih.1, ih.2.sync (fun _ => rfl) (fun _ => rfl) allowed⟩
    | applyRemoteWorkerState node state => exact ⟨ih.1.applyRemote enabled allowed, ih.2⟩
    | applyRemotePolicyState node state => exact ⟨ih.1, ih.2.applyRemote enabled allowed⟩

/-- In unrivalled runs, once every node has been delivered every state written anywhere, all nodes
hold the same worker and policy states. -/
theorem delivered_states_agree {mesh : Mesh ι ρ} (reachable : Reachable Unrivalled mesh)
    (workers : ∀ node, ∀ state ∈ mesh.workers.written, state ∈ mesh.workers.known node)
    (policies : ∀ node, ∀ state ∈ mesh.policies.written, state ∈ mesh.policies.known node)
    (node other : ι) (key : String) :
    (mesh.workers.stores node).get key = (mesh.workers.stores other).get key ∧
      (mesh.policies.stores node).get key = (mesh.policies.stores other).get key := by
  obtain ⟨first, second⟩ := reachable.coherent
  exact ⟨first.agree workers node other key, second.agree policies node other key⟩

end Runs

/-- Two nodes without states. -/
def emptyMesh : Mesh Bool Nat :=
  ⟨.new fun node => if node then 1 else 2, .new fun node => if node then 1 else 2⟩

/-- One node writes a worker, the other applies it and writes the worker in turn. -/
def writtenInTurn : Mesh Bool Nat :=
  [.syncWorkerState true "w" "m" "x" true 0 [], .applyRemoteWorkerState false ⟨"w", "m", "x", true, 0, 1, []⟩,
    .syncWorkerState false "w" "m" "y" true 0 [],
    .applyRemoteWorkerState true ⟨"w", "m", "y", true, 0, 2, []⟩,
    .applyRemoteWorkerState false ⟨"w", "m", "x", true, 0, 1, []⟩].foldl Step.run emptyMesh

theorem reachable_writtenInTurn : Reachable Unrivalled writtenInTurn := by
  refine .step (.applyRemoteWorkerState _ _) (.step (.applyRemoteWorkerState _ _) (.step
    (.syncWorkerState _ _ _ _ _ _ _) (.step (.applyRemoteWorkerState _ _) (.step
    (.syncWorkerState _ _ _ _ _ _ _) (.new _ _) trivial ⟨?_, ?_, ?_⟩) (mem_cons_self ..) ?_) trivial
    ⟨?_, ?_, ?_⟩) (mem_cons_of_mem _ (mem_cons_self ..)) ?_) (mem_cons_self ..) ?_
  all_goals first | decide | (unfold Unrivalled; decide)

theorem written_in_turn_agrees : (writtenInTurn.workers.stores true).get "w" =
    (writtenInTurn.workers.stores false).get "w" := by
  refine (delivered_states_agree reachable_writtenInTurn (fun node => ?_) (fun node => ?_) true false "w").1
  · cases node <;> decide
  · cases node <;> decide

/-- Both nodes write the worker before they apply each other's state. -/
def writtenAtOnce : Mesh Bool Nat :=
  [.syncWorkerState true "w" "m" "x" true 0 [], .syncWorkerState false "w" "m" "y" true 0 [],
    .applyRemoteWorkerState false ⟨"w", "m", "x", true, 0, 1, []⟩,
    .applyRemoteWorkerState true ⟨"w", "m", "y", true, 0, 1, []⟩].foldl Step.run emptyMesh

theorem written_at_once_differs : Reachable (fun _ _ => True) writtenAtOnce ∧
      (∀ node, ∀ state ∈ writtenAtOnce.workers.written, state ∈ writtenAtOnce.workers.known node) ∧
      (∀ node, ∀ state ∈ writtenAtOnce.policies.written, state ∈ writtenAtOnce.policies.known node) ∧
      (writtenAtOnce.workers.stores true).get "w" = some ⟨"w", "m", "x", true, 0, 1, []⟩ ∧
      (writtenAtOnce.workers.stores false).get "w" = some ⟨"w", "m", "y", true, 0, 1, []⟩ := by
  refine ⟨?_, fun node => by cases node <;> decide, fun node => by cases node <;> decide, by decide, by decide⟩
  refine .step (.applyRemoteWorkerState _ _) (.step (.applyRemoteWorkerState _ _) (.step
    (.syncWorkerState _ _ _ _ _ _ _) (.step (.syncWorkerState _ _ _ _ _ _ _) (.new _ _) trivial trivial)
    trivial trivial) (mem_cons_self ..) trivial) (mem_cons_of_mem _ (mem_cons_self ..)) trivial

end ModelGateway.MeshSync
