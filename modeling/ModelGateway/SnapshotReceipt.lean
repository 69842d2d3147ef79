import ModelGateway.CrdtWrites
import ModelGateway.MeshSync

/-! The receipt of worker and membership states on a sync stream (`ping_server.rs`): incremental
updates, and snapshots that arrive in chunks and are applied when they are complete. -/
namespace ModelGateway.SnapshotReceipt
open CrdtMap CrdtWrites MeshSync Function

/-- An entry of an update or of a chunk; no value where the bytes do not decode. -/
structure Entry (σ : Type) where
  key : String
  value : Option σ

structure SnapshotChunk (σ : Type) where
  chunkIndex : Nat
  totalChunks : Nat
  entries : List (Entry σ)

/-- The chunks of a transfer received so far, and the number expected. -/
abbrev SnapshotState (σ : Type) := Option (List (SnapshotChunk σ) × Nat)

/-- The receipt of a chunk: what is kept, and the chunks in order when they are complete. A
complete number of chunks with wrong indices is discarded. -/
def receiveChunk {σ : Type} (snapshotState : SnapshotState σ) (chunk : SnapshotChunk σ) :
    SnapshotState σ × Option (List (SnapshotChunk σ)) :=
  let held := (snapshotState.map Prod.fst).getD []
  let kept := if chunk.chunkIndex = 0 && !held.isEmpty then [] else held
  let chunks := kept ++ [chunk]
  if chunks.length = chunk.totalChunks then
    let sorted := chunks.insertionSort fun first second => first.chunkIndex ≤ second.chunkIndex
    let indicesValid := sorted.zipIdx.all fun indexed => indexed.1.chunkIndex = indexed.2
    (none, if indicesValid then some sorted else none)
  else (some (chunks, chunk.totalChunks), none)

/-- The stores of a node and the transfers under way on its streams. -/
structure Receiver (ρ : Type) where
  workers : StateStore WorkerState ρ
  memberships : StateStore MembershipState ρ
  workerChunks : String → SnapshotState WorkerState
  membershipChunks : String → SnapshotState MembershipState

inductive Message
  | workerUpdates (updates : List (Entry WorkerState))
  | membershipUpdates (updates : List (Entry MembershipState))
  | workerChunk (peer : String) (chunk : SnapshotChunk WorkerState)
  | membershipChunk (peer : String) (chunk : SnapshotChunk MembershipState)

section Applying
variable {σ ρ : Type} [LinearOrder ρ]

variable (apply : String → σ → StateStore σ ρ → StateStore σ ρ)

/-- An entry that does not decode is passed over. -/
def applyEntry (store : StateStore σ ρ)
    (entry : Entry σ) : StateStore σ ρ :=
  match entry.value with
  | none => store
  | some state => apply entry.key state store

/-- Entries are applied in order. -/
def applyEntries (entries : List (Entry σ))
    (store : StateStore σ ρ) : StateStore σ ρ :=
  entries.foldl (applyEntry apply) store

/-- An incremental worker update. -/
def applyWorkerUpdate (_key : String) (state : WorkerState) (store : StateStore WorkerState ρ) :
    StateStore WorkerState ρ :=
  applyRemoteWorkerState state store

/-- A worker entry of a snapshot is inserted, and then applied through the sync manager. -/
def applyWorkerSnapshot (key : String) (state : WorkerState) (store : StateStore WorkerState ρ) :
    StateStore WorkerState ρ :=
  applyRemoteWorkerState state (store.insert 0 key state).2

/-- An incremental membership update is inserted under the member's name. -/
def applyMembershipUpdate (_key : String) (state : MembershipState)
    (store : StateStore MembershipState ρ) : StateStore MembershipState ρ :=
  (store.insert 0 state.name state).2

/-- A membership entry of a snapshot is inserted under the entry's key. -/
def applyMembershipSnapshot (key : String) (state : MembershipState)
    (store : StateStore MembershipState ρ) : StateStore MembershipState ρ :=
  (store.insert 0 key state).2

/-- The entries of the chunks of a complete transfer. -/
def completed (chunks : Option (List (SnapshotChunk σ))) : List (Entry σ) :=
  (chunks.getD []).flatMap SnapshotChunk.entries

def receive (receiver : Receiver ρ) : Message → Receiver ρ
  | .workerUpdates updates => { receiver with
      workers := applyEntries applyWorkerUpdate updates receiver.workers }
  | .membershipUpdates updates => { receiver with
      memberships := applyEntries applyMembershipUpdate updates receiver.memberships }
  | .workerChunk peer chunk =>
    let received := receiveChunk (receiver.workerChunks peer) chunk
    { receiver with
      workers := applyEntries applyWorkerSnapshot (completed received.2) receiver.workers
      workerChunks := update receiver.workerChunks peer received.1 }
  | .membershipChunk peer chunk =>
    let received := receiveChunk (receiver.membershipChunks peer) chunk
    { receiver with
      memberships := applyEntries applyMembershipSnapshot (completed received.2) receiver.memberships
      membershipChunks := update receiver.membershipChunks peer received.1 }

end Applying

/-! ### Versions -/

section Versions
variable {σ ρ : Type} [MeshState σ]

/-- No key is held in an older version than before. -/
def Grows (pre post : StateStore σ ρ) : Prop :=
  ∀ key, heldVersion (pre.get key) ≤ heldVersion (post.get key)

theorem Grows.refl (store : StateStore σ ρ) : Grows store store := fun _ => le_rfl

theorem Grows.trans {first second third : StateStore σ ρ} (one : Grows first second)
    (two : Grows second third) : Grows first third := fun key => (one key).trans (two key)

variable {target : String → σ → String} {apply : String → σ → StateStore σ ρ → StateStore σ ρ}
  {store : StateStore σ ρ}

theorem grows_applyEntry {entry : Entry σ}
    (grows : ∀ state, entry.value = some state → Grows store (apply entry.key state store)) :
    Grows store (applyEntry apply store entry) := by
  rw [applyEntry]
  split
  · exact .refl store
  · rename_i state decoded
    exact grows state decoded

/-- Each entry, when its turn comes, is not older than what is held under the key it goes to. -/
def UpToDate (target : String → σ → String) (apply : String → σ → StateStore σ ρ → StateStore σ ρ) :
    List (Entry σ) → StateStore σ ρ → Prop
  | [], _ => True
  | entry :: rest, store =>
    (∀ state, entry.value = some state → heldVersion (store.get (target entry.key state)) ≤ version state) ∧
    UpToDate target apply rest (applyEntry apply store entry)

theorem grows_applyEntries {entries : List (Entry σ)} (upToDate : UpToDate target apply entries store)
    (grows : ∀ key state store, heldVersion (store.get (target key state)) ≤ version state →
      Grows store (apply key state store)) :
    Grows store (applyEntries apply entries store) := by
  induction entries generalizing store with
  | nil => exact .refl store
  | cons entry rest ih =>
    refine Grows.trans (grows_applyEntry fun state decoded => ?_) (ih upToDate.2)
    exact grows entry.key state store (upToDate.1 state decoded)

theorem grows_guarded (grows : ∀ key state store, Grows store (apply key state store))
    (entries : List (Entry σ)) (store : StateStore σ ρ) : Grows store (applyEntries apply entries store) := by
  induction entries generalizing store with
  | nil => exact .refl store
  | cons entry rest ih =>
    exact Grows.trans (grows_applyEntry fun state _ => grows entry.key state store) (ih _)

variable [LinearOrder ρ]

theorem grows_insert {key : String} {state : σ} (current : heldVersion (store.get key) ≤ version state) :
    Grows store (store.insert 0 key state).2 := by
  intro probe
  rw [show (store.insert 0 key state).2 = (store.commitInsert 0 key state).2 from rfl, CrdtOrMap.commitInsert]
  split
  · refine le_of_le_of_eq ?_ (congrArg heldVersion (KvStore.get_insert store.store key probe state).symm)
    split
    · rename_i same
      exact same ▸ current
    · exact le_rfl
  · exact le_rfl

theorem grows_applyRemote [Inhabited σ] (state : σ) (store : StateStore σ ρ) :
    Grows store (applyRemoteState state store) := by
  rw [applyRemoteState_eq]
  split
  · next newer => exact grows_insert newer.le
  · exact .refl store

end Versions

/-! ### Messages -/

section Messages
variable {ρ : Type} [LinearOrder ρ]

/-- The messages that bring nothing older than what is held. Worker updates are guarded by
their version; all other entries are inserted as they come. -/
def Current (receiver : Receiver ρ) : Message → Prop
  | .workerUpdates _ => True
  | .membershipUpdates updates =>
    UpToDate (fun _ state => state.name) applyMembershipUpdate updates receiver.memberships
  | .workerChunk peer chunk => UpToDate (fun key _ => key) applyWorkerSnapshot
      (completed (receiveChunk (receiver.workerChunks peer) chunk).2) receiver.workers
  | .membershipChunk peer chunk => UpToDate (fun key _ => key) applyMembershipSnapshot
      (completed (receiveChunk (receiver.membershipChunks peer) chunk).2) receiver.memberships

/-- The receivers reached from one by messages that are allowed where they are received. -/
inductive Receives (allowed : Receiver ρ → Message → Prop) (start : Receiver ρ) : Receiver ρ → Prop
  | start : Receives allowed start start
  | message {receiver : Receiver ρ} (message : Message) : Receives allowed start receiver →
      allowed receiver message → Receives allowed start (receive receiver message)

theorem receive_grows {receiver : Receiver ρ} {message : Message} (current : Current receiver message) :
    Grows receiver.workers (receive receiver message).workers ∧
      Grows receiver.memberships (receive receiver message).memberships := by
  cases message with
  | workerUpdates updates =>
    exact ⟨grows_guarded (fun _ state store => grows_applyRemote state store) updates _, .refl _⟩
  | membershipUpdates | membershipChunk =>
    exact ⟨.refl _, grows_applyEntries current fun _ _ _ => grows_insert⟩
  | workerChunk peer chunk =>
    exact ⟨grows_applyEntries current fun _ state _ current =>
      (grows_insert current).trans (grows_applyRemote state _), .refl _⟩

/-- Over messages that bring nothing older than what is held, no worker or member is held in an
older version than before. -/
theorem received_versions_grow {start receiver : Receiver ρ} (receives : Receives Current start receiver)
    (key : String) : heldVersion (start.workers.get key) ≤ heldVersion (receiver.workers.get key) ∧
      heldVersion (start.memberships.get key) ≤ heldVersion (receiver.memberships.get key) := by
  have grows : Grows start.workers receiver.workers ∧ Grows start.memberships receiver.memberships := by
    induction receives with
    | start => exact ⟨.refl _, .refl _⟩
    | message message _ current ih =>
      exact ⟨ih.1.trans (receive_grows current).1, ih.2.trans (receive_grows current).2⟩
  exact ⟨grows.1 key, grows.2 key⟩

end Messages

/-- A receiver without states. -/
def emptyReceiver : Receiver Nat := ⟨.withReplicaId 1, .withReplicaId 1, fun _ => none, fun _ => none⟩

def workerAt (version : Nat) : WorkerState := ⟨"w", "m", "x", true, 0, version, []⟩

/-- A worker arrives by an update, and after it in a snapshot of one chunk. -/
def updateThenSnapshot (updated snapshot : Nat) : Receiver Nat :=
  [.workerUpdates [⟨"w", some (workerAt updated)⟩],
    .workerChunk "p" ⟨0, 1, [⟨"w", some (workerAt snapshot)⟩]⟩].foldl receive emptyReceiver

theorem update_then_snapshot_grows :
    heldVersion ((receive emptyReceiver (.workerUpdates [⟨"w", some (workerAt 2)⟩])).workers.get "w") ≤
      heldVersion ((updateThenSnapshot 2 3).workers.get "w") := by
  have current : Current (receive emptyReceiver (.workerUpdates [⟨"w", some (workerAt 2)⟩]))
      (.workerChunk "p" ⟨0, 1, [⟨"w", some (workerAt 3)⟩]⟩) := by
    refine ⟨fun state same => ?_, trivial⟩
    obtain rfl := Option.some.inj same
    decide
  exact (received_versions_grow (.message _ .start current) "w").1

theorem update_then_snapshot_lowers :
    Receives (fun _ _ => True) (receive emptyReceiver (.workerUpdates [⟨"w", some (workerAt 2)⟩]))
        (updateThenSnapshot 2 1) ∧
      (receive emptyReceiver (.workerUpdates [⟨"w", some (workerAt 2)⟩])).workers.get "w" =
        some (workerAt 2) ∧ (updateThenSnapshot 2 1).workers.get "w" = some (workerAt 1) :=
  ⟨.message (.workerChunk _ _) .start trivial, by decide, by decide⟩

end ModelGateway.SnapshotReceipt
