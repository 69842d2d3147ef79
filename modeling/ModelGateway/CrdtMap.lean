import ModelGateway.CrdtOperation

/-! The replicated observed-remove map (`crdt_kv/crdt.rs`, `kv_store.rs`,
`replica.rs`) as a pure state machine. The per-key locks order callers and are
not part of the state; `Instant::now()` readings are arguments. -/
namespace ModelGateway.CrdtMap
open CrdtOperation KeyedMap

/-- `u64::MAX`, where the Lamport clock saturates. -/
def u64Max : Nat := 2 ^ 64 - 1

/-- `LamportClock::tick`. -/
def tick (clock : Nat) : Nat := min (clock + 1) u64Max

/-- `LamportClock::update`. -/
def update (clock remote : Nat) : Nat := min (max clock remote + 1) u64Max

/-- `KvStore`: the live entries and the mutation counter.  The source's counter is a `u64` that wraps, so the
two agree for fewer than `2 ^ 64` mutations. -/
structure KvStore (κ ν : Type) where
  entries : KeyedMap κ ν := ∅
  generation : Nat := 0

namespace KvStore
variable {κ ν : Type} [DecidableEq κ]

variable (store : KvStore κ ν)

def get (key : κ) : Option ν := store.entries.get? key

def containsKey (key : κ) : Bool := (store.get key).isSome

def insert (key : κ) (value : ν) : KvStore κ ν where
  entries := store.entries.insert key value
  generation := store.generation + 1

/-- `remove` counts as a mutation whether or not the key was present. -/
def remove (key : κ) : KvStore κ ν where
  entries := store.entries.erase key
  generation := store.generation + 1

@[simp] theorem get_insert (store : KvStore κ ν) (key probe : κ) (value : ν) :
    (store.insert key value).get probe = if probe = key then some value else store.get probe :=
  get?_insert ..

@[simp] theorem get_remove (store : KvStore κ ν) (key probe : κ) :
    (store.remove key).get probe = if probe = key then none else store.get probe :=
  get?_erase ..

end KvStore

/-- `ValueMetadata`: one version of a key. -/
structure ValueMetadata (ρ : Type) where
  timestamp : Nat
  replicaId : ρ
  isTombstone : Bool
  createdAt : Nat
  deriving DecidableEq, Repr

namespace ValueMetadata
variable {ρ : Type} [LinearOrder ρ]

variable (metadata : ValueMetadata ρ)

def versionKey : ℕ ×ₗ ρ :=
  toLex (metadata.timestamp, metadata.replicaId)

def matchesVersion (timestamp : Nat) (replicaId : ρ) : Bool :=
  metadata.timestamp = timestamp ∧ metadata.replicaId = replicaId

def isNewerThan (timestamp : Nat) (replicaId : ρ) : Bool :=
  toLex (timestamp, replicaId) < metadata.versionKey

/-- `iter().max_by_key(version_key)`: the last of the greatest elements. -/
def winner : List (ValueMetadata ρ) → Option (ValueMetadata ρ)
  | [] => none
  | first :: rest => some (rest.foldl (fun best candidate =>
      if best.versionKey ≤ candidate.versionKey then candidate else best) first)

/-- `compact_key_metadata`: only the winning version stays. -/
def compactKeyMetadata (versions : List (ValueMetadata ρ)) : List (ValueMetadata ρ) :=
  if versions.length ≤ 1 then versions
  else match winner versions with
    | some best => [best]
    | none => versions

/-- `record_insert_metadata` on the entry of one key: whether the insert is
accepted, and the versions left in the entry. -/
def recordInsert (now : Nat) (timestamp : Nat) (replicaId : ρ) :
    Option (List (ValueMetadata ρ)) → Bool × List (ValueMetadata ρ)
  | some versions =>
    if versions.any (·.matchesVersion timestamp replicaId) then
      (false, compactKeyMetadata versions)
    else if (winner versions).any (·.isNewerThan timestamp replicaId) then
      (false, compactKeyMetadata versions)
    else (true, compactKeyMetadata (versions ++ [⟨timestamp, replicaId, false, now⟩]))
  | none => (true, [⟨timestamp, replicaId, false, now⟩])

/-- `record_remove_metadata` on the entry of one key, given whether the live
store holds the key. A remove of an unknown key leaves the entry vacant. -/
def recordRemove (present : Bool) (now : Nat) (timestamp : Nat) (replicaId : ρ) :
    Option (List (ValueMetadata ρ)) → Bool × Option (List (ValueMetadata ρ))
  | some versions =>
    if versions.any (fun v => v.isTombstone && v.matchesVersion timestamp replicaId) then
      (false, some (compactKeyMetadata versions))
    else if versions.any (·.isNewerThan timestamp replicaId) then
      (false, some (compactKeyMetadata versions))
    else (true, some (compactKeyMetadata (versions ++ [⟨timestamp, replicaId, true, now⟩])))
  | none => if present then (true, some [⟨timestamp, replicaId, true, now⟩]) else (false, none)

end ValueMetadata

/-- The fields of `CrdtOrMap` that `Clone` shares between handles. -/
structure SharedMap (κ ν ρ : Type) where
  store : KvStore κ ν := {}
  metadata : KeyedMap κ (List (ValueMetadata ρ)) := ∅
  replicaId : ρ
  operationLog : OperationLog κ ν ρ := {}

/-- `CrdtOrMap`: the shared fields and the handle's own Lamport clock. -/
structure CrdtOrMap (κ ν ρ : Type) extends SharedMap κ ν ρ where
  clock : Nat := 0

namespace CrdtOrMap
variable {κ ν ρ ε : Type} [DecidableEq κ] [LinearOrder ρ]

/-- `with_replica_id`. -/
def withReplicaId (replicaId : ρ) : CrdtOrMap κ ν ρ := { replicaId }

variable (map : CrdtOrMap κ ν ρ)

def get (key : κ) : Option ν := map.store.get key

/-- `all`: the live entries as a finite map. -/
def all : κ → Option ν := map.store.get

def getOperationLog : OperationLog κ ν ρ := map.operationLog

def recordInsertMetadata (now : Nat) (key : κ) (timestamp : Nat) (replicaId : ρ)
    (map : CrdtOrMap κ ν ρ) : Bool × CrdtOrMap κ ν ρ :=
  let outcome := ValueMetadata.recordInsert now timestamp replicaId (map.metadata.get? key)
  (outcome.1, { map with metadata := map.metadata.insert key outcome.2 })

def recordRemoveMetadata (now : Nat) (key : κ) (timestamp : Nat) (replicaId : ρ)
    (map : CrdtOrMap κ ν ρ) : Bool × CrdtOrMap κ ν ρ :=
  let outcome := ValueMetadata.recordRemove (map.store.containsKey key) now timestamp replicaId
    (map.metadata.get? key)
  (outcome.1, { map with
    metadata := outcome.2.elim map.metadata (map.metadata.insert key) })

/-- The part `insert`, `upsert`, `try_upsert` and `try_upsert_if` have in common:
tick, record the version, and when it is accepted write the store and the log. -/
def commitInsert (now : Nat) (key : κ) (value : ν) (map : CrdtOrMap κ ν ρ) :
    Bool × CrdtOrMap κ ν ρ :=
  let timestamp := tick map.clock
  let ticked := { map with clock := timestamp }
  let recorded := ticked.recordInsertMetadata now key timestamp map.replicaId
  if recorded.1 then
    (true, { recorded.2 with
      store := recorded.2.store.insert key value
      operationLog := recorded.2.operationLog.append (.insert key value timestamp map.replicaId) })
  else (false, recorded.2)

/-- `insert` returns the previous value, or the current one when refused. -/
def insert (now : Nat) (key : κ) (value : ν) (map : CrdtOrMap κ ν ρ) :
    Option ν × CrdtOrMap κ ν ρ :=
  (map.get key, (map.commitInsert now key value).2)

/-- `upsert` computes the new value before it ticks the clock. -/
def upsert [Inhabited ν] (now : Nat) (key : κ) (updater : Option ν → ν) (map : CrdtOrMap κ ν ρ) :
    ν × CrdtOrMap κ ν ρ :=
  let updated := updater (map.get key)
  let committed := map.commitInsert now key updated
  (if committed.1 then updated else (committed.2.get key).getD default, committed.2)

/-- `try_upsert`: an updater error leaves the map, its clock included, as it was. -/
def tryUpsert [Inhabited ν] (now : Nat) (key : κ) (updater : Option ν → Except ε ν)
    (map : CrdtOrMap κ ν ρ) : Except ε ν × CrdtOrMap κ ν ρ :=
  match updater (map.get key) with
  | .error err => (.error err, map)
  | .ok updated =>
    let committed := map.commitInsert now key updated
    (.ok (if committed.1 then updated else (committed.2.get key).getD default), committed.2)

/-- `try_upsert_if`: `Ok(None)` from the updater skips the write. -/
def tryUpsertIf [Inhabited ν] (now : Nat) (key : κ) (updater : Option ν → Except ε (Option ν))
    (map : CrdtOrMap κ ν ρ) : Except ε (ν × Bool) × CrdtOrMap κ ν ρ :=
  match updater (map.get key) with
  | .error err => (.error err, map)
  | .ok none => (.ok ((map.get key).getD default, false), map)
  | .ok (some updated) =>
    let committed := map.commitInsert now key updated
    (.ok (if committed.1 then (updated, true) else ((committed.2.get key).getD default, false)),
      committed.2)

/-- `remove` logs a tombstone only when the metadata accepts it. -/
def remove (now : Nat) (key : κ) (map : CrdtOrMap κ ν ρ) : Option ν × CrdtOrMap κ ν ρ :=
  let timestamp := tick map.clock
  let ticked := { map with clock := timestamp }
  let recorded := ticked.recordRemoveMetadata now key timestamp map.replicaId
  if recorded.1 then
    (map.get key, { recorded.2 with
      store := recorded.2.store.remove key
      operationLog := recorded.2.operationLog.append (.remove key timestamp map.replicaId) })
  else (none, recorded.2)

/-- `apply_operation`: advance the clock past the operation, then `apply_insert`
or `apply_remove`. -/
def applyOperation (now : κ → Nat) (map : CrdtOrMap κ ν ρ) (op : Operation κ ν ρ) :
    CrdtOrMap κ ν ρ :=
  let advanced := { map with clock := update map.clock op.timestamp }
  match op with
  | .insert key value timestamp replicaId =>
    let recorded := advanced.recordInsertMetadata (now key) key timestamp replicaId
    if recorded.1 then { recorded.2 with store := recorded.2.store.insert key value }
    else recorded.2
  | .remove key timestamp replicaId =>
    let recorded := advanced.recordRemoveMetadata (now key) key timestamp replicaId
    if recorded.1 then { recorded.2 with store := recorded.2.store.remove key }
    else recorded.2

/-- The operations `merge` is about to apply: those of the merged and compacted
log whose identifiers the local log did not hold before, in version order. -/
def unseenOperations (log : OperationLog κ ν ρ) (map : CrdtOrMap κ ν ρ) :
    List (Operation κ ν ρ) :=
  let seen := map.operationLog.operations.map Operation.operationId
  OperationLog.sortByVersion ((map.operationLog.merge log).compact.operations.filter (·.operationId ∉ seen))

/-- `merge`: install the merged, compacted log and apply what was unseen. -/
def merge (now : κ → Nat) (log : OperationLog κ ν ρ) (map : CrdtOrMap κ ν ρ) :
    CrdtOrMap κ ν ρ :=
  (map.unseenOperations log).foldl (applyOperation now)
    { map with operationLog := (map.operationLog.merge log).compact }

def keyIsTombstonedOrUnknown (key : κ) : Bool :=
  match map.metadata.get? key with
  | none => true
  | some versions => (ValueMetadata.winner versions).all (·.isTombstone)

/-- Whether the second, locked check of `gc_tombstones_with_grace` drops a key. -/
def gcCollects (now grace : Nat) (map : CrdtOrMap κ ν ρ) (key : κ) : Bool :=
  match map.metadata.get? key with
  | none => false
  | some versions => !map.store.containsKey key &&
      (ValueMetadata.winner versions).all (fun best => best.isTombstone && decide (grace ≤ now - best.createdAt))

/-- One iteration of the collection loop. -/
def gcKey (now grace : Nat) (state : Nat × CrdtOrMap κ ν ρ) (key : κ) : Nat × CrdtOrMap κ ν ρ :=
  if state.2.keyIsTombstonedOrUnknown key && state.2.gcCollects now grace key then
    (state.1 + 1, { state.2 with metadata := state.2.metadata.erase key })
  else state

/-- `gc_tombstones_with_grace`: the count of collected keys and the map after. -/
def gcTombstonesWithGrace (now grace : Nat) (map : CrdtOrMap κ ν ρ) : Nat × CrdtOrMap κ ν ρ :=
  (map.metadata.keys.filter (fun key => !map.store.containsKey key)).foldl (gcKey now grace) (0, map)

end CrdtOrMap

/-- A writing call made through a handle. -/
inductive Call (κ ν ε : Type) where
  | insert (key : κ) (value : ν)
  | upsert (key : κ) (updater : Option ν → ν)
  | tryUpsert (key : κ) (updater : Option ν → Except ε ν)
  | tryUpsertIf (key : κ) (updater : Option ν → Except ε (Option ν))
  | remove (key : κ)

namespace Call
variable {κ ν ρ ε : Type} [DecidableEq κ] [LinearOrder ρ]

def key {κ ν ε : Type} : Call κ ν ε → κ
  | .insert key _ | .upsert key _ | .tryUpsert key _ | .tryUpsertIf key _ | .remove key => key

/-- The map a call leaves behind. -/
def run [Inhabited ν] (now : Nat) (call : Call κ ν ε) (map : CrdtOrMap κ ν ρ) : CrdtOrMap κ ν ρ :=
  match call with
  | .insert key value => (map.insert now key value).2
  | .upsert key updater => (map.upsert now key updater).2
  | .tryUpsert key updater => (map.tryUpsert now key updater).2
  | .tryUpsertIf key updater => (map.tryUpsertIf now key updater).2
  | .remove key => (map.remove now key).2

end Call

end ModelGateway.CrdtMap
