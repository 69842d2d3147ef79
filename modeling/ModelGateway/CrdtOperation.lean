import ModelGateway.KeyedMap

/-! The operation log of the replicated map (`crdt_kv/operation.rs`): operations,
their last-writer-wins ordering key, compaction to one operation per key, and
merging by operation identifier. Keys, values and replica identifiers are type
parameters; timestamps are the `u64` Lamport readings. -/
namespace ModelGateway.CrdtOperation

/-- `Operation`: one insert or remove, stamped by the replica that made it. -/
inductive Operation (κ ν ρ : Type) where
  | insert (key : κ) (value : ν) (timestamp : Nat) (replicaId : ρ)
  | remove (key : κ) (timestamp : Nat) (replicaId : ρ)
  deriving DecidableEq, Repr

namespace Operation
variable {κ ν ρ : Type} {first second : Operation κ ν ρ}

def key : Operation κ ν ρ → κ
  | .insert key _ _ _ => key
  | .remove key _ _ => key

def timestamp : Operation κ ν ρ → Nat
  | .insert _ _ timestamp _ => timestamp
  | .remove _ timestamp _ => timestamp

def replicaId : Operation κ ν ρ → ρ
  | .insert _ _ _ replicaId => replicaId
  | .remove _ _ replicaId => replicaId

def operationId (op : Operation κ ν ρ) : ρ × Nat :=
  (op.replicaId, op.timestamp)

/-- The pair every comparison in the source uses, ordered lexicographically. -/
def version (op : Operation κ ν ρ) : ℕ ×ₗ ρ :=
  toLex (op.timestamp, op.replicaId)

theorem version_eq_iff : first.version = second.version ↔ first.operationId = second.operationId := by
  simp only [version, operationId, toLex_inj, Prod.mk.injEq]
  exact and_comm

theorem version_lt_of_timestamp_lt [LT ρ] (earlier : first.timestamp < second.timestamp) :
    first.version < second.version :=
  Prod.Lex.toLex_lt_toLex.mpr (.inl earlier)

end Operation

/-- Named once for the lookups of operation identifiers, here and in the map. -/
scoped instance lawfulOperationId {ρ : Type} [LinearOrder ρ] : LawfulBEq (ρ × Nat) := inferInstance

/-- `OperationLog`: the recorded operations in log order. -/
structure OperationLog (κ ν ρ : Type) where
  operations : List (Operation κ ν ρ) := []
  deriving DecidableEq, Repr

namespace OperationLog
variable {κ ν ρ : Type} [DecidableEq κ] [LinearOrder ρ]

def autoCompactThreshold : Nat := 10000

/-- One iteration of the loop in `latest_operations_by_key`: an operation takes
its key's slot unless the slot already holds one at or above it. -/
def keepLatest (latest : KeyedMap κ (Operation κ ν ρ)) (op : Operation κ ν ρ) :
    KeyedMap κ (Operation κ ν ρ) :=
  match latest.get? op.key with
  | some current =>
    if op.version ≤ current.version then latest else latest.insert op.key op
  | none => latest.insert op.key op

variable (log : OperationLog κ ν ρ)

def latestOperationsByKey : KeyedMap κ (Operation κ ν ρ) :=
  log.operations.foldl keepLatest ∅

/-- The stable `sort_by_key` on `(timestamp, replica_id)`. -/
def sortByVersion (operations : List (Operation κ ν ρ)) : List (Operation κ ν ρ) :=
  operations.insertionSort (fun first second => first.version ≤ second.version)

/-- `compact`: the latest operation of every key, in version order. The hash
map's own iteration order is forgotten by the sort. -/
def compact : OperationLog κ ν ρ where
  operations := sortByVersion log.latestOperationsByKey.values

/-- `append`: push, compact past the threshold, and if one operation per key is
still too many drop the oldest ones down to three quarters of the threshold. -/
def append (op : Operation κ ν ρ) : OperationLog κ ν ρ :=
  let pushed : OperationLog κ ν ρ := ⟨log.operations ++ [op]⟩
  if autoCompactThreshold < pushed.operations.length then
    let compacted := pushed.compact
    if autoCompactThreshold < compacted.operations.length then
      let keep := autoCompactThreshold * 3 / 4
      ⟨compacted.operations.drop (compacted.operations.length - keep)⟩
    else compacted
  else pushed

/-- One iteration of the loop in `merge`: an operation whose identifier was not
seen yet is pushed and its identifier remembered. -/
def mergeOperation (state : List (ρ × Nat) × List (Operation κ ν ρ))
    (op : Operation κ ν ρ) : List (ρ × Nat) × List (Operation κ ν ρ) :=
  if op.operationId ∈ state.1 then state
  else (op.operationId :: state.1, state.2 ++ [op])

def merge (log other : OperationLog κ ν ρ) : OperationLog κ ν ρ where
  operations := (other.operations.foldl mergeOperation (log.operations.map Operation.operationId, log.operations)).2

end OperationLog
end ModelGateway.CrdtOperation
