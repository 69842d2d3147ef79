import ModelGateway.KeyedMap

/-! The write path of the positional indexer (`kv_index/event_tree.rs`): entries
with one or several prefix hashes, the flat index, the per-worker reverse maps and
block counts. The rolling XXH3 step `compute_next_seq_hash` comes from another
package and is a parameter. -/
namespace ModelGateway.EventTree
open Function

/-- `ContentHash`: the hash of the tokens of one block, whatever its position. -/
structure ContentHash where
  value : UInt64
  deriving DecidableEq, Repr

/-- `SequenceHash`: a hash that covers the whole prefix of a block. -/
structure SequenceHash where
  value : UInt64
  deriving DecidableEq, Repr

/-- `WorkerId`: the interned `u32` of a worker. -/
abbrev WorkerId := Nat

/-- `StoredBlock`: the backend's hash of a block and the hash of its content. -/
structure StoredBlock where
  seqHash : SequenceHash
  contentHash : ContentHash
  deriving DecidableEq, Repr

inductive ApplyError where
  | workerNotTracked
  | parentBlockNotFound
  deriving DecidableEq, Repr

/-- `SeqEntry`: the workers of one position and content, under one prefix hash or
under several. -/
inductive SeqEntry where
  | single (seqHash : SequenceHash) (workers : KeyedSet WorkerId)
  | multi (map : KeyedMap SequenceHash (KeyedSet WorkerId))

namespace SeqEntry

variable (seqHash : SequenceHash)

def new (workerId : WorkerId) : SeqEntry :=
  .single seqHash (KeyedSet.insert ∅ workerId)

/-- `map.entry(seq_hash).or_default().insert(worker_id)`. -/
def addWorker (map : KeyedMap SequenceHash (KeyedSet WorkerId)) (seqHash : SequenceHash)
    (workerId : WorkerId) : KeyedMap SequenceHash (KeyedSet WorkerId) :=
  map.insert seqHash (((map.get? seqHash).getD ∅).insert workerId)

/-- `insert` upgrades to several prefix hashes when a second one arrives. -/
def insert (workerId : WorkerId) : SeqEntry → SeqEntry
  | .single existing workers =>
    if existing = seqHash then .single existing (workers.insert workerId)
    else .multi (addWorker (KeyedMap.insert ∅ existing workers) seqHash workerId)
  | .multi map => .multi (addWorker map seqHash workerId)

/-- Dropping one worker of one prefix hash, and the hash with its last worker. -/
def dropWorker (map : KeyedMap SequenceHash (KeyedSet WorkerId)) (seqHash : SequenceHash)
    (workerId : WorkerId) : KeyedMap SequenceHash (KeyedSet WorkerId) :=
  match map.get? seqHash with
  | some workers =>
    let rest := workers.erase workerId
    if rest.isEmpty then map.erase seqHash else map.insert seqHash rest
  | none => map

/-- `remove`: whether the entry is now empty, and what is left of it. An entry with
several prefix hashes stays one of that kind however few are left. -/
def remove (workerId : WorkerId) : SeqEntry → Bool × SeqEntry
  | .single existing workers =>
    if existing = seqHash then
      let rest := workers.erase workerId
      (rest.isEmpty, .single existing rest)
    else (false, .single existing workers)
  | .multi map =>
    let rest := dropWorker map seqHash workerId
    (rest.isEmpty, .multi rest)

def get : SeqEntry → Option (KeyedSet WorkerId)
  | .single existing workers => if existing = seqHash then some workers else none
  | .multi map => map.get? seqHash

/-- `workers_if_single` does not look at the prefix hash. -/
def workersIfSingle : SeqEntry → Option (KeyedSet WorkerId)
  | .single _ workers => some workers
  | .multi _ => none

end SeqEntry

/-- Where a block sits: the value type of `WorkerBlockMap`. -/
structure Location where
  position : Nat
  contentHash : ContentHash
  prefixHash : SequenceHash
  deriving DecidableEq, Repr

/-- The key of its entry in the index. -/
abbrev Location.key (loc : Location) : Nat × ContentHash := (loc.position, loc.contentHash)

/-- `WorkerBlockMap`: the reverse lookup of one worker, by backend hash. -/
abbrev WorkerBlockMap := KeyedMap SequenceHash Location

abbrev Index := KeyedMap (Nat × ContentHash) SeqEntry

namespace Index

/-- `entry(..).and_modify(..).or_insert_with(..)` in `apply_stored`. -/
def store (index : Index) (workerId : WorkerId) (loc : Location) : Index :=
  let key := (loc.position, loc.contentHash)
  index.insert key (match index.get? key with
    | some entry => entry.insert loc.prefixHash workerId
    | none => SeqEntry.new loc.prefixHash workerId)

/-- The occupied-entry step of `apply_removed`, `apply_cleared` and `remove_worker`. -/
def drop (index : Index) (workerId : WorkerId) (loc : Location) : Index :=
  let key := (loc.position, loc.contentHash)
  match index.get? key with
  | some entry =>
    let outcome := entry.remove loc.prefixHash workerId
    if outcome.1 then index.erase key else index.insert key outcome.2
  | none => index

end Index

/-- `PositionalIndexer`: the shared index and the block count of every worker. -/
structure PositionalIndexer where
  index : Index := ∅
  treeSizes : WorkerId → Nat := fun _ => 0

namespace PositionalIndexer
variable (computeNextSeqHash : UInt64 → UInt64 → UInt64)

/-- The router's prefix hash of a block after an optional previous one. -/
def nextPrefixHash (previous : Option SequenceHash) (contentHash : ContentHash) : SequenceHash :=
  match previous with
  | some previous => ⟨computeNextSeqHash previous.value contentHash.value⟩
  | none => ⟨contentHash.value⟩

/-- The locations the loop of `apply_stored` computes, block by block. -/
def locate (position : Nat) (previous : Option SequenceHash) :
    List StoredBlock → List (SequenceHash × Location)
  | [] => []
  | block :: rest =>
    let prefixHash := nextPrefixHash computeNextSeqHash previous block.contentHash
    (block.seqHash, ⟨position, block.contentHash, prefixHash⟩) :: locate (position + 1) (some prefixHash) rest

/-- The variables of the loop of `apply_stored`. -/
structure StoreState where
  index : Index
  workerBlocks : WorkerBlockMap
  numNewBlocks : Nat

variable (workerId : WorkerId)

/-- The body of the loop of `apply_stored`, once the block is located. -/
def storeBlock (state : StoreState) (block : SequenceHash × Location) :
    StoreState where
  index := state.index.store workerId block.2
  workerBlocks := state.workerBlocks.insert block.1 block.2
  numNewBlocks := if (state.workerBlocks.get? block.1).isNone then state.numNewBlocks + 1
    else state.numNewBlocks

/-- The start position and the parent's prefix hash of a store event. -/
def resolveParent (parentSeqHash : Option SequenceHash) (workerBlocks : WorkerBlockMap) :
    Except ApplyError (Nat × Option SequenceHash) :=
  match parentSeqHash with
  | none => .ok (0, none)
  | some parentHash =>
    if workerBlocks.isEmpty then .error .workerNotTracked
    else match workerBlocks.get? parentHash with
      | none => .error .parentBlockNotFound
      | some parent => .ok (parent.position + 1, some parent.prefixHash)

def applyStored (blocks : List StoredBlock)
    (parentSeqHash : Option SequenceHash) (workerBlocks : WorkerBlockMap)
    (indexer : PositionalIndexer) : Except ApplyError (PositionalIndexer × WorkerBlockMap) :=
  if blocks.isEmpty then .ok (indexer, workerBlocks)
  else match resolveParent parentSeqHash workerBlocks with
    | .error err => .error err
    | .ok (start, parentPrefix) =>
      let stored := (locate computeNextSeqHash start parentPrefix blocks).foldl
        (storeBlock workerId) ⟨indexer.index, workerBlocks, 0⟩
      .ok ({ index := stored.index
             treeSizes := update indexer.treeSizes workerId
               (indexer.treeSizes workerId + stored.numNewBlocks) }, stored.workerBlocks)

/-- The variables of the loop of `apply_removed`. -/
structure RemoveState where
  index : Index
  workerBlocks : WorkerBlockMap
  numRemoved : Nat

/-- The body of the loop of `apply_removed`; unknown hashes are skipped. -/
def removeBlock (state : RemoveState) (seqHash : SequenceHash) :
    RemoveState :=
  match state.workerBlocks.get? seqHash with
  | none => state
  | some loc =>
    { index := state.index.drop workerId loc
      workerBlocks := state.workerBlocks.erase seqHash
      numRemoved := state.numRemoved + 1 }

def applyRemoved (seqHashes : List SequenceHash)
    (workerBlocks : WorkerBlockMap) (indexer : PositionalIndexer) :
    PositionalIndexer × WorkerBlockMap :=
  let removed := seqHashes.foldl (removeBlock workerId) ⟨indexer.index, workerBlocks, 0⟩
  ({ index := removed.index
     treeSizes := update indexer.treeSizes workerId
       (indexer.treeSizes workerId - removed.numRemoved) }, removed.workerBlocks)

/-- `remove_worker`: the worker's blocks are consumed. -/
def removeWorker (workerBlocks : WorkerBlockMap)
    (indexer : PositionalIndexer) : PositionalIndexer where
  index := workerBlocks.values.foldl (fun index loc => index.drop workerId loc) indexer.index
  treeSizes := update indexer.treeSizes workerId 0

/-- `apply_cleared` does the same and leaves the caller an empty map. -/
def applyCleared (workerBlocks : WorkerBlockMap)
    (indexer : PositionalIndexer) : PositionalIndexer × WorkerBlockMap :=
  (indexer.removeWorker workerId workerBlocks, ∅)

end PositionalIndexer
end ModelGateway.EventTree
