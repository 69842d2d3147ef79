import ModelGateway.EventTree

/-! The query path of the positional indexer (`kv_index/event_tree.rs`): lazily
computed prefix hashes, the lookup that skips them for entries with a single prefix
hash, the draining scan and the jump search. Scores are `u32` readings of positions. -/
namespace ModelGateway.JumpSearch
open EventTree PositionalIndexer KeyedSet

variable (computeNextSeqHash : UInt64 → UInt64 → UInt64)

/-- One iteration of the loop of `ensure_seq_hash_computed`. -/
def pushSeqHash (sequence : List ContentHash) (seqHashes : List SequenceHash) :
    List SequenceHash :=
  seqHashes ++ [nextPrefixHash computeNextSeqHash seqHashes.getLast? (sequence.getD seqHashes.length ⟨0⟩)]

/-- `ensure_seq_hash_computed` pushes until `target` has its prefix hash. -/
def ensureSeqHashComputed (seqHashes : List SequenceHash) (target : Nat)
    (sequence : List ContentHash) : List SequenceHash :=
  (pushSeqHash computeNextSeqHash sequence)^[target + 1 - seqHashes.length] seqHashes

variable (index : Index)

section Lookup
variable (position : Nat) (contentHash : ContentHash) (seqHashes : List SequenceHash) (sequence : List ContentHash)

/-- The lookup `get_workers_lazy`, `count_workers_at` and `linear_scan_drain` share:
an entry with a single prefix hash answers without it, one with several is asked for
the rolling hash of the query. -/
def lookupWorkers : Option (KeyedSet WorkerId) × List SequenceHash :=
  match index.get? (position, contentHash) with
  | none => (none, seqHashes)
  | some entry =>
    match entry.workersIfSingle with
    | some workers => (some workers, seqHashes)
    | none =>
      let computed := ensureSeqHashComputed computeNextSeqHash seqHashes position sequence
      (entry.get (computed.getD position ⟨0⟩), computed)

/-- `get_workers_lazy` collects the worker set into a vector. -/
def getWorkersLazy : Option (List WorkerId) × List SequenceHash :=
  let found := lookupWorkers computeNextSeqHash index position contentHash seqHashes sequence
  (found.1.map toList, found.2)

/-- `count_workers_at` counts a missing entry as no workers. -/
def countWorkersAt : Nat × List SequenceHash :=
  let found := lookupWorkers computeNextSeqHash index position contentHash seqHashes sequence
  (found.1.elim 0 size, found.2)

end Lookup

/-- `Vec::swap_remove`: the last element takes the place of the removed one. -/
def swapRemove (active : List WorkerId) (i : Nat) : List WorkerId :=
  active.take i ++ ((active.drop (i + 1)).getLast?.toList ++ (active.drop (i + 1)).dropLast)

/-- The retain loop: a worker that is not listed gets its score and is swapped out.
Every iteration brings the end of the vector one step closer. -/
def retainLoop (workers : KeyedSet WorkerId) (pos : Nat) :
    Nat → Nat → List WorkerId → KeyedMap WorkerId UInt32 → List WorkerId × KeyedMap WorkerId UInt32
  | 0, _, active, scores => (active, scores)
  | fuel + 1, i, active, scores =>
    match active[i]? with
    | none => (active, scores)
    | some worker =>
      if worker ∈ workers then retainLoop workers pos fuel (i + 1) active scores
      else retainLoop workers pos fuel i (swapRemove active i) (scores.insert worker pos.toUInt32)

/-- Scoring every worker of a list alike. -/
def scoreAll (score : UInt32) (active : List WorkerId) (scores : KeyedMap WorkerId UInt32) :
    KeyedMap WorkerId UInt32 :=
  active.foldl (fun scores worker => scores.insert worker score) scores

/-- The variables of the search. -/
structure SearchState where
  seqHashes : List SequenceHash
  active : List WorkerId
  scores : KeyedMap WorkerId UInt32

/-- The iterations of `linear_scan_drain`: the first argument counts those left. The
retain loop runs only when fewer workers are listed than are active. -/
def scanFrom (index : Index) (sequence : List ContentHash) (earlyExit : Bool) :
    Nat → Nat → SearchState → SearchState
  | 0, _, state => state
  | left + 1, pos, state =>
    if state.active.isEmpty then state
    else
      let found := lookupWorkers computeNextSeqHash index pos (sequence.getD pos ⟨0⟩)
        state.seqHashes sequence
      match found.1 with
      | none =>
        { seqHashes := found.2
          active := []
          scores := scoreAll pos.toUInt32 state.active state.scores }
      | some workers =>
        let kept := if workers.size < state.active.length then
            retainLoop workers pos state.active.length 0 state.active state.scores
          else (state.active, state.scores)
        let next : SearchState := ⟨found.2, kept.1, kept.2⟩
        if earlyExit && !kept.1.isEmpty then next
        else scanFrom index sequence earlyExit left (pos + 1) next

def linearScanDrain (sequence : List ContentHash) (lo hi : Nat)
    (earlyExit : Bool) (state : SearchState) : SearchState :=
  scanFrom computeNextSeqHash index sequence earlyExit (hi - lo) lo state

/-- The loop of `jump_search_matches`; a jump of at least one position ends it within
as many iterations as the query has blocks. -/
def jumpLoop (jumpSize : Nat) (index : Index) (sequence : List ContentHash) :
    Nat → Nat → SearchState → SearchState
  | 0, _, state => state
  | fuel + 1, currentPos, state =>
    if currentPos < sequence.length - 1 ∧ ¬ state.active.isEmpty then
      let nextPos := min (currentPos + jumpSize) (sequence.length - 1)
      let counted := countWorkersAt computeNextSeqHash index nextPos (sequence.getD nextPos ⟨0⟩)
        state.seqHashes sequence
      let probed : SearchState := { state with seqHashes := counted.2 }
      if counted.1 = state.active.length then
        jumpLoop jumpSize index sequence fuel nextPos probed
      else
        jumpLoop jumpSize index sequence fuel nextPos
          (linearScanDrain computeNextSeqHash index sequence (currentPos + 1) (nextPos + 1) false probed)
    else state

structure OverlapScores where
  scores : KeyedMap WorkerId UInt32 := ∅
  treeSizes : KeyedMap WorkerId Nat := ∅

/-- The block counts of the scored workers. -/
def withTreeSizes (indexer : PositionalIndexer) (scores : KeyedMap WorkerId UInt32) :
    OverlapScores where
  scores := scores
  treeSizes := scores.keys.foldl (fun sizes worker => sizes.insert worker (indexer.treeSizes worker)) ∅

def jumpSearchMatches (jumpSize : Nat) (indexer : PositionalIndexer)
    (contentHashes : List ContentHash) (earlyExit : Bool) : OverlapScores :=
  match contentHashes with
  | [] => {}
  | first :: _ =>
    let initial := getWorkersLazy computeNextSeqHash indexer.index 0 first [] contentHashes
    match initial.1 with
    | none => {}
    | some active =>
      if active.isEmpty then {}
      else if earlyExit then withTreeSizes indexer (scoreAll 1 active ∅)
      else
        let final := jumpLoop computeNextSeqHash jumpSize indexer.index contentHashes
          contentHashes.length 0 ⟨initial.2, active, ∅⟩
        withTreeSizes indexer (scoreAll contentHashes.length.toUInt32 final.active final.scores)

def findMatches (jumpSize : Nat) (indexer : PositionalIndexer) (contentHashes : List ContentHash)
    (earlyExit : Bool) : OverlapScores :=
  jumpSearchMatches computeNextSeqHash jumpSize indexer contentHashes earlyExit

end ModelGateway.JumpSearch
