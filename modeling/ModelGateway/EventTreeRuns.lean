import ModelGateway.EventTreeProofs

/-! Runs of the positional indexer over many workers, each with its own reverse map.
When the backends name blocks consistently, the shared index, the reverse maps and the
block counts stay in step, and clearing a worker leaves what the other workers alone
would have built, up to entries that had been upgraded. -/
namespace ModelGateway.EventTreeRuns
open EventTree PositionalIndexer EventTreeProofs List Function KeyedMap Option

/-- The shared indexer and the reverse map every worker's caller owns. -/
structure Fleet where
  indexer : PositionalIndexer := {}
  blocks : WorkerId → WorkerBlockMap := fun _ => ∅

/-- The events of one worker. -/
inductive Event where
  | stored (worker : WorkerId) (blocks : List StoredBlock) (parent : Option SequenceHash)
  | removed (worker : WorkerId) (seqHashes : List SequenceHash)
  | cleared (worker : WorkerId)
  | removeWorker (worker : WorkerId)

def Event.worker : Event → WorkerId
  | .stored worker _ _ | .removed worker _ | .cleared worker | .removeWorker worker => worker

namespace Fleet
variable (computeNextSeqHash : UInt64 → UInt64 → UInt64)

/-- A rejected store event changes nothing; a removed worker starts over with an
empty map. -/
def step (fleet : Fleet) (event : Event) : Fleet :=
  match event with
  | .stored worker blocks parent =>
    match applyStored computeNextSeqHash worker blocks parent (fleet.blocks worker)
        fleet.indexer with
    | .ok (indexer, left) => ⟨indexer, update fleet.blocks worker left⟩
    | .error _ => fleet
  | .removed worker seqHashes =>
    let (indexer, left) := fleet.indexer.applyRemoved worker seqHashes (fleet.blocks worker)
    ⟨indexer, update fleet.blocks worker left⟩
  | .cleared worker =>
    let (indexer, left) := fleet.indexer.applyCleared worker (fleet.blocks worker)
    ⟨indexer, update fleet.blocks worker left⟩
  | .removeWorker worker =>
    ⟨fleet.indexer.removeWorker worker (fleet.blocks worker), update fleet.blocks worker ∅⟩

def run (fleet : Fleet) (events : List Event) : Fleet := events.foldl (step computeNextSeqHash) fleet

/-- The backend hashes an event of a worker with this reverse map assigns, and the
locations they name. -/
def assigned (workerBlocks : WorkerBlockMap) : Event → List (SequenceHash × Location)
  | .stored _ blocks parent =>
    match resolveParent parent workerBlocks with
    | .ok (start, parentPrefix) => locate computeNextSeqHash start parentPrefix blocks
    | .error _ => []
  | _ => []

/-- Everything `worker` assigns in the rest of a run. -/
def assignments (worker : WorkerId) (fleet : Fleet) : List Event → List (SequenceHash × Location)
  | [] => []
  | event :: rest =>
    (if event.worker = worker then assigned computeNextSeqHash (fleet.blocks worker) event else []) ++
      assignments worker (fleet.step computeNextSeqHash event) rest

end Fleet

/-- A backend hash always names the same location, and distinct ones distinct
locations. -/
def Naming (names : List (SequenceHash × Location)) : Prop :=
  ∀ first ∈ names, ∀ second ∈ names, first.1 = second.1 ↔ first.2 = second.2

instance (names : List (SequenceHash × Location)) : Decidable (Naming names) :=
  inferInstanceAs (Decidable (∀ first ∈ names, ∀ second ∈ names, _))

/-! ### What one event does to the index -/

/-- A single change of the index by a worker. -/
inductive Change where
  | store (loc : Location)
  | drop (loc : Location)

def Change.apply (worker : WorkerId) (index : Index) : Change → Index
  | .store loc => index.store worker loc
  | .drop loc => index.drop worker loc

/-- The locations `apply_removed` drops, in order. -/
def droppedLocations (workerBlocks : WorkerBlockMap) : List SequenceHash → List Location
  | [] => []
  | seqHash :: rest =>
    match workerBlocks.get? seqHash with
    | none => droppedLocations workerBlocks rest
    | some loc => loc :: droppedLocations (workerBlocks.erase seqHash) rest

variable (computeNextSeqHash : UInt64 → UInt64 → UInt64)

/-- The changes an event of a worker with this reverse map makes, in order. -/
def changes (workerBlocks : WorkerBlockMap)
    (event : Event) : List Change :=
  match event with
  | .stored _ _ _ =>
    (Fleet.assigned computeNextSeqHash workerBlocks event).map fun block => .store block.2
  | .removed _ seqHashes => (droppedLocations workerBlocks seqHashes).map .drop
  | .cleared _ | .removeWorker _ => workerBlocks.values.map .drop

/-- The reverse map an event leaves its worker. -/
def leftBlocks (workerBlocks : WorkerBlockMap)
    (event : Event) : WorkerBlockMap :=
  match event with
  | .stored _ _ _ => (Fleet.assigned computeNextSeqHash workerBlocks event).foldl
      (fun left block => left.insert block.1 block.2) workerBlocks
  | .removed _ seqHashes => seqHashes.foldl erase workerBlocks
  | .cleared _ | .removeWorker _ => ∅

variable {nextHash : UInt64 → UInt64 → UInt64} {fleet : Fleet} {worker : WorkerId}

open Change (store apply)

theorem fold_storeBlock (worker : WorkerId) (blocks : List (SequenceHash × Location))
    (state : StoreState) : (blocks.foldl (storeBlock worker) state).index =
        (blocks.map fun block => store block.2).foldl (apply worker) state.index ∧
      (blocks.foldl (storeBlock worker) state).workerBlocks =
        blocks.foldl (fun left block => left.insert block.1 block.2) state.workerBlocks ∧
      (blocks.foldl (storeBlock worker) state).workerBlocks.size + state.numNewBlocks =
        state.workerBlocks.size + (blocks.foldl (storeBlock worker) state).numNewBlocks := by
  induction blocks generalizing state with
  | nil => exact ⟨rfl, rfl, rfl⟩
  | cons block rest ih =>
    obtain ⟨index, left, count⟩ := ih (storeBlock worker state block)
    refine ⟨index, left, ?_⟩
    have counted : (storeBlock worker state block).workerBlocks.size + state.numNewBlocks =
        state.workerBlocks.size + (storeBlock worker state block).numNewBlocks := by
      simp only [storeBlock, size_insert]
      cases state.workerBlocks.get? block.1 with
      | none =>
        simp only [isSome_none, Bool.false_eq_true, if_false, isNone_none, if_true]
        omega
      | some loc => simp
    rw [foldl_cons]
    omega

theorem fold_removeBlock (worker : WorkerId) (seqHashes : List SequenceHash)
    (state : RemoveState) : (seqHashes.foldl (removeBlock worker) state).index =
        ((droppedLocations state.workerBlocks seqHashes).map Change.drop).foldl (apply worker) state.index ∧
      (seqHashes.foldl (removeBlock worker) state).workerBlocks = seqHashes.foldl erase state.workerBlocks ∧
      (seqHashes.foldl (removeBlock worker) state).workerBlocks.size +
          (seqHashes.foldl (removeBlock worker) state).numRemoved =
        state.workerBlocks.size + state.numRemoved := by
  induction seqHashes generalizing state with
  | nil => exact ⟨rfl, rfl, rfl⟩
  | cons seqHash rest ih =>
    rw [foldl_cons, foldl_cons, droppedLocations]
    cases held : state.workerBlocks.get? seqHash with
    | none =>
      have unchanged : removeBlock worker state seqHash = state := by
        simp only [removeBlock, held]
      rw [unchanged, erase_of_get?_none held]
      exact ih state
    | some loc =>
      have removed : removeBlock worker state seqHash = ⟨state.index.drop worker loc,
          state.workerBlocks.erase seqHash, state.numRemoved + 1⟩ := by
        simp only [removeBlock, held]
      obtain ⟨index, left, count⟩ := ih (removeBlock worker state seqHash)
      rw [removed] at index left count ⊢
      refine ⟨index, left, ?_⟩
      have shrunk := size_erase state.workerBlocks seqHash
      have pos := size_pos held
      rw [held, isSome_some, if_pos rfl] at shrunk
      dsimp only at count
      omega

/-- An event applies its changes to the index, rewrites the reverse map of its worker,
and keeps the block count of that worker in step with the map. -/
structure StepEffect (computeNextSeqHash : UInt64 → UInt64 → UInt64) (event : Event)
    (pre post : Fleet) : Prop where
  index : post.indexer.index = (changes computeNextSeqHash (pre.blocks event.worker) event).foldl
      (Change.apply event.worker) pre.indexer.index
  blocks : post.blocks = update pre.blocks event.worker
    (leftBlocks computeNextSeqHash (pre.blocks event.worker) event)
  sized : (∀ worker, pre.indexer.treeSizes worker = (pre.blocks worker).size) →
    ∀ worker, post.indexer.treeSizes worker = (post.blocks worker).size

theorem sized_update {left : WorkerBlockMap} {count : Nat}
    (sized : ∀ worker, fleet.indexer.treeSizes worker = (fleet.blocks worker).size)
    (counted : count = left.size) (other : WorkerId) :
    update fleet.indexer.treeSizes worker count other = (update fleet.blocks worker left other).size := by
  rw [counted, funext sized]
  exact (apply_update (fun _ => size) _ _ _ other).symm

open Fleet (assigned step assignments run)

theorem step_effect (fleet : Fleet) (event : Event) :
    StepEffect nextHash event fleet (fleet.step nextHash event) := by
  cases event with
  | stored worker blocks parent =>
    cases resolved : resolveParent parent (fleet.blocks worker) with
    | error err =>
      have unchanged : fleet.step nextHash (.stored worker blocks parent) = fleet := by
        cases blocks <;> simp [step, applyStored, resolved]
      rw [unchanged]
      refine ⟨?_, ?_, id⟩
      · simp [changes, Event.worker, assigned, resolved]
      · simp [leftBlocks, Event.worker, assigned, resolved]
    | ok found =>
      obtain ⟨start, parentPrefix⟩ := found
      obtain ⟨index, left, count⟩ := fold_storeBlock worker (locate nextHash start parentPrefix blocks)
        ⟨fleet.indexer.index, fleet.blocks worker, 0⟩
      have assigned : assigned nextHash (fleet.blocks worker) (.stored worker blocks parent) =
          locate nextHash start parentPrefix blocks := by
        simp [assigned, resolved]
      have post : fleet.step nextHash (.stored worker blocks parent) =
          let stored := (locate nextHash start parentPrefix blocks).foldl
            (storeBlock worker) ⟨fleet.indexer.index, fleet.blocks worker, 0⟩
          ⟨⟨stored.index, update fleet.indexer.treeSizes worker
            (fleet.indexer.treeSizes worker + stored.numNewBlocks)⟩,
            update fleet.blocks worker stored.workerBlocks⟩ := by
        cases blocks <;> simp [step, applyStored, resolved, locate]
      rw [post]
      refine ⟨?_, ?_, fun sized => sized_update sized ?_⟩
      · simpa [changes, Event.worker, assigned] using index
      · simp [leftBlocks, Event.worker, assigned, left]
      · rw [sized worker]
        exact count.symm
  | removed worker seqHashes =>
    obtain ⟨index, left, count⟩ := fold_removeBlock worker seqHashes ⟨fleet.indexer.index, fleet.blocks worker, 0⟩
    refine ⟨index, ?_, fun sized => sized_update sized ?_⟩
    · simp [step, applyRemoved, leftBlocks, Event.worker, left]
    · rw [sized worker]
      dsimp only at count
      omega
  | cleared worker | removeWorker worker =>
    refine ⟨?_, rfl, fun sized => sized_update sized rfl⟩
    simp [step, applyCleared, removeWorker, changes, Event.worker, foldl_map, apply]

/-! ### The index mirrors the reverse maps -/

variable {index : Index} {worker reader : WorkerId} {loc : Location}
variable {names : List (SequenceHash × Location)} {map : WorkerBlockMap}

theorem listed_changes_other (made : List Change) (other : reader ≠ worker) :
    Listed (made.foldl (apply worker) index) loc reader ↔ Listed index loc reader := by
  induction made generalizing index with
  | nil => rfl
  | cons change rest ih =>
    rw [foldl_cons, ih]
    cases change with
    | store changed => simp [apply, listed_store, other]
    | drop changed => simp [apply, listed_drop, other]

theorem occupied_changes (made : List Change) (occupied : FullyOccupied index) :
    FullyOccupied (made.foldl (apply worker) index) := by
  refine foldlRecOn made _ occupied fun index occupied change _ => ?_
  cases change with
  | store changed => exact occupied_store occupied
  | drop changed => exact occupied_drop occupied

theorem listed_drops (dropped : List Location) :
    Listed ((dropped.map Change.drop).foldl (apply worker) index) loc worker ↔
      Listed index loc worker ∧ loc ∉ dropped := by
  induction dropped generalizing index with
  | nil => simp
  | cons first rest ih =>
    rw [map_cons, foldl_cons, ih, apply, listed_drop]
    simp only [and_true, mem_cons, not_or, and_assoc]

/-- The listings of a worker are the locations of its reverse map, all of them named. -/
structure Mirrors (names : List (SequenceHash × Location)) (worker : WorkerId) (index : Index)
    (map : WorkerBlockMap) : Prop where
  listed : ∀ loc, Listed index loc worker ↔ ∃ seqHash, map.get? seqHash = some loc
  known : ∀ seqHash loc, map.get? seqHash = some loc → (seqHash, loc) ∈ names

section Mirror
variable (mirrors : Mirrors names worker index map)
include mirrors

theorem mirrors_clear : Mirrors names worker ((map.values.map Change.drop).foldl (apply worker) index) ∅ := by
  refine ⟨fun loc => ?_, fun seqHash loc held => by cases held⟩
  rw [listed_drops, mirrors.listed, mem_values_iff]
  simp

variable (naming : Naming names)
include naming

theorem Mirrors.store {block : SequenceHash × Location} (named : block ∈ names) :
    Mirrors names worker (index.store worker block.2) (map.insert block.1 block.2) := by
  constructor
  · intro loc
    rw [listed_store, mirrors.listed]
    simp only [get?_insert, and_true]
    constructor
    · rintro (⟨seqHash, held⟩ | rfl)
      · refine ⟨seqHash, ?_⟩
        split
        · have same := (naming _ (mirrors.known seqHash loc held) block named).mp ‹_›
          exact congrArg some same.symm
        · exact held
      · exact ⟨block.1, if_pos rfl⟩
    · rintro ⟨seqHash, held⟩
      split at held
      · exact .inr (some.inj held).symm
      · exact .inl ⟨seqHash, held⟩
  · exact forall_insert mirrors.known named

/-- Dropping a held block keeps the mirror: no other hash names its location. -/
theorem Mirrors.drop {seqHash : SequenceHash} (held : map.get? seqHash = some loc) :
    Mirrors names worker (index.drop worker loc) (map.erase seqHash) := by
  have only : ∀ other, map.get? other = some loc → other = seqHash := fun other found =>
    (naming _ (mirrors.known other loc found) _ (mirrors.known seqHash loc held)).mpr rfl
  constructor
  · intro found
    rw [listed_drop, mirrors.listed]
    simp only [get?_erase, and_true]
    constructor
    · rintro ⟨⟨other, present⟩, different⟩
      refine ⟨other, ?_⟩
      rw [if_neg, present]
      rintro rfl
      rw [held] at present
      exact different (some.inj present).symm
    · rintro ⟨other, present⟩
      split at present
      · cases present
      · rename_i different
        refine ⟨⟨other, present⟩, ?_⟩
        rintro rfl
        exact different (only other present)
  · exact forall_erase mirrors.known seqHash

theorem mirrors_removes (seqHashes : List SequenceHash) : Mirrors names worker
      (((droppedLocations map seqHashes).map Change.drop).foldl (apply worker) index)
      (seqHashes.foldl erase map) := by
  induction seqHashes generalizing index map with
  | nil => exact mirrors
  | cons seqHash rest ih =>
    rw [droppedLocations, foldl_cons]
    cases held : map.get? seqHash with
    | none =>
      rw [erase_of_get?_none held]
      exact ih mirrors
    | some loc => exact ih (mirrors.drop naming held)

theorem mirrors_event (event : Event)
    (named : ∀ block ∈ assigned nextHash map event, block ∈ names) : Mirrors names worker
      ((changes nextHash map event).foldl (apply worker) index)
      (leftBlocks nextHash map event) := by
  cases event with
  | stored _ blocks parent =>
    rw [changes, foldl_map]
    exact foldl_rel (r := Mirrors names worker) mirrors fun block mem _ _ held =>
      held.store naming (named block mem)
  | removed _ seqHashes => exact mirrors_removes mirrors naming seqHashes
  | cleared _ | removeWorker _ => exact mirrors_clear mirrors

end Mirror

/-- The index, the reverse maps and the block counts are in step. -/
structure Exact (names : WorkerId → List (SequenceHash × Location)) (fleet : Fleet) : Prop where
  mirrors : ∀ worker, Mirrors (names worker) worker fleet.indexer.index (fleet.blocks worker)
  sized : ∀ worker, fleet.indexer.treeSizes worker = (fleet.blocks worker).size
  occupied : FullyOccupied fleet.indexer.index

theorem exact_start : Exact (fun _ => []) {} := by
  refine ⟨fun worker => ⟨fun loc => ?_, fun _ _ held => by cases held⟩, fun _ => rfl,
    fun _ _ held => by cases held⟩
  exact iff_of_false not_listed_empty fun ⟨_, held⟩ => by cases held

/-- The names an event adds for a worker. -/
def addedNames (fleet : Fleet) (event : Event)
    (worker : WorkerId) : List (SequenceHash × Location) :=
  if event.worker = worker then
    Fleet.assigned computeNextSeqHash (fleet.blocks worker) event else []

theorem Exact.step {names : WorkerId → List (SequenceHash × Location)} (exact : Exact names fleet) (event : Event)
    (naming : ∀ worker, Naming (names worker ++ addedNames nextHash fleet event worker)) :
    Exact (fun worker => names worker ++ addedNames nextHash fleet event worker) (fleet.step nextHash event) := by
  have effect : StepEffect nextHash event fleet _ := step_effect fleet event
  refine ⟨fun worker => ?_, effect.sized exact.sized, ?_⟩
  · have pre : Mirrors (names worker ++ addedNames nextHash fleet event worker) worker _ _ :=
      ⟨(exact.mirrors worker).listed, fun seqHash loc held =>
        mem_append_left _ ((exact.mirrors worker).known seqHash loc held)⟩
    rw [effect.index, effect.blocks]
    by_cases own : worker = event.worker
    · subst own
      rw [update_self]
      refine mirrors_event pre (naming _) event fun block mem => ?_
      exact mem_append_right _ (by rwa [addedNames, if_pos rfl])
    · rw [update_of_ne own]
      refine ⟨fun loc => ?_, pre.known⟩
      rw [listed_changes_other _ own, pre.listed]
  · rw [effect.index]
    exact occupied_changes _ exact.occupied

theorem Exact.run {names : WorkerId → List (SequenceHash × Location)} (exact : Exact names fleet)
    (events : List Event)
    (naming : ∀ worker, Naming (names worker ++ assignments nextHash worker fleet events)) :
    Exact (fun worker => names worker ++ assignments nextHash worker fleet events) (fleet.run nextHash events) := by
  induction events generalizing names fleet with
  | nil => simpa [assignments, run] using exact
  | cons event rest ih =>
    have split : ∀ worker, names worker ++ assignments nextHash worker fleet (event :: rest) =
          (names worker ++ addedNames nextHash fleet event worker) ++
            assignments nextHash worker (fleet.step nextHash event) rest :=
      fun worker => (List.append_assoc ..).symm
    simp only [split] at naming ⊢
    refine ih (exact.step event fun worker => ?_) naming
    intro first left second right
    exact naming worker first (mem_append_left _ left) second (mem_append_left _ right)

/-! ### What the other workers alone would have built -/

/-- The entry at `key` distinguishes several prefix hashes. -/
def Upgraded (index : Index) (key : Nat × ContentHash) : Prop :=
  ∃ map, index.get? key = some (.multi map)

variable {key : Nat × ContentHash} {made : Change}

/-- An upgraded entry stays upgraded for as long as it lists somebody. -/
theorem Upgraded.change (upgraded : Upgraded index key)
    (left : ∃ hash reader, Listed (made.apply worker index) ⟨key.1, key.2, hash⟩ reader) :
    Upgraded (made.apply worker index) key := by
  obtain ⟨map, held⟩ := upgraded
  cases made with
  | store loc =>
    simp only [apply, Index.store, Upgraded, get?_insert]
    split
    · rename_i same
      rw [← same, held]
      exact ⟨_, rfl⟩
    · exact ⟨map, held⟩
  | drop loc =>
    by_cases same : key = loc.key
    · subst same
      obtain ⟨hash, reader, entry, present, -⟩ := left
      have post : (index.drop worker loc).get? loc.key = _ := get?_drop held
      rw [if_pos rfl] at post
      simp only [apply, post] at present
      split at present
      · cases present
      · rename_i kept
        rw [if_neg kept] at post
        exact ⟨_, post⟩
    · exact ⟨map, (get?_drop_other same).trans held⟩

/-- An entry is upgraded by a change only when it was, or when a second prefix hash
arrives. -/
theorem Upgraded.of_change (upgraded : Upgraded (made.apply worker index) key) :
    Upgraded index key ∨ ∃ loc existing workers, made = .store loc ∧ key = loc.key ∧
      index.get? key = some (.single existing workers) ∧ existing ≠ loc.prefixHash := by
  obtain ⟨map, held⟩ := upgraded
  cases made with
  | store loc =>
    simp only [apply, Index.store, get?_insert] at held
    split at held
    · rename_i same
      rw [← same] at held
      cases pre : index.get? key with
      | none => simp [pre, SeqEntry.new] at held
      | some entry =>
        cases entry with
        | multi map => exact .inl ⟨map, pre⟩
        | single existing workers =>
          refine .inr ⟨loc, existing, workers, rfl, same, rfl, ?_⟩
          rintro rfl
          simp [pre, SeqEntry.insert] at held
    · exact .inl ⟨map, held⟩
  | drop loc =>
    by_cases same : key = loc.key
    · subst same
      cases pre : index.get? loc.key with
      | none =>
        rw [apply, drop_vacant pre, pre] at held
        cases held
      | some entry =>
        cases entry with
        | multi map => exact .inl ⟨map, pre⟩
        | single existing workers =>
          rw [apply, get?_drop pre, if_pos rfl] at held
          split at held
          · cases held
          · simp only [SeqEntry.remove] at held
            split at held <;> cases held
    · exact .inl ⟨map, (get?_drop_other same).symm.trans held⟩

theorem upgraded_store {existing : SequenceHash}
    (listed : Listed index ⟨loc.position, loc.contentHash, existing⟩ reader)
    (second : existing ≠ loc.prefixHash) :
    Upgraded (index.store worker loc) loc.key := by
  obtain ⟨entry, held, workers, found, -⟩ := listed
  simp only [Upgraded, Index.store, get?_insert, if_true, held]
  cases entry with
  | multi map => exact ⟨_, rfl⟩
  | single known others =>
    simp only [SeqEntry.get] at found
    split at found
    · rename_i same
      subst same
      exact ⟨_, by rw [SeqEntry.insert, if_neg second]⟩
    · cases found

/-- `others` is `full` without the listings of `worker`; an entry upgraded in `others`
is upgraded in `full`. -/
structure Shadows (worker : WorkerId) (full others : Index) : Prop where
  same : ∀ loc reader, reader ≠ worker → (Listed full loc reader ↔ Listed others loc reader)
  absent : ∀ loc, ¬ Listed others loc worker
  upgraded : ∀ key, Upgraded others key → Upgraded full key

variable {full others : Index}

theorem Shadows.listed (shadows : Shadows worker full others)
    (listed : Listed others loc reader) : Listed full loc reader := by
  have other : reader ≠ worker := by
    rintro rfl
    exact shadows.absent loc listed
  exact (shadows.same loc reader other).mpr listed

theorem upgraded_lists (occupied : FullyOccupied others) (upgraded : Upgraded others key) :
    ∃ hash reader, Listed others ⟨key.1, key.2, hash⟩ reader := by
  obtain ⟨map, held⟩ := upgraded
  exact occupied.get?_some_iff.mp ⟨_, held⟩

/-- The same change by another worker keeps the two indexes related. -/
theorem Shadows.change_both (shadows : Shadows worker full others) (occupied : FullyOccupied others)
    (made : Change) {author : WorkerId} (other : author ≠ worker) :
    Shadows worker (made.apply author full) (made.apply author others) := by
  have same : ∀ loc reader, reader ≠ worker → (Listed (made.apply author full) loc reader ↔
        Listed (made.apply author others) loc reader) := by
    intro loc reader outside
    cases made with
    | store changed => simp [apply, listed_store, shadows.same loc reader outside]
    | drop changed => simp [apply, listed_drop, shadows.same loc reader outside]
  have absent : ∀ loc, ¬ Listed (made.apply author others) loc worker := by
    intro loc
    cases made with
    | store changed => simp [apply, listed_store, shadows.absent loc, Ne.symm other]
    | drop changed => simp [apply, listed_drop, shadows.absent loc]
  refine ⟨same, absent, fun key upgraded => ?_⟩
  have still : FullyOccupied (made.apply author others) := occupied_changes [made] occupied
  rcases upgraded.of_change with pre | ⟨loc, existing, workers, rfl, rfl, single, second⟩
  · obtain ⟨hash, reader, listed⟩ := upgraded_lists still upgraded
    refine (shadows.upgraded key pre).change ⟨hash, reader, (same _ reader ?_).mpr listed⟩
    rintro rfl
    exact absent _ listed
  · have held : (SeqEntry.single existing workers).get existing = some workers := by
      rw [SeqEntry.get, if_pos rfl]
    obtain ⟨reader, mem⟩ := (occupied _ _ single).inhabited existing workers held
    have listed : Listed others ⟨loc.position, loc.contentHash, existing⟩ reader :=
      ⟨_, single, workers, held, mem⟩
    exact upgraded_store (shadows.listed listed) second

theorem Shadows.change_own (shadows : Shadows worker full others) (occupied : FullyOccupied others)
    (made : Change) : Shadows worker (made.apply worker full) others := by
  have same : ∀ loc reader, reader ≠ worker →
      (Listed (made.apply worker full) loc reader ↔ Listed others loc reader) := by
    intro loc reader outside
    rw [← shadows.same loc reader outside]
    exact listed_changes_other [made] outside
  refine ⟨same, shadows.absent, fun key upgraded => ?_⟩
  obtain ⟨hash, reader, listed⟩ := upgraded_lists occupied upgraded
  refine (shadows.upgraded key upgraded).change ⟨hash, reader, (same _ reader ?_).mpr listed⟩
  rintro rfl
  exact shadows.absent _ listed

/-- The fleet that sees every event and the one that does not see those of `worker`. -/
structure ShadowFleets (worker : WorkerId) (full others : Fleet) : Prop where
  shadows : Shadows worker full.indexer.index others.indexer.index
  occupied : FullyOccupied others.indexer.index
  blocks : ∀ author, author ≠ worker → others.blocks author = full.blocks author

theorem ShadowFleets.step_other {full others : Fleet} (fleets : ShadowFleets worker full others)
    (event : Event) (other : event.worker ≠ worker) : ShadowFleets worker (full.step nextHash event)
      (others.step nextHash event) := by
  have wide : StepEffect nextHash event full _ := step_effect full event
  have narrow : StepEffect nextHash event others _ := step_effect others event
  have indexes : Shadows worker (full.step nextHash event).indexer.index (others.step nextHash event).indexer.index ∧
        FullyOccupied (others.step nextHash event).indexer.index := by
    rw [wide.index, narrow.index, fleets.blocks event.worker other]
    exact foldl_rel (r := fun wide narrow => Shadows worker wide narrow ∧ FullyOccupied narrow)
      ⟨fleets.shadows, fleets.occupied⟩ fun change _ _ _ ⟨shadows, occupied⟩ =>
        ⟨shadows.change_both occupied change other, occupied_changes [change] occupied⟩
  refine ⟨indexes.1, indexes.2, fun author outside => ?_⟩
  · rw [wide.blocks, narrow.blocks, fleets.blocks event.worker other]
    by_cases own : author = event.worker
    · rw [own, update_self, update_self]
    · rw [update_of_ne own, update_of_ne own, fleets.blocks author outside]

theorem ShadowFleets.step_own {full others : Fleet} (fleets : ShadowFleets worker full others)
    (event : Event) (own : event.worker = worker) :
    ShadowFleets worker (full.step nextHash event) others := by
  have wide : StepEffect nextHash event full _ := step_effect full event
  refine ⟨?_, fleets.occupied, fun author outside => ?_⟩
  · rw [wide.index, own]
    refine foldlRecOn (motive := (Shadows worker · others.indexer.index)) _ _ fleets.shadows ?_
    exact fun index shadows change _ => shadows.change_own fleets.occupied change
  · rw [wide.blocks, own, update_of_ne outside, fleets.blocks author outside]

theorem ShadowFleets.run {full others : Fleet} (fleets : ShadowFleets worker full others)
    (events : List Event) : ShadowFleets worker (full.run nextHash events)
      (others.run nextHash (events.filter fun event => event.worker ≠ worker)) := by
  induction events generalizing full others with
  | nil => exact fleets
  | cons event rest ih =>
    by_cases own : event.worker = worker
    · rw [filter_cons_of_neg (by simpa using own)]
      exact ih (fleets.step_own event own)
    · rw [filter_cons_of_pos (by simpa using own)]
      exact ih (fleets.step_other event own)

theorem shadowFleets_start (worker : WorkerId) : ShadowFleets worker {} {} := by
  refine ⟨⟨fun _ _ _ => Iff.rfl, fun _ => not_listed_empty, ?_⟩, ?_, fun _ _ => rfl⟩
  · rintro key ⟨map, held⟩
    cases held
  · intro key entry held
    cases held

/-- An entry is the one it is compared with, or that one upgraded: the same workers
under the same prefix hashes, and upgraded at least where the other is. -/
structure Restores (actual alone : SeqEntry) : Prop where
  workers : ∀ hash, Rel (fun first second => ∀ worker, worker ∈ first ↔ worker ∈ second)
    (actual.get hash) (alone.get hash)
  upgraded : alone.workersIfSingle = none → actual.workersIfSingle = none

theorem rel_of_both {α β : Type} {r : α → β → Prop} {first : Option α} {second : Option β}
    (together : (∃ left, first = some left) ↔ ∃ right, second = some right)
    (both : ∀ left right, first = some left → second = some right → r left right) :
    Rel r first second := by
  cases first with
  | some left =>
    obtain ⟨right, rfl⟩ := together.mp ⟨left, rfl⟩
    exact .some (both left right rfl rfl)
  | none =>
    cases second with
    | none => exact .none
    | some right => simp at together

theorem restores_workers {actual alone : SeqEntry} (occupied : Occupied actual)
    (occupiedAlone : Occupied alone)
    (same : ∀ hash reader, Lists actual hash reader ↔ Lists alone hash reader)
    (hash : SequenceHash) :
    Rel (fun first second => ∀ worker, worker ∈ first ↔ worker ∈ second) (actual.get hash) (alone.get hash) := by
  have lists {entry : SeqEntry} (occupied : Occupied entry) :
      (∃ workers, entry.get hash = some workers) ↔ ∃ reader, Lists entry hash reader := by
    constructor
    · rintro ⟨workers, held⟩
      obtain ⟨reader, mem⟩ := occupied.inhabited hash workers held
      exact ⟨reader, workers, held, mem⟩
    · rintro ⟨_, workers, held, -⟩
      exact ⟨workers, held⟩
  refine rel_of_both ?_ fun first second left right reader => ?_
  · rw [lists occupied, lists occupiedAlone]
    simp only [same]
  · simpa [EventTreeProofs.Lists, left, right] using same hash reader

theorem restores_index {actual alone : Index} (occupied : FullyOccupied actual) (occupiedAlone : FullyOccupied alone)
    (same : ∀ loc reader, Listed actual loc reader ↔ Listed alone loc reader)
    (upgraded : ∀ key, Upgraded alone key → Upgraded actual key) (key : Nat × ContentHash) :
    Rel Restores (actual.get? key) (alone.get? key) := by
  refine rel_of_both ?_ fun entry alone held other =>
    ⟨restores_workers (occupied key entry held) (occupiedAlone key alone other) ?_, fun several => ?_⟩
  · rw [occupied.get?_some_iff, occupiedAlone.get?_some_iff]
    simp only [same]
  · intro hash reader
    simpa [Listed, held, other] using same ⟨key.1, key.2, hash⟩ reader
  · cases alone with
    | single existing workers => cases several
    | multi map =>
      obtain ⟨wider, found⟩ := upgraded key ⟨map, other⟩
      rw [held] at found
      cases found
      rfl

variable {computeNextSeqHash : UInt64 → UInt64 → UInt64}

/-- Two workers store the same second block after different first ones. -/
def diverging : List Event :=
  [.stored 1 [⟨⟨11⟩, ⟨1⟩⟩, ⟨⟨12⟩, ⟨5⟩⟩] none, .stored 2 [⟨⟨21⟩, ⟨2⟩⟩, ⟨⟨22⟩, ⟨5⟩⟩] none]

theorem diverging_naming (worker : WorkerId) :
    Naming (assignments (fun previous current => previous * 31 + current) worker {} diverging) := by
  by_cases first : worker = 1
  · subst first
    decide
  · by_cases second : worker = 2
    · subst second
      decide
    · simp [diverging, assignments, Event.worker, Ne.symm first, Ne.symm second, Naming]

end ModelGateway.EventTreeRuns
