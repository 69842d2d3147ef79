import ModelGateway.EventTreeRuns

/-! One worker's KV event subscription (`worker/kv_event_monitor.rs`): how the batches of a stream
are judged by the last sequence number and applied to the shared positional indexer, over every run
of connections that end, fail, skip batches or replay them. -/
namespace ModelGateway.KvSubscription
open EventTree EventTreeProofs EventTreeRuns List Function PositionalIndexer Int64

structure KvBlock where
  blockHash : Int64
  tokenIds : List UInt32

structure KvBlocksStored where
  blocks : List KvBlock
  parentBlockHash : Option Int64

structure KvBlocksRemoved where
  blockHashes : List Int64

/-- The payload of an event. -/
inductive Data where
  | stored (stored : KvBlocksStored)
  | removed (removed : KvBlocksRemoved)
  | cleared

structure KvCacheEvent where
  data : Option Data

structure KvEventBatch where
  sequenceNumber : Nat
  events : List KvCacheEvent

/-- The hash functions of the indexer, which come from another package. -/
structure Hashing where
  computeNextSeqHash : UInt64 → UInt64 → UInt64
  computeContentHash : List UInt32 → ContentHash

section
variable (hashing : Hashing) (worker : WorkerId)

def sequenceHash (value : Int64) : SequenceHash := ⟨value.toUInt64⟩

def convertKvBlock (block : KvBlock) : StoredBlock where
  seqHash := sequenceHash block.blockHash
  contentHash := hashing.computeContentHash block.tokenIds

/-- A store event whose parent is unknown is stored as the start of a chain. -/
def applyStored (stored : KvBlocksStored) (indexer : PositionalIndexer)
    (workerBlocks : WorkerBlockMap) : PositionalIndexer × WorkerBlockMap :=
  let blocks := stored.blocks.map (convertKvBlock hashing)
  let parentSeqHash := stored.parentBlockHash.map sequenceHash
  match indexer.applyStored hashing.computeNextSeqHash worker blocks parentSeqHash workerBlocks with
  | .ok applied => applied
  | .error _ =>
    match indexer.applyStored hashing.computeNextSeqHash worker blocks none workerBlocks with
    | .ok applied => applied
    | .error _ => (indexer, workerBlocks)

def applyRemoved (removed : KvBlocksRemoved) (indexer : PositionalIndexer)
    (workerBlocks : WorkerBlockMap) : PositionalIndexer × WorkerBlockMap :=
  indexer.applyRemoved worker (removed.blockHashes.map sequenceHash) workerBlocks

def applyEvent (event : KvCacheEvent) (indexer : PositionalIndexer)
    (workerBlocks : WorkerBlockMap) : PositionalIndexer × WorkerBlockMap :=
  match event.data with
  | none => (indexer, workerBlocks)
  | some (.stored stored) => applyStored hashing worker stored indexer workerBlocks
  | some (.removed removed) => applyRemoved worker removed indexer workerBlocks
  | some .cleared => indexer.applyCleared worker workerBlocks

/-- An event of the worker, on the shared indexer and the worker's own map. -/
def applyTo (fleet : Fleet) (event : KvCacheEvent) : Fleet :=
  let (indexer, left) := applyEvent hashing worker event fleet.indexer (fleet.blocks worker)
  ⟨indexer, update fleet.blocks worker left⟩

def applyBatch (fleet : Fleet) (events : List KvCacheEvent) : Fleet :=
  events.foldl (applyTo hashing worker) fleet

end

/-- What `process_stream` makes of a batch. -/
inductive Verdict where
  | stale
  | gap (expected received : Nat)
  | apply
  deriving DecidableEq, Repr

/-- The tests of `process_stream`, in their order. -/
def judge (lastSeq sequenceNumber : Nat) : Verdict :=
  if 0 < lastSeq ∧ sequenceNumber ≤ lastSeq then .stale
  else if 0 < lastSeq ∧ lastSeq + 1 < sequenceNumber then .gap (lastSeq + 1) sequenceNumber
  else .apply

/-- Where the subscription loop is: between two connections, in `process_stream`, or ended. -/
inductive Connection where
  | down
  | streaming
  | ended
  deriving DecidableEq, Repr

/-- The subscription loop of one worker beside the indexer it shares with the others. -/
structure Subscription where
  fleet : Fleet
  lastSeq : Nat := 0
  connection : Connection := .down

/-- `subscribed` is a successful `subscribe_kv_events`; `refused` one that is retried after a delay;
`closed` the end or an error of the stream; `shutdown` also stands for an unimplemented RPC. -/
inductive Step where
  | subscribed
  | refused
  | received (batch : KvEventBatch)
  | closed
  | shutdown
  | other (event : Event)

namespace Subscription
variable (hashing : Hashing) (worker : WorkerId)

/-- One turn of the loop of `process_stream`; a gap ends the connection. -/
def processBatch (self : Subscription) (batch : KvEventBatch) : Subscription :=
  match judge self.lastSeq batch.sequenceNumber with
  | .stale => self
  | .gap _ _ => { self with connection := .down }
  | .apply =>
    { self with fleet := applyBatch hashing worker self.fleet batch.events
                lastSeq := batch.sequenceNumber }

def step (self : Subscription) : Step → Subscription
  | .subscribed => { self with connection := .streaming }
  | .refused => self
  | .received batch => self.processBatch hashing worker batch
  | .closed => { self with connection := .down }
  | .shutdown =>
    { self with fleet := self.fleet.step hashing.computeNextSeqHash (.removeWorker worker)
                connection := .ended }
  | .other event => { self with fleet := self.fleet.step hashing.computeNextSeqHash event }

/-- What may happen next, when the backend has published these events under each number: any
published batch may arrive on a connection, also again and also with others left out. -/
def Enabled (published : Nat → List KvCacheEvent) (self : Subscription) : Step → Prop
  | .subscribed | .refused => self.connection = .down
  | .received batch =>
    self.connection = .streaming ∧ batch.events = published batch.sequenceNumber
  | .closed => self.connection = .streaming
  | .shutdown => self.connection ≠ .ended
  | .other event => event.worker ≠ worker

/-- The numbers of the batches applied so far, after one more step. -/
def history (applied : List Nat) (self : Subscription) : Step → List Nat
  | .received batch =>
    if judge self.lastSeq batch.sequenceNumber = .apply then applied ++ [batch.sequenceNumber]
    else applied
  | _ => applied

end Subscription

/-- No block of the worker is in the indexer. -/
def Unlisted (worker : WorkerId) (fleet : Fleet) : Prop :=
  fleet.blocks worker = ∅ ∧ ∀ loc, ¬ Listed fleet.indexer.index loc worker

theorem unlisted_empty (worker : WorkerId) : Unlisted worker {} := ⟨rfl, fun _ => not_listed_empty⟩

/-- The states the subscription of a worker reaches, with the numbers of the batches it has applied,
when every step is an allowed one. -/
inductive Reached (hashing : Hashing) (worker : WorkerId) (published : Nat → List KvCacheEvent)
    (allowed : List Nat → Step → Prop) : Subscription → List Nat → Prop
  | start (fleet : Fleet) (fresh : Unlisted worker fleet) :
    Reached hashing worker published allowed { fleet := fleet } []
  | step {self : Subscription} {applied : List Nat} (next : Step)
    (pre : Reached hashing worker published allowed self applied)
    (enabled : self.Enabled worker published next) (permitted : allowed applied next) :
    Reached hashing worker published allowed (self.step hashing worker next) (self.history applied next)

/-- The fleet after the published batches with these numbers and nothing else. -/
def replay (hashing : Hashing) (worker : WorkerId) (published : Nat → List KvCacheEvent)
    (numbers : List Nat) : Fleet :=
  numbers.foldl (fun fleet number => applyBatch hashing worker fleet (published number)) {}

/-- Two fleets hold the same blocks of a worker: in its own map and in the shared index. -/
structure SameBlocks (worker : WorkerId) (first second : Fleet) : Prop where
  blocks : first.blocks worker = second.blocks worker
  listed : ∀ loc, Listed first.indexer.index loc worker ↔ Listed second.indexer.index loc worker

/-! ### What an event does depends on the worker's own blocks only -/

section
variable {hashing : Hashing} {worker : WorkerId} {first second : Fleet} {indexer : PositionalIndexer}
  {blocks : List StoredBlock} {parent : Option SequenceHash} {workerBlocks : WorkerBlockMap}

theorem listed_changes_congr (made : List Change) {one other : Index}
    (same : ∀ loc, Listed one loc worker ↔ Listed other loc worker)
    (loc : Location) : Listed (made.foldl (Change.apply worker) one) loc worker ↔
      Listed (made.foldl (Change.apply worker) other) loc worker := by
  induction made generalizing one other with
  | nil => exact same loc
  | cons change rest ih =>
    apply ih
    intro loc
    cases change with
    | store stored => simp only [Change.apply, listed_store, same]
    | drop dropped => simp only [Change.apply, listed_drop, same]

theorem SameBlocks.step (same : SameBlocks worker first second) {event : Event}
    (own : event.worker = worker) : SameBlocks worker (first.step hashing.computeNextSeqHash event)
      (second.step hashing.computeNextSeqHash event) := by
  have one := @step_effect hashing.computeNextSeqHash first event
  have other := @step_effect hashing.computeNextSeqHash second event
  subst own
  constructor
  · rw [one.blocks, other.blocks, update_self, update_self, same.blocks]
  · rw [one.index, other.index, same.blocks]
    exact listed_changes_congr _ same.listed

theorem SameBlocks.step_other (same : SameBlocks worker first second) {event : Event}
    (foreign : event.worker ≠ worker) :
    SameBlocks worker (first.step hashing.computeNextSeqHash event) second := by
  have effect := @step_effect hashing.computeNextSeqHash first event
  constructor
  · rw [effect.blocks, update_of_ne foreign.symm, same.blocks]
  · intro loc
    rw [effect.index, listed_changes_other _ foreign.symm]
    exact same.listed loc

/-- The indexer event that an event of the stream amounts to, for a worker with these blocks. -/
def asEvent (hashing : Hashing) (worker : WorkerId) (workerBlocks : WorkerBlockMap) :
    Data → Event
  | .stored stored =>
    let parentSeqHash := stored.parentBlockHash.map sequenceHash
    .stored worker (stored.blocks.map (convertKvBlock hashing)) (match resolveParent parentSeqHash workerBlocks with
        | .ok _ => parentSeqHash
        | .error _ => none)
  | .removed removed => .removed worker (removed.blockHashes.map sequenceHash)
  | .cleared => .cleared worker

theorem applyStored_eq (stored : KvBlocksStored) (indexer : PositionalIndexer)
    (workerBlocks : WorkerBlockMap) :
    indexer.applyStored hashing.computeNextSeqHash worker (stored.blocks.map (convertKvBlock hashing))
      (match resolveParent (stored.parentBlockHash.map sequenceHash) workerBlocks with
        | .ok _ => stored.parentBlockHash.map sequenceHash
        | .error _ => none) workerBlocks = .ok (applyStored hashing worker stored indexer workerBlocks) := by
  unfold applyStored PositionalIndexer.applyStored
  -- a parent that does not resolve is only noticed when there is something to store
  cases empty : (stored.blocks.map (convertKvBlock hashing)).isEmpty with
  | true => simp only [empty, if_true]
  | false =>
    simp only [empty, Bool.false_eq_true, if_false]
    cases resolved : resolveParent (stored.parentBlockHash.map sequenceHash) workerBlocks with
    | ok found => simp only [resolved]
    | error err => rfl

theorem applyTo_eq (fleet : Fleet) (event : KvCacheEvent) : applyTo hashing worker fleet event =
      match event.data with
      | none => fleet
      | some data => fleet.step hashing.computeNextSeqHash
          (asEvent hashing worker (fleet.blocks worker) data) := by
  unfold applyTo applyEvent
  rcases event with ⟨_ | (stored | removed | _)⟩
  · exact congrArg (Fleet.mk _) (update_eq_self ..)
  · unfold Fleet.step asEvent
    simp only [applyStored_eq]
  · rfl
  · rfl

theorem SameBlocks.applyBatch (same : SameBlocks worker first second) (events : List KvCacheEvent) :
    SameBlocks worker (applyBatch hashing worker first events) (applyBatch hashing worker second events) := by
  induction events generalizing first second with
  | nil => exact same
  | cons event rest ih =>
    apply ih
    rw [applyTo_eq, applyTo_eq]
    cases event.data with
    | none => exact same
    | some data =>
      rw [same.blocks]
      exact same.step (by cases data <;> rfl)

theorem replay_append (published : Nat → List KvCacheEvent) (numbers : List Nat) (number : Nat) :
    replay hashing worker published (numbers ++ [number]) =
      applyBatch hashing worker (replay hashing worker published numbers) (published number) := by
  unfold replay
  rw [foldl_append]
  rfl

end

/-! ### Every state applies a contiguous run of batches -/

theorem judge_apply {lastSeq number : Nat} (applies : judge lastSeq number = .apply) :
    lastSeq = 0 ∨ number = lastSeq + 1 := by
  unfold judge at applies
  split at applies
  · cases applies
  · split at applies
    · cases applies
    · omega

/-- While batch 0 is the last batch applied, the batch that arrives next is batch 1. -/
def OneAfterZero (applied : List Nat) (next : Step) : Prop :=
  ∀ batch, next = .received batch → applied.getLast? = some 0 → batch.sequenceNumber = 1

section
variable {hashing : Hashing} {worker : WorkerId} {published : Nat → List KvCacheEvent}
  {allowed : List Nat → Step → Prop} {self : Subscription}

/-- The blocks that the worker should have after these batches. -/
def expected (hashing : Hashing) (worker : WorkerId) (published : Nat → List KvCacheEvent)
    (connection : Connection) (applied : List Nat) : Fleet :=
  match connection with
  | .ended => (replay hashing worker published applied).step hashing.computeNextSeqHash
      (.removeWorker worker)
  | _ => replay hashing worker published applied

open Subscription (processBatch history)

/-- The worker's blocks are those of the batches applied, in order. -/
theorem Reached.sameBlocks {applied : List Nat} (reached : Reached hashing worker published allowed self applied) :
    SameBlocks worker self.fleet (expected hashing worker published self.connection applied) := by
  induction reached with
  | start fleet fresh =>
    exact ⟨fresh.1, fun loc => iff_of_false (fresh.2 loc) ((unlisted_empty worker).2 loc)⟩
  | @step self applied next pre enabled permitted ih =>
    cases next with
    | subscribed | closed =>
      rw [show self.connection = _ from enabled] at ih
      exact ih
    | refused => exact ih
    | shutdown =>
      refine @SameBlocks.step hashing worker _ (replay hashing worker published applied) ?_ (.removeWorker worker) rfl
      cases open_ : self.connection with
      | ended => exact absurd open_ enabled
      | down | streaming => rwa [open_] at ih
    | other event => exact ih.step_other enabled
    | received batch =>
      obtain ⟨streaming, listed⟩ := enabled
      rw [streaming] at ih
      simp only [Subscription.step, processBatch, history]
      cases verdict : judge self.lastSeq batch.sequenceNumber with
      | stale =>
        rw [if_neg (by decide), streaming]
        exact ih
      | gap _ _ =>
        rw [if_neg (by simp)]
        exact ih
      | apply =>
        rw [if_pos rfl, streaming]
        show SameBlocks worker _ (replay hashing worker published _)
        rw [replay_append, listed]
        exact ih.applyBatch _

/-- The last sequence number is that of the last batch applied, and the batches applied follow each
other. -/
theorem Reached.contiguous {applied : List Nat}
    (reached : Reached hashing worker published OneAfterZero self applied) :
    (applied = [] ∧ self.lastSeq = 0) ∨
      ∃ start count, applied = range' start (count + 1) ∧ self.lastSeq = start + count := by
  induction reached with
  | start => exact .inl ⟨rfl, rfl⟩
  | @step self applied next pre enabled permitted ih =>
    cases next with
    | subscribed | refused | closed | shutdown | other event => exact ih
    | received batch =>
      simp only [Subscription.step, processBatch, history]
      cases verdict : judge self.lastSeq batch.sequenceNumber with
      | stale | gap _ _ => simpa using ih
      | apply =>
        rw [if_pos rfl]
        right
        rcases ih with ⟨rfl, -⟩ | ⟨start, count, rfl, last⟩
        · exact ⟨batch.sequenceNumber, 0, rfl, rfl⟩
        · have next : batch.sequenceNumber = start + (count + 1) := by
            rcases judge_apply verdict with zero | follows
            · -- the number 0 also stands for nothing received; here it is batch 0
              have first : start = 0 ∧ count = 0 := by omega
              have one := permitted batch rfl (by rw [first.1, first.2]; rfl)
              omega
            · omega
          have grown : range' start (count + 2) = range' start (count + 1) ++ [start + (count + 1)] := by
            rw [range'_concat, Nat.one_mul]
          exact ⟨start, count + 1, by rw [next, grown], next⟩

/-- The worker's blocks are always the result of a contiguous run of the published batches, each
applied once, if only batch 1 arrives after batch 0. -/
theorem blocks_follow_published {self : Subscription} {applied : List Nat}
    (reached : Reached hashing worker published OneAfterZero self applied) :
    ∃ start count, applied = range' start count ∧
      SameBlocks worker self.fleet (expected hashing worker published self.connection (range' start count)) := by
  have same := reached.sameBlocks
  rcases reached.contiguous with ⟨rfl, -⟩ | ⟨start, count, rfl, -⟩
  · exact ⟨0, 0, rfl, same⟩
  · exact ⟨start, count + 1, rfl, same⟩

/-- Hash functions for closed runs. -/
def sampleHashing : Hashing := ⟨fun pre content => pre + content, fun _ => ⟨0⟩⟩

/-- Three batches that each store one block as the start of a chain. -/
def threeBlocks (number : Nat) : List KvCacheEvent :=
  if number < 3 then [⟨some (.stored ⟨[⟨ofNat number, []⟩], none⟩)⟩] else []

theorem reached_received {fleet : Fleet} {lastSeq number : Nat} {applied : List Nat}
    (pre : Reached sampleHashing 0 threeBlocks allowed ⟨fleet, lastSeq, .streaming⟩ applied)
    (permitted : allowed applied (.received ⟨number, threeBlocks number⟩))
    (applies : judge lastSeq number = .apply) : Reached sampleHashing 0 threeBlocks allowed
      ⟨applyBatch sampleHashing 0 fleet (threeBlocks number), number, .streaming⟩
      (applied ++ [number]) := by
  have post := pre.step (.received ⟨number, threeBlocks number⟩) ⟨rfl, rfl⟩ permitted
  simpa only [Subscription.step, processBatch, history, applies, if_true] using post

theorem reached_connected (permitted : allowed [] .subscribed) :
    Reached sampleHashing 0 threeBlocks allowed ⟨{}, 0, .streaming⟩ [] :=
  (Reached.start {} (unlisted_empty 0)).step .subscribed rfl permitted

theorem two_batches_follow : ∃ self, Reached sampleHashing 0 threeBlocks OneAfterZero self [0, 1] ∧
      ∃ start count, [0, 1] = range' start count ∧
        SameBlocks 0 self.fleet (expected sampleHashing 0 threeBlocks self.connection (range' start count)) := by
  have connected : Reached sampleHashing 0 threeBlocks OneAfterZero ⟨{}, 0, .streaming⟩ [] :=
    reached_connected (by rintro _ ⟨⟩)
  have first := @reached_received _ _ _ 0 _ connected (by rintro _ _ ⟨⟩) rfl
  have second := @reached_received _ _ _ 1 _ first (by rintro _ ⟨⟩ _; rfl) rfl
  exact ⟨_, second, blocks_follow_published second⟩

theorem held_replay {block : Nat} (small : block < 3) (numbers : List Nat) :
    (((replay sampleHashing 0 threeBlocks numbers).blocks 0).get?
        (sequenceHash (ofNat block))).isSome ↔ block ∈ numbers := by
  induction numbers using List.reverseRecOn with
  | nil => simp [replay]
  | append_singleton numbers number ih =>
    rw [replay_append]
    by_cases stores : number < 3
    · have blocks : (applyBatch sampleHashing 0 (replay sampleHashing 0 threeBlocks numbers)
          (threeBlocks number)).blocks 0 =
          ((replay sampleHashing 0 threeBlocks numbers).blocks 0).insert
            (sequenceHash (ofNat number)) ⟨0, ⟨0⟩, ⟨0⟩⟩ := by
        rw [threeBlocks, if_pos stores]
        rfl
      have injective : ∀ one < 3, ∀ other < 3,
          sequenceHash (ofNat one) = sequenceHash (ofNat other) → one = other := by
        decide
      rw [blocks, KeyedMap.get?_insert, mem_append, mem_singleton, ← ih]
      by_cases same : block = number
      · simp [same]
      · rw [if_neg fun equal => same (injective _ small _ stores equal)]
        simp [same]
    · have none_stored : threeBlocks number = [] := if_neg stores
      rw [none_stored, mem_append, mem_singleton, ← ih]
      have other : block ≠ number := by omega
      simp [applyBatch, other]

/-- Batch 2 is applied after batch 0, whose number also stands for nothing received: no contiguous
run of batches leaves the blocks the worker then has. -/
theorem skipped_batch_applied : ∃ self, Reached sampleHashing 0 threeBlocks (fun _ _ => True) self [0, 2] ∧
      ∀ start count, ¬ SameBlocks 0 self.fleet
        (expected sampleHashing 0 threeBlocks self.connection (range' start count)) := by
  have connected : Reached sampleHashing 0 threeBlocks (fun _ _ => True) ⟨{}, 0, .streaming⟩ [] :=
    reached_connected trivial
  have first := @reached_received _ _ _ 0 _ connected trivial rfl
  have second := @reached_received _ _ _ 2 _ first trivial rfl
  refine ⟨_, second, fun start count same => ?_⟩
  have blocks : (replay sampleHashing 0 threeBlocks [0, 2]).blocks 0 =
      (replay sampleHashing 0 threeBlocks (range' start count)).blocks 0 := same.blocks
  have held {block : Nat} (small : block < 3) : block ∈ [0, 2] ↔ block ∈ range' start count := by
    rw [← held_replay small, ← held_replay small, blocks]
  have zero := (held (by decide : 0 < 3)).mp (by decide)
  have two := (held (by decide : 2 < 3)).mp (by decide)
  have one := (held (by decide : 1 < 3)).not.mp (by decide)
  simp only [mem_range'_1] at zero two one
  omega

end

end ModelGateway.KvSubscription
