import ModelGateway.CrdtMap

/-! The collection of store changes once per gossip round (`collector.rs`) and the senders that
filter each collected batch for one peer (`controller.rs`). A state is its serialized bytes and
its version; clock readings, the updates of the tree caches and those of the rate-limit shards
are given to a scan. -/
namespace ModelGateway.Collector
open CrdtMap Function

inductive StoreType
  | membership
  | app
  | worker
  | policy
  | rateLimit
  deriving DecidableEq, Repr

structure StateUpdate where
  key : String
  value : List UInt8
  version : Nat
  actor : String
  timestamp : Nat
  deriving DecidableEq, Repr

/-- A `WorkerState`, `PolicyState`, `AppState` or `MembershipState`, serialized. -/
structure State where
  bytes : List UInt8
  version : Nat
  deriving DecidableEq, Repr

abbrev StateStore := KvStore String State

def isTreeKey (key : String) : Bool := "tree:".toList.isPrefixOf key.toList

/-! ### Collecting -/

/-- `LastScannedGenerations`, without the tree generation. -/
abbrev Generations := StoreType → Nat

/-- What the stores do not hold: the updates for the trees that changed, and the rate-limit
shards this node owns. -/
structure Extras where
  trees : List StateUpdate
  shards : List StateUpdate

def stateUpdate (selfName : String) (timestamp : Nat) (entry : String × State) : StateUpdate :=
  ⟨entry.1, entry.2.bytes, entry.2.version, selfName, timestamp⟩

def collectSerializableStore (selfName : String) (timestamp : Nat) (store : StateStore) :
    List StateUpdate :=
  store.entries.toList.map (stateUpdate selfName timestamp)

def collectPolicyStore (selfName : String) (timestamp : Nat) (policyChanged : Bool) (store : StateStore)
    (trees : List StateUpdate) : List StateUpdate :=
  (if policyChanged then
    (store.entries.toList.filter fun entry => !isTreeKey entry.1).map (stateUpdate selfName timestamp)
  else []) ++ trees

def collectStore (selfName : String) (timestamp : Nat) (stores : StoreType → StateStore)
    (snapshot lastScanned : Generations) (extras : Extras) (storeType : StoreType) : List StateUpdate :=
  match storeType with
  | .policy => collectPolicyStore selfName timestamp (snapshot .policy != lastScanned .policy)
      (stores .policy) extras.trees
  | .rateLimit => extras.shards
  | other => if snapshot other = lastScanned other then []
      else collectSerializableStore selfName timestamp (stores other)

/-- `RoundBatch::updates`. -/
abbrev RoundBatch := List (StoreType × List StateUpdate)

def storeOrder : List StoreType := [.worker, .policy, .app, .membership, .rateLimit]

/-- The non-empty stores in the order they are scanned. -/
def roundBatch (updates : StoreType → List StateUpdate) : RoundBatch :=
  storeOrder.filterMap fun storeType =>
    if (updates storeType).isEmpty then none else some (storeType, updates storeType)

/-! ### Sending -/

def rateLimitLastSentKey (key actor : String) : String := key ++ "::actor:" ++ actor

/-- The key under which the watermark of an update is kept. -/
def lastSentKey (storeType : StoreType) (update : StateUpdate) : String :=
  match storeType with
  | .rateLimit => rateLimitLastSentKey update.key update.actor
  | _ => update.key

/-- `PeerWatermark::last_sent`. -/
abbrev LastSentVersions := StoreType → KeyedMap String Nat

variable (lastSent : LastSentVersions)

def LastSentVersions.version (storeType : StoreType) (key : String) : Nat :=
  ((lastSent storeType).get? key).getD 0

/-- `PeerWatermark::should_send`. -/
def shouldSend (storeType : StoreType) (update : StateUpdate) : Bool :=
  lastSent.version storeType (lastSentKey storeType update) < update.version

/-- `PeerWatermark::filter`. -/
def filterBatch (batch : RoundBatch) : RoundBatch :=
  batch.filterMap fun entry =>
    let peerUpdates := entry.2.filter (shouldSend lastSent entry.1)
    if peerUpdates.isEmpty then none else some (entry.1, peerUpdates)

/-- `PeerWatermark::mark_sent`. -/
def markSent (storeType : StoreType) (updates : List StateUpdate) :
    LastSentVersions :=
  update lastSent storeType (updates.foldl (fun versions update =>
    versions.insert (lastSentKey storeType update) update.version) (lastSent storeType))

/-- The task that sends to one peer: its watermark, and what the channel took of each store. -/
structure Sender where
  lastSent : LastSentVersions
  sent : StoreType → List StateUpdate

/-- `PeerWatermark::new`. -/
def Sender.new : Sender := ⟨fun _ => ∅, fun _ => []⟩

/-- What `try_send` answers. -/
inductive TrySend
  | ok
  | full
  | closed
  deriving DecidableEq, Repr

def maxMessageSize : Nat := 10 * 1024 * 1024

def batchSize (updates : List StateUpdate) : Nat := (updates.map fun update => update.value.length).sum

/-- The loop of a send round over the filtered batch. -/
def sendLoop (answer : StoreType → TrySend) : RoundBatch → Sender → Sender
  | [], sender => sender
  | (storeType, updates) :: rest, sender =>
    if maxMessageSize < batchSize updates then
      -- an oversized batch without tree updates counts as sent, so that it is not retried
      if updates.any fun update => isTreeKey update.key then sendLoop answer rest sender
      else sendLoop answer rest { sender with lastSent := markSent sender.lastSent storeType updates }
    else match answer storeType with
      | .ok => sendLoop answer rest
          ⟨markSent sender.lastSent storeType updates,
            update sender.sent storeType (sender.sent storeType ++ updates)⟩
      | .full => sendLoop answer rest sender
      | .closed => sender

def sendRound (answer : StoreType → TrySend) (batch : RoundBatch) (sender : Sender) : Sender :=
  sendLoop answer (filterBatch sender.lastSent batch) sender

/-! ### Rounds -/

/-- Where the collector is in a gossip round. -/
inductive Phase
  | idle
  | snapshotted
  | scanned
  deriving DecidableEq, Repr

/-- A gateway: its stores, its collector, the current batch and a sender for each peer. -/
structure Gateway where
  stores : StoreType → StateStore
  lastScanned : Generations
  collectedGenerations : Generations
  phase : Phase
  currentBatch : RoundBatch
  senders : List Sender

def Gateway.new : Gateway := ⟨fun _ => {}, fun _ => 0, fun _ => 0, .idle, [], []⟩

/-- The steps that may interleave. A gossip round is `snapshot`, `scan` (the store reads and
the publication of the batch) and `advance`. -/
inductive Step
  | write (storeType : StoreType) (key : String) (state : State)
  | remove (storeType : StoreType) (key : String)
  | snapshot
  | scan (selfName : String) (timestamp : Nat) (extras : Extras)
  | advance
  | connect
  | send (peer : Nat) (answer : StoreType → TrySend)

/-- When a step can be taken. Tree updates have tree keys. -/
def Step.Enabled (gateway : Gateway) : Step → Prop
  | .snapshot => gateway.phase = .idle
  | .scan _ _ extras => gateway.phase = .snapshotted ∧
      ∀ update ∈ extras.trees, isTreeKey update.key = true
  | .advance => gateway.phase = .scanned
  | .send peer _ => peer < gateway.senders.length
  | _ => True

def Step.run (gateway : Gateway) : Step → Gateway
  | .write storeType key state => { gateway with
      stores := update gateway.stores storeType ((gateway.stores storeType).insert key state) }
  | .remove storeType key => { gateway with
      stores := update gateway.stores storeType ((gateway.stores storeType).remove key) }
  | .snapshot => { gateway with
      collectedGenerations := fun storeType => (gateway.stores storeType).generation
      phase := .snapshotted }
  | .scan selfName timestamp extras => { gateway with
      currentBatch := roundBatch (collectStore selfName timestamp gateway.stores
        gateway.collectedGenerations gateway.lastScanned extras)
      phase := .scanned }
  | .advance => { gateway with lastScanned := gateway.collectedGenerations, phase := .idle }
  | .connect => { gateway with senders := gateway.senders ++ [.new] }
  | .send peer answer => { gateway with
      senders := gateway.senders.modify peer (sendRound answer gateway.currentBatch) }

/-- The gateways reached by runs whose steps are all allowed where they are taken. -/
inductive Reachable (allowed : Gateway → Step → Prop) : Gateway → Prop
  | new : Reachable allowed .new
  | step {gateway : Gateway} (step : Step) : Reachable allowed gateway → step.Enabled gateway →
      allowed gateway step → Reachable allowed (step.run gateway)

end ModelGateway.Collector
