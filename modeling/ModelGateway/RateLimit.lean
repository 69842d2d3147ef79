import ModelGateway.CrdtMap

/-! The rate-limit counters: `RateLimitStore` (`stores.rs`), the rate-limit calls of `sync.rs`, the
collection of the shards (`collector.rs`) and their receipt (`controller.rs`). A counter has one
shard for each actor, an entry of the replicated map. Counter values are `i64` and wrap. The hash
ring and the replica ids made for actors are given with a store; the instants that only the
collection of tombstones reads are 0. -/
namespace ModelGateway.RateLimit
open CrdtMap CrdtOperation

/-! ### Shard keys -/

def shardSeparator : String := "::actor:"

def shardKey (key actor : String) : String := key ++ shardSeparator ++ actor

/-- `rsplit_once`: what stands before and after the last occurrence. -/
def rsplitOnce (separator : List Char) : List Char → Option (List Char × List Char)
  | [] => if separator = [] then some ([], []) else none
  | char :: rest =>
    match rsplitOnce separator rest with
    | some (pre, post) => some (char :: pre, post)
    | none => if separator.isPrefixOf (char :: rest) then
        some ([], (char :: rest).drop separator.length) else none

def splitShardKey (shard : String) : Option (String × String) :=
  (rsplitOnce shardSeparator.toList shard.toList).map fun parts =>
    (String.ofList parts.1, String.ofList parts.2)

def baseKey (shard : String) : String := (splitShardKey shard).elim shard Prod.fst

/-! ### The store -/

structure RateLimitStore (ρ : Type) where
  counters : CrdtOrMap String Int64 ρ
  isOwner : String → Bool
  selfName : String
  replicaIdForActor : String → ρ

/-- A shard as `all_shards` lists it and as a gossip update carries it. -/
structure Shard where
  key : String
  actor : String
  value : Int64
  deriving DecidableEq

/-- `StateUpdate` for a shard: the collection time is its version and its timestamp. -/
structure ShardUpdate extends Shard where
  timestamp : Nat
  deriving DecidableEq

def globalRateLimitCounterKey : String := "global"

namespace RateLimitStore
variable {ρ : Type} [LinearOrder ρ]

def shardValues (entries : KeyedMap String Int64) (key : String) : List Int64 :=
  (entries.toList.filter fun entry => baseKey entry.1 = key).map Prod.snd

variable (store : RateLimitStore ρ)

def aggregateCounter (key : String) : Option Int64 :=
  let values := shardValues store.counters.store.entries key
  if values.isEmpty then none else some values.sum

/-- `value`. -/
def value (key : String) : Option Int64 := store.aggregateCounter key

def allShards : List Shard :=
  store.counters.store.entries.toList.filterMap fun entry =>
    (splitShardKey entry.1).map fun parts => ⟨parts.1, parts.2, entry.2⟩

def inc (key actor : String) (delta : Int64) (store : RateLimitStore ρ) : RateLimitStore ρ :=
  if store.isOwner key then
    { store with counters := (store.counters.tryUpsert (ε := Empty) 0 (shardKey key actor) fun current =>
        .ok (current.elim delta (· + delta))).2 }
  else store

def applyCounterSnapshotPayload (shard actor : String) (timestamp : Nat) (payload : Int64)
    (store : RateLimitStore ρ) : RateLimitStore ρ :=
  match splitShardKey shard with
  | none => store
  | some (base, _) =>
    if store.isOwner base then
      let log : OperationLog String Int64 ρ := {}
      { store with
        counters := store.counters.merge (fun _ => 0)
          (log.append (.insert shard payload timestamp (store.replicaIdForActor actor))) }
    else store

/-! ### The calls of the sync manager -/

def syncRateLimitInc (key : String) (delta : Int64) (store : RateLimitStore ρ) : RateLimitStore ρ :=
  if store.isOwner key then store.inc key store.selfName delta else store

/-- `apply_remote_rate_limit_counter` merges whether or not the node is an owner. -/
def applyRemoteRateLimitCounter (log : OperationLog String Int64 ρ) (store : RateLimitStore ρ) :
    RateLimitStore ρ :=
  { store with counters := store.counters.merge (fun _ => 0) log }

/-- `apply_remote_rate_limit_counter_value_with_actor_and_timestamp`. -/
def applyRemoteRateLimitCounterValue (key actor : String) (counterValue : Int64) (timestamp : Nat)
    (store : RateLimitStore ρ) : RateLimitStore ρ :=
  store.applyCounterSnapshotPayload (shardKey key actor) actor timestamp counterValue

/-- The decision, the count and the limit `check_global_rate_limit` returns, and the store after. -/
def checkGlobalRateLimit (limitPerSecond : Nat) (store : RateLimitStore ρ) :
    (Bool × Int64 × Nat) × RateLimitStore ρ :=
  if limitPerSecond = 0 then ((false, 0, 0), store)
  else
    let counted := store.syncRateLimitInc globalRateLimitCounterKey 1
    let currentCount := (counted.value globalRateLimitCounterKey).getD 0
    ((decide (Int64.ofNat limitPerSecond < currentCount), currentCount, limitPerSecond), counted)

def resetGlobalRateLimitCounter : RateLimitStore ρ :=
  let currentCount := (store.value globalRateLimitCounterKey).getD 0
  if 0 < currentCount then store.syncRateLimitInc globalRateLimitCounterKey (-currentCount)
  else store

/-! ### Gossip -/

/-- `collect_store` for the rate limits: every shard of every key the node owns. -/
def collectShards (timestamp : Nat) (store : RateLimitStore ρ) : List ShardUpdate :=
  (store.allShards.filter fun shard => store.isOwner shard.key).map fun shard => ⟨shard, timestamp⟩

/-- The receipt of an update. The eight bytes of the value 0 decode as an empty operation log,
those of any other value do not decode as a log. -/
def receive (update : ShardUpdate) (store : RateLimitStore ρ) : RateLimitStore ρ :=
  if update.value = 0 then store.applyRemoteRateLimitCounter {}
  else store.applyRemoteRateLimitCounterValue update.key update.actor update.value update.timestamp

end RateLimitStore

/-! ### Nodes -/

/-- The nodes and the updates collected so far with the node that collected them. The increments
each node has made, key by key, and the number of requests admitted are recorded on the side. -/
structure Cluster (ι ρ : Type) where
  stores : ι → RateLimitStore ρ
  collected : List (ι × ShardUpdate)
  made : ι → String → Int64
  admitted : Nat

instance {ι ρ : Type} : CoeFun (Cluster ι ρ) fun _ => ι → RateLimitStore ρ := ⟨Cluster.stores⟩

inductive Step (ι : Type)
  | inc (node : ι) (key : String) (delta : Int64)
  | check (node : ι) (limitPerSecond : Nat)
  | reset (node : ι)
  | collect (node : ι) (timestamp : Nat)
  | deliver (node : ι) (update : ShardUpdate)

namespace Step
variable {ι ρ : Type}

/-- An update can be delivered, again and again, to a node that did not collect it. -/
def Enabled (cluster : Cluster ι ρ) : Step ι → Prop
  | .collect _ timestamp => timestamp ≤ u64Max
  | .deliver node update => ∃ sender, sender ≠ node ∧ (sender, update) ∈ cluster.collected
  | _ => True

variable [LinearOrder ρ]

/-- The increment of its own shard that a step makes at its node. -/
def increment (cluster : Cluster ι ρ) : Step ι → Option (ι × String × Int64)
  | .inc node key delta => some (node, key, delta)
  | .check node limitPerSecond =>
    if limitPerSecond = 0 then none else some (node, globalRateLimitCounterKey, 1)
  | .reset node =>
    let currentCount := ((cluster.stores node).value globalRateLimitCounterKey).getD 0
    if 0 < currentCount then some (node, globalRateLimitCounterKey, -currentCount) else none
  | _ => none

variable [DecidableEq ι]

/-- The increments made, with that of a step. -/
def count (cluster : Cluster ι ρ) (step : Step ι) : ι → String → Int64 :=
  match step.increment cluster with
  | none => cluster.made
  | some (node, key, delta) => Function.update cluster.made node
      (Function.update (cluster.made node) key (cluster.made node key + delta))

def run (cluster : Cluster ι ρ) (step : Step ι) : Cluster ι ρ :=
  match step with
  | .inc node key delta => { cluster with
      stores := Function.update cluster.stores node ((cluster.stores node).syncRateLimitInc key delta)
      made := step.count cluster }
  | .check node limitPerSecond =>
    let checked := (cluster.stores node).checkGlobalRateLimit limitPerSecond
    { cluster with
      stores := Function.update cluster.stores node checked.2
      made := step.count cluster
      admitted := cluster.admitted + if checked.1.1 then 0 else 1 }
  | .reset node => { cluster with
      stores := Function.update cluster.stores node (cluster.stores node).resetGlobalRateLimitCounter
      made := step.count cluster }
  | .collect node timestamp => { cluster with
      collected := cluster.collected ++
        ((cluster.stores node).collectShards timestamp).map fun update => (node, update) }
  | .deliver node update => { cluster with
      stores := Function.update cluster.stores node ((cluster.stores node).receive update) }

end Step

/-- The nodes before any increment. -/
def Cluster.new {ι ρ : Type} (stores : ι → RateLimitStore ρ) : Cluster ι ρ := ⟨stores, [], fun _ _ => 0, 0⟩

/-- The runs from a cluster whose steps are all allowed where they are taken. -/
inductive Run {ι ρ : Type} [LinearOrder ρ] [DecidableEq ι] (allowed : Cluster ι ρ → Step ι → Prop)
    (start : Cluster ι ρ) : List (Step ι) → Cluster ι ρ → Prop
  | start : Run allowed start [] start
  | step {steps : List (Step ι)} {cluster : Cluster ι ρ} (step : Step ι) :
      Run allowed start steps cluster → step.Enabled cluster → allowed cluster step →
      Run allowed start (steps ++ [step]) (step.run cluster)

end ModelGateway.RateLimit
