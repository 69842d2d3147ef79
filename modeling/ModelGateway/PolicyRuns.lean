import ModelGateway.BucketSelection

/-! All load-balancing policies over runs of worker additions, removals, selections and background
tasks: when a selection from a non-empty list of available workers yields one of them. -/
namespace ModelGateway.PolicyRuns
open KeyedMap
open Policies PolicySelection Option BucketPolicy.Policy.Anchored WorkerRing.HashRing BucketPolicy.Policy List
open WorkerRing (HashRing Position)
open BucketPolicy (Moment Bucket BucketConfig)

/-- The functions that come from other packages, and the prefix trees of the cache-aware policy. -/
structure Environment (Tree TokenTree : Type) where
  hashPosition : String → Position
  strings : TreeOperations Tree String
  tokens : TreeOperations TokenTree (List UInt32)

/-- A load-balancing policy in its current state. -/
inductive Policy (Tree TokenTree Response : Type) where
  | random
  | roundRobin (policy : RoundRobinPolicy)
  | powerOfTwo (policy : PowerOfTwoPolicy Response)
  | cacheAware (policy : CacheAwarePolicy Tree TokenTree)
  | bucket (policy : BucketPolicy.Policy)
  | manual (policy : ManualPolicy)
  | consistentHashing
  | prefixHash (config : PrefixHashConfig)

/-- What happens to a policy.  `background` is the eviction or adjustment thread. -/
inductive Change (Response : Type) where
  | initWorkers (workers : List Worker)
  | addWorker (worker : Worker)
  | removeWorker (worker : Worker)
  | select (workers : List Worker) (info : SelectWorkerInfo) (moment : Moment)
  | updateLoads (loads : List (String × Response))
  | background (now maxIdle : Nat)

namespace Policy
variable {Tree TokenTree Response : Type} (env : Environment Tree TokenTree)

def selectWorker (self : Policy Tree TokenTree Response) (workers : List Worker)
    (info : SelectWorkerInfo) (moment : Moment) : Option Nat × Policy Tree TokenTree Response :=
  match self with
  | .random => (Random.selectWorker workers moment.chance, self)
  | .roundRobin policy => (policy.selectWorker workers).map id .roundRobin
  | .powerOfTwo policy => (policy.selectWorker workers moment.chance, self)
  | .cacheAware policy =>
    (policy.selectWorker env.strings env.tokens workers info moment.chance).map id .cacheAware
  | .bucket policy => (policy.selectWorker workers info moment).map id .bucket
  | .manual policy => (policy.selectWorker workers info moment.chance moment.now).map id .manual
  | .consistentHashing =>
    (ConsistentHashing.selectWorker env.hashPosition workers info moment.chance, self)
  | .prefixHash config => (PrefixHash.selectWorker env.hashPosition config workers info, self)

def apply (self : Policy Tree TokenTree Response) :
    Change Response → Policy Tree TokenTree Response
  | .initWorkers workers =>
    match self with
    | .cacheAware policy => .cacheAware (policy.initWorkers env.strings env.tokens workers)
    | .bucket policy => .bucket (policy.initPrefillWorkerUrls workers)
    | other => other
  | .addWorker worker =>
    match self with
    | .cacheAware policy => .cacheAware (policy.addWorker env.strings env.tokens worker)
    | .bucket policy => .bucket (policy.addPrefillUrl worker)
    | other => other
  | .removeWorker worker =>
    match self with
    | .cacheAware policy => .cacheAware (policy.removeWorker worker)
    | .bucket policy => .bucket (policy.removePrefillUrl worker)
    | other => other
  | .select workers info moment => (self.selectWorker env workers info moment).2
  | .updateLoads loads =>
    match self with
    | .powerOfTwo policy => .powerOfTwo (policy.updateLoads loads)
    | other => other
  | .background now maxIdle =>
    match self with
    | .cacheAware policy =>
      .cacheAware (policy.evictCache env.strings env.tokens policy.config.maxTreeSize)
    | .bucket policy => .bucket policy.adjust
    | .manual policy => .manual (policy.evict now maxIdle)
    | other => other

/-- The policies as they are made, with any configuration and any event indexers. -/
inductive New : Policy Tree TokenTree Response → Prop
  | random : New .random
  | roundRobin : New (.roundRobin {})
  | powerOfTwo (tokenUsageLe : Response → Response → Bool) (requestCountLe : Nat → Nat → Bool) :
    New (.powerOfTwo { tokenUsageLe := tokenUsageLe, requestCountLe := requestCountLe })
  | cacheAware (config : CacheAwareConfig) (kvMonitor : String → Option EventIndexer) :
    New (.cacheAware { config := config, kvMonitor := kvMonitor })
  | bucket (config : BucketConfig) : New (.bucket { config := config })
  | manual (mode : ManualAssignmentMode) : New (.manual { assignmentMode := mode })
  | consistentHashing : New .consistentHashing
  | prefixHash (config : PrefixHashConfig) : New (.prefixHash config)

inductive Reachable : Policy Tree TokenTree Response → Prop
  | new {policy : Policy Tree TokenTree Response} (made : New policy) : Reachable policy
  | apply {policy : Policy Tree TokenTree Response} (change : Change Response)
    (pre : Reachable policy) : Reachable (policy.apply env change)

/-- The prefix-hash policy is given tokens. -/
def TokensGiven (info : SelectWorkerInfo) : Policy Tree TokenTree Response → Prop
  | .prefixHash _ => ∃ token rest, info.tokens = some (token :: rest)
  | _ => True

/-- The URL that a policy chooses from its state is that of a listed worker: the one that the bucket leads
to, or, if the request has a key and a ring, one of the ring's. -/
def Covers (workers : List Worker) (info : SelectWorkerInfo) (moment : Moment) :
    Policy Tree TokenTree Response → Prop
  | .bucket policy => policy.Covered workers info moment.chance
  | .consistentHashing => hashedKey info ≠ none → RingKnows workers info
  | _ => True

/-- Every worker that the bucket counts is listed, and the ring, if there is one, holds a listed worker. -/
def Lists (workers : List Worker) (info : SelectWorkerInfo) : Policy Tree TokenTree Response → Prop
  | .bucket policy => policy.Listed workers
  | .consistentHashing => RingKnows workers info
  | _ => True

/-- What selections rely on: the buckets of a bucket policy are anchored. -/
def Sound : Policy Tree TokenTree Response → Prop
  | .bucket policy => policy.Anchored
  | _ => True

variable {env} {policy : Policy Tree TokenTree Response}

theorem Sound.apply (sound : policy.Sound) (change : Change Response) : (policy.apply env change).Sound := by
  cases policy with
  | bucket policy =>
    cases change with
    | initWorkers workers => exact initPrefillWorkerUrls sound workers
    | addWorker worker => exact addPrefillUrl sound worker
    | removeWorker worker => exact removePrefillUrl sound worker
    | select workers info moment =>
      exact BucketPolicy.Policy.Anchored.selectWorker sound workers info moment
    | updateLoads loads => exact sound
    | background now maxIdle => exact adjust sound
  | random | roundRobin policy | powerOfTwo policy | cacheAware policy | manual policy
  | consistentHashing | prefixHash config => cases change <;> trivial

theorem Reachable.sound (reachable : Reachable env policy) : policy.Sound := by
  induction reachable with
  | new made =>
    cases made with
    | bucket config => exact anchored_new config
    | random | roundRobin | powerOfTwo | cacheAware | manual | consistentHashing | prefixHash =>
      trivial
  | apply change pre ih => exact ih.apply change

end Policy

/-- Trees that remember nothing. -/
def noTrees {Input : Type} (empty : Input) : TreeOperations Unit Input where
  new := ()
  empty := empty
  insert _ _ _ := ()
  matchPrefixWithCounts _ _ := (⟨"", 0, 0⟩, ())
  evictTenantBySize _ _ := ()

def sampleEnvironment : Environment Unit Unit where
  hashPosition := initialPosition
  strings := noTrees ""
  tokens := noTrees []

def workerA : Worker := { url := "a" }

def workerB : Worker := { url := "b" }

/-- A bucket policy that was initialised with both workers. -/
def twoWorkerBucket : Policy Unit Unit Unit :=
  Policy.apply sampleEnvironment (.bucket { config := { aboveRelThreshold := fun _ _ => false } })
    (.initWorkers [workerA, workerB])

theorem reachable_twoWorkerBucket : Policy.Reachable sampleEnvironment twoWorkerBucket := .apply _ (.new (.bucket _))

/-- The lengths divided evenly between the two workers. -/
def evenBucket : Bucket := Bucket.initPrefillWorkerUrls ["a", "b"] { period := 5000 }

theorem twoWorkerBucket_eq : twoWorkerBucket = .bucket
    { config := { aboveRelThreshold := fun _ _ => false }
      buckets := insert ∅ "unknown" evenBucket } := rfl

theorem findBoundary_evenBucket : evenBucket.findBoundary 0 = some "a" := by
  have boundary : evenBucket.boundary = [⟨"a", 0, 2047⟩, ⟨"b", 2048, BucketPolicy.usizeMax⟩] := rfl
  unfold Bucket.findBoundary
  rw [boundary]
  simp [Bucket.findBoundaryLoop]

/-- A request with a routing key, and a ring that holds the first worker only. -/
def ringedRequest : SelectWorkerInfo where
  headers := some fun name => if name = "x-smg-routing-key" then some "key" else none
  hashRing := some (HashRing.new initialPosition ["a"])

theorem ring_without_worker : (HashRing.new initialPosition ["a"]).findHealthyUrl
      initialPosition "key" (healthyUrlToIdx [workerB]).contains = none := by
  apply eq_none_iff_forall_ne_some.mpr
  intro url found
  obtain ⟨mem, healthy⟩ := HashRing.findHealthyUrl_mem found
  rw [mem_singleton.mp mem] at healthy
  exact absurd healthy (by decide)

end ModelGateway.PolicyRuns
