import ModelGateway.KeyedMap
import ModelGateway.WorkerRing

/-! The load-balancing policies of the gateway (`policies/`), except the bucket policy: how each one
picks an index out of a list of workers.  Random draws, float comparisons, the answers of the prefix
trees and the hash functions are parameters. -/
namespace ModelGateway.Policies
open WorkerRing (HashRing Position)

/-- A worker as a selection sees it. -/
structure Worker where
  url : String
  modelId : String := ""
  isHealthy : Bool := true
  circuitBreakerCanExecute : Bool := true
  load : Nat := 0
  routingKeyLoad : Nat := 0
  deriving DecidableEq, Repr

def Worker.isAvailable (self : Worker) : Bool := self.isHealthy && self.circuitBreakerCanExecute

/-- The value of a header, if there is one, and its text, if it is one. -/
abbrev HeaderMap := String → Option (Option String)

variable (headers : Option HeaderMap)

def extractHeaderValue (name : String) : Option String :=
  ((headers.bind fun map => map name).bind id).filter fun text => !text.isEmpty

def extractTargetWorker : Option String :=
  extractHeaderValue headers "x-smg-target-worker"

def extractRoutingKey : Option String :=
  extractHeaderValue headers "x-smg-routing-key"

structure SelectWorkerInfo where
  requestText : Option String := none
  tokens : Option (List UInt32) := none
  headers : Option HeaderMap := none
  hashRing : Option HashRing := none

/-- What the random number generator yields during one selection. -/
structure Chance where
  first : Nat := 0
  second : Nat := 0

/-- `random_range(0..count)`. -/
def randomRange (draw count : Nat) : Nat := draw % count

def getHealthyWorkerIndices (workers : List Worker) : List Nat :=
  (workers.zipIdx.filter fun worker => worker.1.isHealthy && worker.1.circuitBreakerCanExecute).map Prod.snd

def unknownModelId : String := "unknown"

def normalizeModelKey (modelId : String) : String :=
  if modelId.isEmpty then unknownModelId else modelId

/-- `workers.iter().position(|w| w.url() == url)`. -/
def positionOf (workers : List Worker) (url : String) : Option Nat :=
  workers.findIdx? fun worker => worker.url == url

/-- `min_by_key`: the first of the least. -/
def minByKey {α : Type} (key : α → Nat) : List α → Option α
  | [] => none
  | item :: rest =>
    match minByKey key rest with
    | none => some item
    | some least => if key least < key item then some least else some item

/-- `max_by`: the last of the greatest. -/
def maxBy {α : Type} (less : α → α → Bool) : List α → Option α
  | [] => none
  | item :: rest =>
    match maxBy less rest with
    | none => some item
    | some greatest => if less greatest item then some item else some greatest

def usizeMax : Nat := 2 ^ 64 - 1

/-- `parse::<usize>`. -/
def parseUsize (text : String) : Option Nat :=
  let digits := match text.toList with
    | '+' :: rest => rest
    | whole => whole
  if digits.isEmpty || digits.any (fun digit => !digit.isDigit) then none
  else
    let value := digits.foldl (fun value digit => 10 * value + (digit.toNat - '0'.toNat)) 0
    if value ≤ usizeMax then some value else none

/-- The load of the worker at an index. -/
def loadAt (workers : List Worker) (idx : Nat) : Nat := (workers[idx]?.map (·.load)).getD 0

/-! ### Random, round robin, power of two -/

namespace Random

def selectWorker (workers : List Worker) (chance : Chance) : Option Nat :=
  let healthyIndices := getHealthyWorkerIndices workers
  if healthyIndices.isEmpty then none
  else healthyIndices[randomRange chance.first healthyIndices.length]?

end Random

structure RoundRobinPolicy where
  counter : UInt64 := 0

namespace RoundRobinPolicy

def selectWorker (self : RoundRobinPolicy) (workers : List Worker) :
    Option Nat × RoundRobinPolicy :=
  let healthyIndices := getHealthyWorkerIndices workers
  if healthyIndices.isEmpty then (none, self)
  else (healthyIndices[self.counter.toNat % healthyIndices.length]?, ⟨self.counter + 1⟩)

end RoundRobinPolicy

/-- The loads reported for each worker, with the comparisons of token usage and of request counts as
floating-point numbers. -/
structure PowerOfTwoPolicy (Response : Type) where
  tokenUsageLe : Response → Response → Bool
  requestCountLe : Nat → Nat → Bool
  cachedLoads : KeyedMap String Response := ∅

namespace PowerOfTwoPolicy
variable {Response : Type}

variable (self : PowerOfTwoPolicy Response)

/-- Whether the first of two workers is taken. -/
def prefersFirst (worker1 worker2 : Worker) : Bool :=
  match self.cachedLoads.get? worker1.url, self.cachedLoads.get? worker2.url with
  | some load1, some load2 => self.tokenUsageLe load1 load2
  | _, _ => self.requestCountLe worker1.load worker2.load

def selectWorker (workers : List Worker) (chance : Chance) :
    Option Nat :=
  let healthyIndices := getHealthyWorkerIndices workers
  if healthyIndices.isEmpty then none
  else if healthyIndices.length = 1 then healthyIndices[0]?
  else do
    let idx1 := randomRange chance.first healthyIndices.length
    let idx2 := (idx1 + 1 + randomRange chance.second (healthyIndices.length - 1)) %
      healthyIndices.length
    let workerIdx1 ← healthyIndices[idx1]?
    let workerIdx2 ← healthyIndices[idx2]?
    let worker1 ← workers[workerIdx1]?
    let worker2 ← workers[workerIdx2]?
    if self.prefersFirst worker1 worker2 then some workerIdx1 else some workerIdx2

def updateLoads (loads : List (String × Response)) :
    PowerOfTwoPolicy Response :=
  { self with
      cachedLoads := loads.foldl (fun cached load => cached.insert load.1 load.2) self.cachedLoads }

end PowerOfTwoPolicy

/-! ### Consistent hashing and prefix hash -/

/-- The healthy workers by URL; of several with one URL the last. -/
def healthyUrlToIdx (workers : List Worker) : KeyedMap String Nat :=
  (workers.zipIdx.filter fun worker => worker.1.isHealthy).foldl
    (fun map worker => map.insert worker.1.url worker.2) ∅

namespace ConsistentHashing
variable (hashPosition : String → Position)

def findByConsistentHash (workers : List Worker) (info : SelectWorkerInfo) (key : String) :
    Option Nat :=
  let urlToIdx := healthyUrlToIdx workers
  if urlToIdx.isEmpty then none
  else match info.hashRing with
    | some ring => do
      let url ← ring.findHealthyUrl hashPosition key urlToIdx.contains
      urlToIdx.get? url
    | none =>
      let healthyIndices := urlToIdx.values.insertionSort (· ≤ ·)
      healthyIndices[(hashPosition key).val % healthyIndices.length]?

/-- The key of an anonymous client: the first of these headers that is there. -/
def implicitKey (headers : Option HeaderMap) : Option String :=
  (headers.bind fun map =>
    (((map "authorization").or (map "x-forwarded-for")).or (map "cookie")).bind id).filter fun text => !text.isEmpty

def selectWorker (workers : List Worker) (info : SelectWorkerInfo) (chance : Chance) :
    Option Nat :=
  if workers.isEmpty then none
  else match extractTargetWorker info.headers with
    | some idxText =>
      match parseUsize idxText with
      | some idx =>
        if (workers[idx]?.map (·.isHealthy)).getD false then some idx else none
      | none => none
    | none =>
      match extractRoutingKey info.headers with
      | some key => findByConsistentHash hashPosition workers info key
      | none =>
        match implicitKey info.headers with
        | some key => findByConsistentHash hashPosition workers info key
        | none =>
          let healthy := (workers.zipIdx.filter fun worker => worker.1.isHealthy).map Prod.snd
          if healthy.length = 0 then none
          else healthy[randomRange chance.first healthy.length]?

end ConsistentHashing

/-- `withinFactor worker total count` stands for the comparison of a load with the average load times
the load factor. -/
structure PrefixHashConfig where
  prefixTokenCount : Nat := 256
  withinFactor : Nat → Nat → Nat → Bool
  hashTokens : List UInt32 → UInt64

namespace PrefixHash
variable (hashPosition : String → Position) (config : PrefixHashConfig)

def computePrefixHash (tokens : List UInt32) : UInt64 :=
  config.hashTokens (tokens.take config.prefixTokenCount)

/-- The ring key of a hash: sixteen hexadecimal digits. -/
def ringKey (prefixHash : UInt64) : String :=
  let digits := Nat.toDigits 16 prefixHash.toNat
  String.ofList (List.replicate (16 - digits.length) '0' ++ digits)

def loadOk (workerLoad totalLoad numWorkers : Nat) : Bool :=
  if totalLoad = 0 ∨ numWorkers = 0 then true
  else config.withinFactor workerLoad totalLoad numWorkers

def findWorkerWithLoadBalance (workers : List Worker) (info : SelectWorkerInfo)
    (prefixHash : UInt64) : Option Nat :=
  let healthyWorkers := workers.zipIdx.filter fun worker => worker.1.isHealthy
  if healthyWorkers.isEmpty then none
  else
    let totalLoad := (healthyWorkers.map fun worker => worker.1.load).sum
    let ok (load : Nat) := loadOk config load totalLoad healthyWorkers.length
    let leastLoaded := (minByKey (fun worker => worker.1.load) healthyWorkers).map Prod.snd
    let urlToIdx := healthyUrlToIdx workers
    let initial := do
      let ring ← info.hashRing
      let url ← ring.findHealthyUrl hashPosition (ringKey prefixHash) urlToIdx.contains
      urlToIdx.get? url
    match initial with
    | some idx =>
      if ok (loadAt workers idx) then some idx
      else match minByKey (fun worker => worker.1.load)
          (healthyWorkers.filter fun worker => ok worker.1.load) with
        | some (_, least) => some least
        | none => some idx
    | none => leastLoaded

def selectWorker (workers : List Worker) (info : SelectWorkerInfo) : Option Nat :=
  if workers.isEmpty then none
  else match info.tokens with
    | some (token :: rest) =>
      findWorkerWithLoadBalance hashPosition config workers info (computePrefixHash config (token :: rest))
    | _ => none

end PrefixHash

/-! ### Manual routing -/

inductive ManualAssignmentMode where
  | random
  | minLoad
  | minGroup
  deriving DecidableEq, Repr

def maxCandidateWorkers : Nat := 2

/-- The candidates of a routing key, and when it was last used. -/
structure Node where
  candiWorkerUrls : List String
  lastAccess : Nat

/-- The oldest candidates make room for the new one. -/
def Node.pushBounded (self : Node) (url : String) : Node :=
  { self with candiWorkerUrls :=
      self.candiWorkerUrls.drop (self.candiWorkerUrls.length + 1 - maxCandidateWorkers) ++ [url] }

structure ManualPolicy where
  assignmentMode : ManualAssignmentMode
  routingMap : KeyedMap String Node := ∅

/-- The loop of `select_min_by`: the least value so far and the indices that have it. -/
def minCandidates (value : Nat → Nat) : List Nat → Option Nat → List Nat → List Nat
  | [], _, candidates => candidates
  | idx :: rest, none, _ => minCandidates value rest (some (value idx)) [idx]
  | idx :: rest, some least, candidates =>
    if value idx < least then minCandidates value rest (some (value idx)) [idx]
    else if value idx = least then minCandidates value rest (some least) (candidates ++ [idx])
    else minCandidates value rest (some least) candidates

def selectMinBy (value : Nat → Nat) (indices : List Nat) (chance : Chance) : Option Nat :=
  let candidates := minCandidates value indices none []
  if candidates.length = 1 then candidates[0]?
  else candidates[randomRange chance.first candidates.length]?

def findHealthyWorker (urls : List String) (workers : List Worker) (healthyIndices : List Nat) :
    Option Nat :=
  urls.findSome? fun url => (positionOf workers url).filter fun idx => idx ∈ healthyIndices

namespace ManualPolicy

variable (self : ManualPolicy)

def selectNewWorker (workers : List Worker) (healthyIndices : List Nat)
    (chance : Chance) : Option Nat :=
  match self.assignmentMode with
  | .random => healthyIndices[randomRange chance.first healthyIndices.length]?
  | .minLoad => selectMinBy (loadAt workers) healthyIndices chance
  | .minGroup =>
    selectMinBy (fun idx => (workers[idx]?.map (·.routingKeyLoad)).getD 0) healthyIndices chance

/-- A new worker is recorded as a candidate of the routing key. -/
def assign (routingId : String) (node : Option Node) (workers : List Worker)
    (healthyIndices : List Nat) (chance : Chance) (now : Nat) : Option Nat × ManualPolicy :=
  match self.selectNewWorker workers healthyIndices chance with
  | none => (none, self)
  | some idx =>
    match workers[idx]? with
    | none => (none, self)
    | some worker =>
      let node := match node with
        | some node => { node with lastAccess := now }.pushBounded worker.url
        | none => ⟨[worker.url], now⟩
      (some idx, { self with routingMap := self.routingMap.insert routingId node })

def selectByRoutingId (workers : List Worker) (routingId : String)
    (healthyIndices : List Nat) (chance : Chance) (now : Nat) : Option Nat × ManualPolicy :=
  match self.routingMap.get? routingId with
  | some node =>
    match findHealthyWorker node.candiWorkerUrls workers healthyIndices with
    | some idx =>
      (some idx, { self with routingMap := self.routingMap.insert routingId { node with lastAccess := now } })
    | none => self.assign routingId (some node) workers healthyIndices chance now
  | none => self.assign routingId none workers healthyIndices chance now

def selectWorker (workers : List Worker) (info : SelectWorkerInfo)
    (chance : Chance) (now : Nat) : Option Nat × ManualPolicy :=
  let healthyIndices := getHealthyWorkerIndices workers
  if healthyIndices.isEmpty then (none, self)
  else match extractRoutingKey info.headers with
    | some routingId => self.selectByRoutingId workers routingId healthyIndices chance now
    | none => (self.selectNewWorker workers healthyIndices chance, self)

/-- The eviction task drops the routing keys that were idle for too long. -/
def evict (now maxIdle : Nat) : ManualPolicy :=
  { self with routingMap := self.routingMap.keys.foldl (fun map key =>
      match map.get? key with
      | some node => if now - node.lastAccess < maxIdle then map else map.erase key
      | none => map) self.routingMap }

end ManualPolicy

/-! ### Cache-aware routing -/

/-- `PrefixMatchResult`. -/
structure MatchResult where
  tenant : String
  matchedCount : Nat
  inputCount : Nat

/-- What the policy asks of a prefix tree over inputs of one kind. -/
structure TreeOperations (Tree Input : Type) where
  new : Tree
  empty : Input
  insert : Input → String → Tree → Tree
  matchPrefixWithCounts : Input → Tree → MatchResult × Tree
  evictTenantBySize : Nat → Tree → Tree

structure OverlapScores where
  scores : KeyedMap Nat Nat
  treeSizes : KeyedMap Nat Nat

/-- The indexer of a model with KV events, as it answers during one selection. -/
structure EventIndexer where
  currentSize : Nat
  blockSize : Option Nat
  workerId : String → Option Nat
  computeRequestContentHashes : List UInt32 → Nat → List UInt64
  findMatches : List UInt64 → OverlapScores

/-- `aboveCacheThreshold matched input` and `aboveRelThreshold max min` stand for the float comparisons
with the thresholds of the configuration; the match rate of an empty input is 0. -/
structure CacheAwareConfig where
  aboveCacheThreshold : Nat → Nat → Bool
  balanceAbsThreshold : Nat := 32
  aboveRelThreshold : Nat → Nat → Bool
  maxTreeSize : Nat := 10000
  blockSize : Nat := 16

structure CacheAwarePolicy (Tree TokenTree : Type) where
  config : CacheAwareConfig
  stringTrees : KeyedMap String Tree := ∅
  tokenTrees : KeyedMap String TokenTree := ∅
  kvMonitor : String → Option EventIndexer := fun _ => none

namespace CacheAwarePolicy
variable {Tree TokenTree : Type}
variable (strings : TreeOperations Tree String) (tokens : TreeOperations TokenTree (List UInt32))

variable (self : CacheAwarePolicy Tree TokenTree) (workers : List Worker)

def addWorkerByUrl (url modelId : String) :
    CacheAwarePolicy Tree TokenTree :=
  { self with
      stringTrees := self.stringTrees.insert modelId
        (strings.insert strings.empty url ((self.stringTrees.get? modelId).getD strings.new))
      tokenTrees := self.tokenTrees.insert modelId
        (tokens.insert tokens.empty url ((self.tokenTrees.get? modelId).getD tokens.new)) }

def addWorker (worker : Worker) :
    CacheAwarePolicy Tree TokenTree :=
  self.addWorkerByUrl strings tokens worker.url (normalizeModelKey worker.modelId)

def initWorkers :
    CacheAwarePolicy Tree TokenTree :=
  workers.foldl (fun policy worker => policy.addWorker strings tokens worker) self

/-- Removing a worker is left to the eviction. -/
def removeWorker (_worker : Worker) :
    CacheAwarePolicy Tree TokenTree := self

def evictCache (maxSize : Nat) :
    CacheAwarePolicy Tree TokenTree :=
  { self with
      stringTrees := self.stringTrees.keys.foldl (fun trees model =>
        match trees.get? model with
        | some tree => trees.insert model (strings.evictTenantBySize maxSize tree)
        | none => trees) self.stringTrees
      tokenTrees := self.tokenTrees.keys.foldl (fun trees model =>
        match trees.get? model with
        | some tree => trees.insert model (tokens.evictTenantBySize maxSize tree)
        | none => trees) self.tokenTrees }

/-- The tree of the request's kind learns where the request goes, if the model has one. -/
def record (info : SelectWorkerInfo) (modelId url : String) :
    CacheAwarePolicy Tree TokenTree :=
  match info.tokens with
  | some request =>
    match self.tokenTrees.get? modelId with
    | some tree =>
      { self with tokenTrees := self.tokenTrees.insert modelId (tokens.insert request url tree) }
    | none => self
  | none =>
    match info.requestText with
    | some text =>
      match self.stringTrees.get? modelId with
      | some tree =>
        { self with stringTrees := self.stringTrees.insert modelId (strings.insert text url tree) }
      | none => self
    | none => self

def minLoadIdx (healthyIndices : List Nat) : Option Nat :=
  minByKey (loadAt workers) healthyIndices

def selectWorkerMinLoad (info : SelectWorkerInfo) (healthyIndices : List Nat) (modelId : String) :
    Option Nat × CacheAwarePolicy Tree TokenTree :=
  match minLoadIdx workers healthyIndices with
  | none => (none, self)
  | some idx =>
    match workers[idx]? with
    | none => (none, self)
    | some worker => (some idx, self.record strings tokens info modelId worker.url)

/-- The order of `max_by_key`: a higher score, then a lower load, then a smaller tree. -/
def rankedBelow (first second : Nat × Nat × Nat) : Bool :=
  first.1 < second.1 || (first.1 == second.1 && (second.2.1 < first.2.1 ||
      (first.2.1 == second.2.1 && second.2.2 < first.2.2)))

def scoreOverlap (request : List UInt32) (healthyIndices : List Nat)
    (indexer : EventIndexer) (blockSize : Nat) : Option Nat :=
  let contentHashes := indexer.computeRequestContentHashes request blockSize
  if contentHashes.isEmpty then none
  else
    let overlap := indexer.findMatches contentHashes
    if overlap.scores.isEmpty then none
    else
      let id (idx : Nat) := workers[idx]?.bind fun worker => indexer.workerId worker.url
      let score (idx : Nat) := ((id idx).bind overlap.scores.get?).getD 0
      let treeSize (idx : Nat) := ((id idx).bind overlap.treeSizes.get?).getD 0
      maxBy (fun first second => rankedBelow (score first, loadAt workers first, treeSize first)
          (score second, loadAt workers second, treeSize second))
        (healthyIndices.filter fun idx => 0 < score idx)

/-- Without an overlap the least loaded worker is taken. -/
def selectWorkerEventDriven (request : List UInt32) (healthyIndices : List Nat) (indexer : EventIndexer) : Option Nat :=
  match scoreOverlap workers request healthyIndices indexer
      (indexer.blockSize.getD self.config.blockSize) with
  | some idx => some idx
  | none => minLoadIdx workers healthyIndices

/-- The choice that both kinds of trees lead to: the worker of the matched tenant, or the least loaded
one when too little is matched. -/
def matchedIdx (healthyIndices : List Nat) (result : MatchResult) : Option Nat :=
  if self.config.aboveCacheThreshold result.matchedCount result.inputCount then
    (positionOf workers result.tenant).filter fun idx =>
      (workers[idx]?.map (·.isHealthy)).getD false
  else minLoadIdx workers healthyIndices

/-- Selection by a tree: the tree learns where the request goes, and the first healthy worker stands in
for one that is gone. -/
def selectByTree {Store Input : Type} (self : CacheAwarePolicy Tree TokenTree)
    (operations : TreeOperations Store Input) (workers : List Worker) (input : Input)
    (healthyIndices : List Nat) (tree : Store) : Option Nat × Store :=
  let (result, tree) := operations.matchPrefixWithCounts input tree
  match self.matchedIdx workers healthyIndices result with
  | some idx =>
    match workers[idx]? with
    | some worker => (some idx, operations.insert input worker.url tree)
    | none => (none, tree)
  | none => (healthyIndices[0]?, tree)

def selectWorkerWithTokens (request : List UInt32) (healthyIndices : List Nat) (modelId : String) (chance : Chance) :
    Option Nat × CacheAwarePolicy Tree TokenTree :=
  match self.tokenTrees.get? modelId with
  | some tree =>
    let (idx, tree) := self.selectByTree tokens workers request healthyIndices tree
    (idx, { self with tokenTrees := self.tokenTrees.insert modelId tree })
  | none => (healthyIndices[randomRange chance.first healthyIndices.length]?, self)

def selectWorkerWithText (text : String) (healthyIndices : List Nat) (modelId : String) (chance : Chance) :
    Option Nat × CacheAwarePolicy Tree TokenTree :=
  match self.stringTrees.get? modelId with
  | some tree =>
    let (idx, tree) := self.selectByTree strings workers text healthyIndices tree
    (idx, { self with stringTrees := self.stringTrees.insert modelId tree })
  | none => (healthyIndices[randomRange chance.first healthyIndices.length]?, self)

/-- `has_event_indexer`: an indexer without data does not count. -/
def eventIndexer (modelId : String) : Option EventIndexer :=
  (self.kvMonitor modelId).filter fun indexer => 0 < indexer.currentSize

def isImbalanced : Bool :=
  let maxLoad := workers.foldl (fun most worker => max most worker.load) 0
  let least := workers.foldl (fun least worker => min least worker.load) usizeMax
  let minLoad := if least = usizeMax then 0 else least
  decide (self.config.balanceAbsThreshold < maxLoad - minLoad) && self.config.aboveRelThreshold maxLoad minLoad

def selectWorker (info : SelectWorkerInfo) (chance : Chance) : Option Nat × CacheAwarePolicy Tree TokenTree :=
  let healthyIndices := getHealthyWorkerIndices workers
  match healthyIndices[0]?.bind fun idx => workers[idx]? with
  | none => (none, self)
  | some firstHealthy =>
    let modelId := normalizeModelKey firstHealthy.modelId
    if self.isImbalanced workers then
      self.selectWorkerMinLoad strings tokens workers info healthyIndices modelId
    else match info.tokens with
      | some request =>
        match self.eventIndexer modelId with
        | some indexer =>
          (self.selectWorkerEventDriven workers request healthyIndices indexer, self)
        | none => self.selectWorkerWithTokens tokens workers request healthyIndices modelId chance
      | none =>
        self.selectWorkerWithText strings workers (info.requestText.getD "") healthyIndices modelId chance

end CacheAwarePolicy
end ModelGateway.Policies
