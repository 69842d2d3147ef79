import ModelGateway.Policies

/-! The bucket policy (`policies/bucket.rs`): prefill workers with ranges of request lengths, which are
moved with the load.  Counts of characters are 64-bit words that wrap around. -/
namespace ModelGateway.BucketPolicy
open Policies UInt64

structure Boundary where
  url : String
  lower : UInt64
  upper : UInt64
  deriving DecidableEq, Repr

structure SequencerRequest where
  id : String
  charCnt : UInt64
  timestamp : Nat
  prefillWorkerUrl : String
  deriving DecidableEq, Repr

/-- The bucket of one model.  Timestamps are in nanoseconds, the period in milliseconds. -/
structure Bucket where
  lMax : UInt64 := 4096
  bucketCnt : Nat := 0
  prefillWorkerUrls : List String := []
  loadTotal : UInt64 := 0
  period : Nat
  bucketLoad : UInt64 := 0
  boundary : List Boundary := []
  requestList : List SequencerRequest := []
  tReqLoads : KeyedMap String UInt64 := ∅
  charsPerUrl : KeyedMap String UInt64 := ∅

def usizeMax : UInt64 := 0xFFFFFFFFFFFFFFFF

def saturatingSub (whole part : UInt64) : UInt64 := if whole < part then 0 else whole - part

def saturatingAdd (first second : UInt64) : UInt64 :=
  if usizeMax - first < second then usizeMax else first + second

namespace Bucket

/-- The range of the worker at an index; the last one has no upper end. -/
def initialBoundary (gap : UInt64) (workerCnt : Nat) (entry : String × Nat) : Boundary where
  url := entry.1
  lower := ofNat entry.2 * gap
  upper := if entry.2 = workerCnt - 1 then usizeMax
    else (ofNat entry.2 + 1) * gap - 1

/-- Every worker starts without load, and the lengths are divided evenly. -/
def initPrefillWorkerUrls (urls : List String) (self : Bucket) : Bucket :=
  let started := { self with
    bucketCnt := urls.length
    prefillWorkerUrls := urls
    charsPerUrl := urls.foldl (fun chars url => chars.insert url 0) ∅ }
  if urls.isEmpty then { started with boundary := [] }
  else
    let gap := self.lMax / ofNat urls.length
    { started with
        lMax := usizeMax
        boundary := urls.zipIdx.map (initialBoundary gap urls.length) }

variable (self : Bucket)

/-- Whether a request has left the time window; one from the future has. -/
def expired (now : Nat) (request : SequencerRequest) : Bool :=
  if now < request.timestamp then true
  else decide (self.period * 1000000 < now - request.timestamp)

/-- One expired request is taken out of the counts. -/
def dropRequest (request : SequencerRequest) : Bucket :=
  { self with
      tReqLoads := self.tReqLoads.erase request.id
      charsPerUrl := match self.charsPerUrl.get? request.prefillWorkerUrl with
        | some count => self.charsPerUrl.insert request.prefillWorkerUrl
            (saturatingSub count request.charCnt)
        | none => self.charsPerUrl }

/-- The loop that takes the expired requests off the front, with the load removed. -/
def expireLoop (now : Nat) : List SequencerRequest → UInt64 → Bucket → Bucket
  | [], removedLoad, self =>
    { self with requestList := [], loadTotal := saturatingSub self.loadTotal removedLoad }
  | request :: rest, removedLoad, self =>
    if self.expired now request then
      expireLoop now rest (removedLoad + request.charCnt) (self.dropRequest request)
    else
      { self with
          requestList := request :: rest
          loadTotal := saturatingSub self.loadTotal removedLoad }

def postProcessRequest (charCnt : UInt64) (prefillUrl id : String) (now : Nat) (self : Bucket) :
    Bucket :=
  let counted := { self with
    charsPerUrl := self.charsPerUrl.insert prefillUrl ((self.charsPerUrl.get? prefillUrl).getD 0 + charCnt) }
  let left := expireLoop now counted.requestList 0 counted
  { left with
      tReqLoads := left.tReqLoads.insert id charCnt
      requestList := left.requestList ++ [⟨id, charCnt, now, prefillUrl⟩]
      loadTotal := saturatingAdd left.loadTotal charCnt }

/-- The binary search for the range that holds a length. -/
def findBoundaryLoop (boundary : List Boundary) (charCount : UInt64) (left right : Nat) :
    Option String :=
  if _inside : left < right then
    let mid := left + (right - left) / 2
    match boundary[mid]? with
    | none => none
    | some range =>
      if charCount < range.lower then findBoundaryLoop boundary charCount left mid
      else if range.upper < charCount then findBoundaryLoop boundary charCount (mid + 1) right
      else some range.url
  else none
termination_by right - left

def findBoundary (charCount : UInt64) (self : Bucket) : Option String :=
  findBoundaryLoop self.boundary charCount 0 self.boundary.length

/-- Missing workers are entered without load; others are dropped once they have none. -/
def updateWorkersCnt : Bucket :=
  let entered := self.prefillWorkerUrls.foldl (fun chars url =>
    if chars.contains url then chars else chars.insert url 0) self.charsPerUrl
  { self with
      bucketCnt := self.prefillWorkerUrls.length
      charsPerUrl := self.charsPerUrl.keys.foldl (fun chars url =>
        if url ∉ self.prefillWorkerUrls ∧ chars.get? url = some 0 then chars.erase url else chars)
        entered }

/-- The loop over the loads from an index on: the load with which the sum reaches the target, if it
does, and the index of that load. -/
def reachLoad (target : UInt64) : List UInt64 → UInt64 → Nat → Option UInt64 × Nat
  | [], _, index => (none, index)
  | load :: rest, sum, index =>
    if target ≤ sum + load then (some load, index) else reachLoad target rest (sum + load) (index + 1)

/-- The loop over the workers: each range ends where the loads reach the share of one worker. -/
def boundaryLoop (share : UInt64) (histLoad : List UInt64) :
    List String → UInt64 → Nat → List Boundary
  | [], _, _ => []
  | url :: rest, upperBound, lastLoadIndex =>
    -- on every path of the source the range of the last worker has no upper end
    if rest = [] then [⟨url, upperBound, usizeMax⟩]
    else
      let realLoad := upperBound + share
      match reachLoad share (histLoad.drop lastLoadIndex) 0 lastLoadIndex with
      | (some load, index) =>
        if load ≤ upperBound then
          ⟨url, upperBound, realLoad⟩ :: boundaryLoop share histLoad rest (realLoad + 1) (index + 1)
        else ⟨url, upperBound, load⟩ :: boundaryLoop share histLoad rest (load + 1) (index + 1)
      | (none, index) =>
        ⟨url, upperBound, realLoad⟩ :: boundaryLoop share histLoad rest (realLoad + 1) index

def adjustBoundary : Bucket :=
  if self.tReqLoads.isEmpty then self
  else
    let counted := self.updateWorkersCnt
    if counted.bucketCnt = 0 then counted
    else
      let share := counted.loadTotal / ofNat counted.bucketCnt
      if share ≤ 2 * counted.bucketLoad ∧ counted.bucketLoad ≤ 2 * share ∧
          counted.bucketLoad ≠ 0 then counted
      else
        { counted with
            bucketLoad := share
            boundary := boundaryLoop share (counted.tReqLoads.values.insertionSort (· ≤ ·))
              counted.prefillWorkerUrls 0 0 }

end Bucket

/-- `aboveRelThreshold max min` stands for the float comparison with the relative threshold. -/
structure BucketConfig where
  balanceAbsThreshold : UInt64 := 32
  aboveRelThreshold : UInt64 → UInt64 → Bool
  bucketAdjustIntervalSecs : Nat := 5

structure Policy where
  config : BucketConfig
  buckets : KeyedMap String Bucket := ∅

/-- What one selection takes from outside besides the request: random draws, the clock and a fresh
request id. -/
structure Moment where
  chance : Chance := {}
  now : Nat := 0
  id : String := ""

namespace Policy

variable (self : Policy)

/-- The bucket of a model, which is made when it is first needed. -/
def bucketOf (modelKey : String) : Bucket :=
  (self.buckets.get? modelKey).getD { period := self.config.bucketAdjustIntervalSecs * 1000 }

def setBucket (modelKey : String) (bucket : Bucket) : Policy :=
  { self with buckets := self.buckets.insert modelKey bucket }

/-- The workers of each model are handed to its bucket. -/
def initPrefillWorkerUrls (prefillWorkers : List Worker) : Policy :=
  (prefillWorkers.map fun worker => normalizeModelKey worker.modelId).dedup.foldl (fun policy modelKey =>
      let urls := (prefillWorkers.filter fun worker =>
        normalizeModelKey worker.modelId == modelKey).map (·.url)
      policy.setBucket modelKey ((policy.bucketOf modelKey).initPrefillWorkerUrls urls)) self

def addPrefillUrl (worker : Worker) : Policy :=
  let modelKey := normalizeModelKey worker.modelId
  let bucket := self.bucketOf modelKey
  if worker.url ∈ bucket.prefillWorkerUrls then self.setBucket modelKey bucket
  else
    self.setBucket modelKey (bucket.initPrefillWorkerUrls (bucket.prefillWorkerUrls ++ [worker.url]))

def removePrefillUrl (worker : Worker) : Policy :=
  let modelKey := normalizeModelKey worker.modelId
  match self.buckets.get? modelKey with
  | none => self
  | some bucket =>
    self.setBucket modelKey (bucket.initPrefillWorkerUrls (bucket.prefillWorkerUrls.filter (· ≠ worker.url)))

/-- The background thread adjusts every bucket. -/
def adjust : Policy :=
  self.buckets.keys.foldl (fun policy modelKey =>
    match policy.buckets.get? modelKey with
    | some bucket => policy.setBucket modelKey bucket.adjustBoundary
    | none => policy) self

variable (chars : KeyedMap String UInt64)

/-- `max_load` and `min_load` of the counts, 0 without any. -/
def maxLoad : UInt64 := chars.values.foldl max 0

def minLoad : UInt64 :=
  match chars.values with
  | [] => 0
  | count :: rest => rest.foldl min count

def isImbalanced : Bool :=
  decide (self.config.balanceAbsThreshold < saturatingSub (maxLoad chars) (minLoad chars)) &&
    self.config.aboveRelThreshold (maxLoad chars) (minLoad chars)

/-- `min_by_key` over the counts: one of the URLs with the least count, whichever the iteration order of
the map puts first. -/
def minUrl (draw : Nat) : Option String :=
  let least := chars.toList.filter fun entry => entry.2 == minLoad chars
  least[draw % least.length]?.map Prod.fst

/-- The URL of a random healthy worker. -/
def randomUrl (workers : List Worker) (healthyIndices : List Nat) (draw : Nat) : Option String :=
  (healthyIndices[randomRange draw healthyIndices.length]?.bind fun idx => workers[idx]?).map (·.url)

/-- The URL a bucket leads to. -/
def chooseUrl (bucket : Bucket) (workers : List Worker) (healthyIndices : List Nat)
    (charCount : UInt64) (chance : Chance) : Option String :=
  if self.isImbalanced bucket.charsPerUrl then
    (minUrl bucket.charsPerUrl chance.second).or (randomUrl workers healthyIndices chance.first)
  else
    ((bucket.findBoundary charCount).filter fun url => !url.isEmpty).or
      (randomUrl workers healthyIndices chance.first)

def selectWorker (workers : List Worker) (info : SelectWorkerInfo)
    (moment : Moment) : Option Nat × Policy :=
  let healthyIndices := getHealthyWorkerIndices workers
  match healthyIndices[0]?.bind fun idx => workers[idx]? with
  | none => (none, self)
  | some firstHealthy =>
    let charCount := ofNat ((info.requestText.map String.length).getD 0)
    let modelKey := normalizeModelKey firstHealthy.modelId
    match self.buckets.get? modelKey with
    | some bucket =>
      match self.chooseUrl bucket workers healthyIndices charCount moment.chance with
      | some url =>
        (positionOf workers url, self.setBucket modelKey
          (bucket.postProcessRequest charCount url moment.id moment.now))
      | none => (none, self)
    | none =>
      ((randomUrl workers healthyIndices moment.chance.first).bind (positionOf workers), self)

end Policy
end ModelGateway.BucketPolicy
