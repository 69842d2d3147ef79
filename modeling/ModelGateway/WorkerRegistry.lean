import ModelGateway.FirstOccurrences
import ModelGateway.KeyedMap
import ModelGateway.WorkerRing

/-! The worker registry (`worker/registry.rs`): the workers by id and the indexes by URL, model, type and
connection mode that its operations keep beside them.  A worker object can be given other models while
it is registered; that part of it is a cell of the heap. -/
namespace ModelGateway.WorkerRegistry
open WorkerRing (HashRing Position)

abbrev WorkerId := String

inductive WorkerType where
  | regular
  | prefill
  | decode
  deriving DecidableEq, Repr

inductive ConnectionMode where
  | http
  | grpc
  deriving DecidableEq, Repr

/-- `models_override` of every worker object: the ids of the models found later, none for a wildcard. -/
abbrev Overrides := Nat → List String

/-- A worker object.  `specModels` are the ids of the models of its specification, none for a wildcard;
`cell` is where its override is kept. -/
structure Worker where
  url : String
  workerType : WorkerType := .regular
  connectionMode : ConnectionMode := .http
  specModels : List String := []
  labelModelId : Option String := none
  cell : Nat
  deriving DecidableEq, Repr

namespace Worker

def unknownModelId : String := "unknown"

def modelId (self : Worker) : String :=
  (self.specModels.head?.or self.labelModelId).getD unknownModelId

def models (overrides : Overrides) (self : Worker) : List String :=
  if (overrides self.cell).isEmpty then self.specModels else overrides self.cell

/-- `worker_model_ids`: each id once, and the primary one when there are none. -/
def workerModelIds (overrides : Overrides) (self : Worker) : List String :=
  let modelIds := firsts [] (self.models overrides)
  if modelIds.isEmpty then [self.modelId] else modelIds

end Worker

/-- Lists of worker ids under the values of one attribute. -/
abbrev IdIndex (κ : Type) := KeyedMap κ (List WorkerId)

namespace IdIndex
variable {κ : Type} [DecidableEq κ]

variable (index : IdIndex κ)

def listed (key : κ) : List WorkerId := (index.get? key).getD []

/-- `entry(key).or_default().push(id)`. -/
def push (key : κ) (workerId : WorkerId) : IdIndex κ :=
  index.insert key (listed index key ++ [workerId])

/-- `get_mut(key)` and `retain(|id| id != worker_id)`. -/
def drop (key : κ) (workerId : WorkerId) : IdIndex κ :=
  match index.get? key with
  | some ids => index.insert key (ids.filter (· ≠ workerId))
  | none => index

/-- What `replace` does to an index whose attribute may have changed. -/
def move (old new : κ) (workerId : WorkerId) : IdIndex κ :=
  if old = new then index else push (drop index old workerId) new workerId

end IdIndex

structure Registry where
  workers : KeyedMap WorkerId Worker := ∅
  modelIndex : KeyedMap String (List Worker) := ∅
  hashRings : KeyedMap String HashRing := ∅
  typeWorkers : IdIndex WorkerType := ∅
  connectionWorkers : IdIndex ConnectionMode := ∅
  urlToId : KeyedMap String WorkerId := ∅
  overrides : Overrides := fun _ => []

namespace Registry

def getByModel (self : Registry) (model : String) : List Worker :=
  (self.modelIndex.get? model).getD []

section
variable (hashPosition : String → Position)

def rebuildHashRing (model : String) (self : Registry) : Registry :=
  match self.modelIndex.get? model with
  | some workers =>
    { self with
        hashRings := self.hashRings.insert model (HashRing.new hashPosition (workers.map (·.url))) }
  | none => { self with hashRings := self.hashRings.erase model }

/-- An entry with the same URL is replaced. -/
def addWorkerToModelIndex (model : String) (worker : Worker) (self : Registry) : Registry :=
  { self with
      modelIndex := self.modelIndex.insert model (match self.modelIndex.get? model with
        | some existing => existing.filter (fun (other : Worker) => other.url ≠ worker.url) ++ [worker]
        | none => [worker]) }

/-- The model goes with its last worker. -/
def dropFromModelIndex (model url : String) (self : Registry) : Registry :=
  match self.modelIndex.get? model with
  | none => self
  | some workers =>
    let left := workers.filter fun (other : Worker) => other.url ≠ url
    if left.isEmpty then { self with modelIndex := self.modelIndex.erase model }
    else { self with modelIndex := self.modelIndex.insert model left }

def removeWorkerFromModelIndex (url : String) (self : Registry) (model : String) : Registry :=
  (self.dropFromModelIndex model url).rebuildHashRing hashPosition model

/-- The two calls that index a worker under a model. -/
def indexUnder (worker : Worker) (self : Registry) (model : String) : Registry :=
  (self.addWorkerToModelIndex model worker).rebuildHashRing hashPosition model

/-- `register_inner`; a new id is only used for a URL that has none. -/
def register (worker : Worker) (newId : WorkerId) (self : Registry) : Option WorkerId × Registry :=
  let workerId := (self.urlToId.get? worker.url).getD newId
  let reserved := { self with urlToId := self.urlToId.insert worker.url workerId }
  if self.workers.contains workerId then (none, reserved)
  else
    let entered := { reserved with workers := reserved.workers.insert workerId worker }
    let indexed := (worker.workerModelIds self.overrides).foldl (indexUnder hashPosition worker)
      entered
    (some workerId,
      { indexed with
          typeWorkers := IdIndex.push indexed.typeWorkers worker.workerType workerId
          connectionWorkers := IdIndex.push indexed.connectionWorkers worker.connectionMode workerId })

/-- The diff of the model index: stale models are dropped, new ones added, and the others get the new
object. -/
def reindex (url : String) (newWorker : Worker) (oldModels newModels : List String)
    (self : Registry) : Registry :=
  let cleared := (oldModels.filter fun model => model ∉ newModels).foldl
    (removeWorkerFromModelIndex hashPosition url) self
  let added := (newModels.filter fun model => model ∉ oldModels).foldl
    (indexUnder hashPosition newWorker) cleared
  (oldModels.filter fun model => model ∈ newModels).foldl (indexUnder hashPosition newWorker) added

/-- The new object takes the place of the old one in all indexes. -/
def swap (workerId : WorkerId) (oldWorker newWorker : Worker) (self : Registry) : Registry :=
  let indexed := { self with workers := self.workers.insert workerId newWorker }.reindex
    hashPosition oldWorker.url newWorker (oldWorker.workerModelIds self.overrides)
    (newWorker.workerModelIds self.overrides)
  { indexed with
      typeWorkers := IdIndex.move indexed.typeWorkers oldWorker.workerType newWorker.workerType workerId
      connectionWorkers := IdIndex.move indexed.connectionWorkers oldWorker.connectionMode
        newWorker.connectionMode workerId }

/-- A registered worker is replaced by one with the same URL. -/
def replace (workerId : WorkerId) (newWorker : Worker) (self : Registry) : Bool × Registry :=
  match self.workers.get? workerId with
  | none => (false, self)
  | some oldWorker =>
    if oldWorker.url ≠ newWorker.url then (false, self)
    else (true, self.swap hashPosition workerId oldWorker newWorker)

/-- Registers the worker, or replaces the one that has its URL. -/
def registerOrReplace (worker : Worker) (newId : WorkerId) (self : Registry) :
    WorkerId × Registry :=
  match self.register hashPosition worker newId with
  | (some workerId, registered) => (workerId, registered)
  | (none, refused) =>
    match refused.urlToId.get? worker.url with
    | some existingId => (existingId, (refused.replace hashPosition existingId worker).2)
    | none =>
      let cleared := { refused with urlToId := refused.urlToId.erase worker.url }
      let retried := cleared.register hashPosition worker newId
      (retried.1.getD newId, retried.2)

def remove (workerId : WorkerId) (self : Registry) : Option Worker × Registry :=
  match self.workers.get? workerId with
  | none => (none, self)
  | some worker =>
    let dropped := { self with
      workers := self.workers.erase workerId
      urlToId := self.urlToId.erase worker.url }
    let cleared := (worker.workerModelIds self.overrides).foldl
      (removeWorkerFromModelIndex hashPosition worker.url) dropped
    (some worker,
      { cleared with
          typeWorkers := IdIndex.drop cleared.typeWorkers worker.workerType workerId
          connectionWorkers := IdIndex.drop cleared.connectionWorkers worker.connectionMode workerId })

def removeByUrl (url : String) (self : Registry) : Option Worker × Registry :=
  match self.urlToId.get? url with
  | none => (none, self)
  | some workerId => self.remove hashPosition workerId

end

def reserveIdForUrl (url : String) (newId : WorkerId) (self : Registry) : WorkerId × Registry :=
  let workerId := (self.urlToId.get? url).getD newId
  (workerId, { self with urlToId := self.urlToId.insert url workerId })

/-- `set_models` of a worker object. -/
def setModels (worker : Worker) (models : List String) (self : Registry) : Registry :=
  { self with overrides := Function.update self.overrides worker.cell models }

end Registry

/-- The calls on the registry; the new id is the one that is made if the call needs one. -/
inductive Call where
  | register (worker : Worker) (newId : WorkerId)
  | registerOrReplace (worker : Worker) (newId : WorkerId)
  | replace (workerId : WorkerId) (newWorker : Worker)
  | remove (workerId : WorkerId)
  | removeByUrl (url : String)
  | reserveIdForUrl (url : String) (newId : WorkerId)
  | setModels (workerId : WorkerId) (models : List String)

namespace Registry

def call (hashPosition : String → Position) (self : Registry) : Call → Registry
  | .register worker newId => (self.register hashPosition worker newId).2
  | .registerOrReplace worker newId => (self.registerOrReplace hashPosition worker newId).2
  | .replace workerId newWorker => (self.replace hashPosition workerId newWorker).2
  | .remove workerId => (self.remove hashPosition workerId).2
  | .removeByUrl url => (self.removeByUrl hashPosition url).2
  | .reserveIdForUrl url newId => (self.reserveIdForUrl url newId).2
  | .setModels workerId models =>
    match self.workers.get? workerId with
    | some worker => self.setModels worker models
    | none => self

end Registry

end ModelGateway.WorkerRegistry
