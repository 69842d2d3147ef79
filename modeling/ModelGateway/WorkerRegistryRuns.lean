import ModelGateway.WorkerRegistryProofs

/-! Sequences of calls on the worker registry.  Beside the registry runs a record of the models each
worker was indexed under when it was registered or last replaced. -/
namespace ModelGateway.WorkerRegistry
open WorkerRing (HashRing Position)
open IdIndex
open Function
open Option
open KeyedMap Registry

variable {hash hashPosition : String → Position}

/-- The models each worker id was indexed under. -/
abbrev Record := WorkerId → List String

def Record.after (hashPosition : String → Position) (record : Record) (registry : Registry) :
    Call → Record
  | .register worker newId =>
    match (registry.register hashPosition worker newId).1 with
    | some workerId =>
      update record workerId (worker.workerModelIds registry.overrides)
    | none => record
  | .registerOrReplace worker newId =>
    update record (registry.registerOrReplace hashPosition worker newId).1 (worker.workerModelIds registry.overrides)
  | .replace workerId newWorker =>
    match (registry.replace hashPosition workerId newWorker).1 with
    | true => update record workerId (newWorker.workerModelIds registry.overrides)
    | false => record
  | _ => record

/-- A new id is not in use. -/
def Fresh (registry : Registry) (newId : WorkerId) : Prop :=
  ∀ url, registry.urlToId.get? url ≠ some newId

/-- The ids that calls make are new. -/
def Enabled (registry : Registry) : Call → Prop
  | .register _ newId | .registerOrReplace _ newId | .reserveIdForUrl _ newId =>
    Fresh registry newId
  | _ => True

/-- The models of a registered worker, as it or its replacement names them now, cover those it was
indexed under. -/
def Covers (record : Record) (registry : Registry) (workerId : WorkerId) (others : List String) :
    Prop :=
  ∀ worker, registry.workers.get? workerId = some worker →
    record workerId ⊆ worker.workerModelIds registry.overrides ++ others

/-- What a call that removes or replaces a worker relies on. -/
def StillNamed (record : Record) (registry : Registry) : Call → Prop
  | .remove workerId => Covers record registry workerId []
  | .removeByUrl url =>
    ∀ workerId, registry.urlToId.get? url = some workerId → Covers record registry workerId []
  | .replace workerId newWorker =>
    Covers record registry workerId (newWorker.workerModelIds registry.overrides)
  | .registerOrReplace worker _ =>
    ∀ workerId, registry.urlToId.get? worker.url = some workerId →
      Covers record registry workerId (worker.workerModelIds registry.overrides)
  | _ => True

/-- The registries that allowed calls lead to, with the record of the models. -/
inductive Reached (hashPosition : String → Position)
    (allowed : Record → Registry → Call → Prop) : Registry → Record → Prop
  | new (overrides : Overrides) :
    Reached hashPosition allowed { overrides := overrides } (fun _ => [])
  | call {registry : Registry} {record : Record} (next : Call)
    (pre : Reached hashPosition allowed registry record) (enabled : Enabled registry next)
    (permitted : allowed record registry next) :
    Reached hashPosition allowed (registry.call hashPosition next) (record.after hashPosition registry next)

/-- Every registered worker is found under its URL, and no two URLs share an id. -/
structure Named (workers : KeyedMap WorkerId Worker) (urlToId : KeyedMap String WorkerId) :
    Prop where
  urls : ∀ workerId worker, workers.get? workerId = some worker → urlToId.get? worker.url = some workerId
  ids : ∀ url other workerId, urlToId.get? url = some workerId → urlToId.get? other = some workerId → url = other

/-- The indexes agree with the workers and the record. -/
structure Consistent (hashPosition : String → Position) (registry : Registry) (record : Record) :
    Prop where
  index : Indexed hashPosition registry
  models : ∀ model worker, worker ∈ registry.getByModel model ↔
    ∃ workerId, registry.workers.get? workerId = some worker ∧ model ∈ record workerId
  types : Placed (·.workerType) registry.typeWorkers registry.workers
  connections : Placed (·.connectionMode) registry.connectionWorkers registry.workers
  named : Named registry.workers registry.urlToId

section
variable {workers : KeyedMap WorkerId Worker} {urlToId : KeyedMap String WorkerId}
  {workerId : WorkerId} {worker : Worker}

variable (named : Named workers urlToId)
include named

/-- Reserving an id for a URL. -/
theorem Named.reserve {newId : WorkerId} (fresh : ∀ url, urlToId.get? url ≠ some newId) (url : String) :
    Named workers (urlToId.insert url ((urlToId.get? url).getD newId)) := by
  cases held : urlToId.get? url with
  | some known =>
    have same (probe : String) : (urlToId.insert url known).get? probe = urlToId.get? probe := by
      rw [get?_insert]
      split
      · next equal => rw [equal, held]
      · rfl
    rw [getD_some]
    constructor <;> simp only [same]
    · exact named.urls
    · exact named.ids
  | none =>
    rw [getD_none]
    constructor
    · intro id worker found
      have kept := named.urls id worker found
      rw [get?_insert, if_neg, kept]
      intro equal
      rw [equal, held] at kept
      cases kept
    · intro one other id here there
      rw [get?_insert] at here there
      split at here <;> split at there
      · next first second => rw [first, second]
      · rw [← some.inj here] at there
        exact absurd there (fresh other)
      · rw [← some.inj there] at here
        exact absurd here (fresh one)
      · exact named.ids one other id here there

theorem Named.enter (reserved : urlToId.get? worker.url = some workerId) :
    Named (workers.insert workerId worker) urlToId :=
  ⟨forall_insert named.urls reserved, named.ids⟩

theorem Named.leave (held : workers.get? workerId = some worker) :
    Named (workers.erase workerId) (urlToId.erase worker.url) := by
  constructor
  · intro id other found
    rw [get?_erase] at found
    split at found
    · cases found
    · next apart =>
      have kept := named.urls id other found
      rw [get?_erase, if_neg, kept]
      intro equal
      rw [equal, named.urls workerId worker held] at kept
      exact apart (some.inj kept).symm
  · intro one other id here there
    rw [get?_erase] at here there
    split at here
    · cases here
    · split at there
      · cases there
      · exact named.ids one other id here there

theorem Named.unique {other : Worker} {otherId : WorkerId} (held : workers.get? workerId = some worker)
    (heldToo : workers.get? otherId = some other) (same : other.url = worker.url) : otherId = workerId := by
  have one := named.urls workerId worker held
  have two := named.urls otherId other heldToo
  rw [same, one] at two
  exact (some.inj two).symm

end

section
variable {registry : Registry} {record : Record}

theorem consistent_new (overrides : Overrides) : Consistent hash { overrides := overrides } (fun _ => []) where
  index := ⟨fun _ => List.nodup_nil, fun _ => nofun, fun _ => rfl⟩
  models := fun model worker => by simp [getByModel]
  types := fun _ _ => rfl
  connections := fun _ _ => rfl
  named := ⟨nofun, nofun⟩

variable {newId : WorkerId} {worker : Worker} {workerId : WorkerId} {newWorker : Worker}

section
variable (consistent : Consistent hash registry record)
include consistent

theorem Consistent.reserve (fresh : Fresh registry newId) (url : String) : Consistent hash
      { registry with
          urlToId := registry.urlToId.insert url ((registry.urlToId.get? url).getD newId) }
      record :=
  { consistent with
    index := { consistent.index with }
    named := consistent.named.reserve fresh url }

omit consistent in
theorem Consistent.of_frame {start after : Registry} {types : IdIndex WorkerType}
    {connections : IdIndex ConnectionMode} (indexed : Indexed hash after) (frame : Frame start after)
    (models : ∀ model entry, entry ∈ after.getByModel model ↔
      ∃ id, start.workers.get? id = some entry ∧ model ∈ record id)
    (typed : Placed (·.workerType) types start.workers)
    (connected : Placed (·.connectionMode) connections start.workers)
    (named : Named start.workers start.urlToId) :
    Consistent hash { after with typeWorkers := types, connectionWorkers := connections } record := by
  rw [← frame.workers] at models typed connected named
  rw [← frame.urlToId] at named
  exact ⟨{ indexed with }, models, typed, connected, named⟩

/-- A worker is stored under the id of its URL, after its URL was dropped from some models and it was listed
under others. -/
theorem Consistent.store (reserved : registry.urlToId.get? worker.url = some workerId)
    {dropped models : List String} {after : Registry}
    (covered : ∀ old, registry.workers.get? workerId = some old → record workerId ⊆ dropped)
    (indexed : Indexed hash after)
    (frame : Frame { registry with workers := registry.workers.insert workerId worker } after)
    (members : ∀ model entry, entry ∈ after.getByModel model ↔
      entry ∈ registry.getByModel model ∧ (model ∈ dropped → entry.url ≠ worker.url) ∨
        model ∈ models ∧ entry = worker)
    {types : IdIndex WorkerType} {connections : IdIndex ConnectionMode}
    (typed : Placed (·.workerType) types (registry.workers.insert workerId worker))
    (connected : Placed (·.connectionMode) connections (registry.workers.insert workerId worker)) :
    Consistent hash { after with typeWorkers := types, connectionWorkers := connections }
      (update record workerId models) := by
  refine .of_frame indexed frame (fun model entry => ?_) typed connected (consistent.named.enter reserved)
  rw [members]
  show entry ∈ registry.getByModel model ∧ _ ∨ _ ↔ _
  rw [consistent.models]
  constructor
  · rintro (⟨⟨otherId, found, recorded⟩, apart⟩ | ⟨named, rfl⟩)
    · have other : otherId ≠ workerId := by
        rintro rfl
        have named := consistent.named.urls otherId entry found
        exact apart (covered entry found recorded) (consistent.named.ids _ _ _ named reserved)
      refine ⟨otherId, ?_, ?_⟩
      · rw [get?_insert, if_neg other, found]
      · rwa [update_of_ne other]
    · exact ⟨workerId, by rw [get?_insert, if_pos rfl], by rwa [update_self]⟩
  · rintro ⟨otherId, found, recorded⟩
    rw [get?_insert] at found
    split at found
    · next same =>
      subst same
      rw [update_self] at recorded
      exact .inr ⟨recorded, (some.inj found).symm⟩
    · next other =>
      rw [update_of_ne other] at recorded
      refine .inl ⟨⟨otherId, found, recorded⟩, fun _ same => other ?_⟩
      have named := consistent.named.urls otherId entry found
      rw [same, reserved] at named
      exact (some.inj named).symm

theorem Consistent.enter (reserved : registry.urlToId.get? worker.url = some workerId)
    (absent : registry.workers.get? workerId = none) (models : List String) {after : Registry}
    (entered : after = models.foldl (indexUnder hash worker)
      { registry with workers := registry.workers.insert workerId worker }) :
    Consistent hash
      { after with
          typeWorkers := push after.typeWorkers worker.workerType workerId
          connectionWorkers := push after.connectionWorkers worker.connectionMode workerId }
      (update record workerId models) := by
  have start : Indexed hash { registry with workers := registry.workers.insert workerId worker } :=
    { consistent.index with }
  obtain ⟨indexed, frame, members⟩ := foldl_indexUnder start worker models
  rw [← entered] at indexed frame members
  rw [frame.typeWorkers, frame.connectionWorkers]
  exact consistent.store reserved (fun old held => nomatch absent.symm.trans held) indexed frame members
    (consistent.types.push absent worker) (consistent.connections.push absent worker)

theorem Consistent.register (worker : Worker) (fresh : Fresh registry newId) :
    Consistent hash (registry.register hash worker newId).2
      (record.after hash registry (.register worker newId)) := by
  have reserved := consistent.reserve fresh worker.url
  unfold Record.after Registry.register
  dsimp only
  generalize id : (registry.urlToId.get? worker.url).getD newId = workerId at reserved ⊢
  split
  · exact reserved
  · next absent =>
    rw [contains, Bool.not_eq_true, isSome_eq_false_iff, isNone_iff_eq_none] at absent
    exact reserved.enter (by rw [get?_insert_self]) absent _ rfl

theorem Consistent.swap {oldWorker : Worker} (held : registry.workers.get? workerId = some oldWorker)
    (url : oldWorker.url = newWorker.url)
    (covers : Covers record registry workerId (newWorker.workerModelIds registry.overrides)) :
    Consistent hash (registry.swap hash workerId oldWorker newWorker)
      (update record workerId (newWorker.workerModelIds registry.overrides)) := by
  have covered := covers oldWorker held
  have reserved : registry.urlToId.get? newWorker.url = some workerId := by
    rw [← url]
    exact consistent.named.urls workerId oldWorker held
  unfold Registry.swap
  rw [url]
  dsimp only
  generalize oldWorker.workerModelIds registry.overrides = oldModels at covered ⊢
  generalize newWorker.workerModelIds registry.overrides = newModels at covered ⊢
  have start : Indexed hash { registry with workers := registry.workers.insert workerId newWorker } :=
    { consistent.index with }
  obtain ⟨indexed, frame, members⟩ := reindex_spec start newWorker oldModels newModels
  generalize reindex hash newWorker.url newWorker oldModels newModels _ = after at indexed frame members ⊢
  rw [frame.typeWorkers, frame.connectionWorkers]
  exact consistent.store reserved (fun _ _ => covered) indexed frame members
    (consistent.types.move held newWorker) (consistent.connections.move held newWorker)

theorem Consistent.replace (covers : Covers record registry workerId (newWorker.workerModelIds registry.overrides)) :
    Consistent hash (registry.replace hash workerId newWorker).2
      (record.after hash registry (.replace workerId newWorker)) := by
  simp only [Record.after, Registry.replace]
  cases held : registry.workers.get? workerId with
  | none => exact consistent
  | some oldWorker =>
    by_cases url : oldWorker.url = newWorker.url
    · simp only [url, ne_eq, not_true_eq_false, if_false]
      exact consistent.swap held url covers
    · simp only [ne_eq, url, not_false_eq_true, if_true]
      exact consistent

/-- A worker whose models cover those it was indexed under is removed from all indexes. -/
theorem Consistent.remove (covers : Covers record registry workerId []) :
    Consistent hash (registry.remove hash workerId).2 record := by
  unfold Registry.remove
  cases held : registry.workers.get? workerId with
  | none => exact consistent
  | some worker =>
    have covered := covers worker held
    rw [List.append_nil] at covered
    dsimp only
    generalize worker.workerModelIds registry.overrides = models at covered ⊢
    have start : Indexed hash
        { registry with
            workers := registry.workers.erase workerId
            urlToId := registry.urlToId.erase worker.url } := { consistent.index with }
    obtain ⟨indexed, frame, members⟩ := foldl_removeWorkerFromModelIndex start worker.url models
    generalize models.foldl (removeWorkerFromModelIndex hash worker.url) _ = after at indexed frame members ⊢
    refine .of_frame indexed frame (fun model entry => ?_) ?_ ?_ (consistent.named.leave held)
    · rw [members]
      show entry ∈ registry.getByModel model ∧ _ ↔ _
      rw [consistent.models]
      constructor
      · rintro ⟨⟨otherId, found, recorded⟩, apart⟩
        have other : otherId ≠ workerId := by
          rintro rfl
          rw [held] at found
          exact apart (covered recorded) (by rw [some.inj found])
        exact ⟨otherId, by rw [get?_erase, if_neg other, found], recorded⟩
      · rintro ⟨otherId, found, recorded⟩
        rw [get?_erase] at found
        split at found
        · cases found
        · next other =>
          exact ⟨⟨otherId, found, recorded⟩, fun _ same =>
            other (consistent.named.unique held found same)⟩
    · rw [frame.typeWorkers]
      exact consistent.types.drop held
    · rw [frame.connectionWorkers]
      exact consistent.connections.drop held

theorem Consistent.registerOrReplace (fresh : Fresh registry newId)
    (covers : ∀ workerId, registry.urlToId.get? worker.url = some workerId →
      Covers record registry workerId (worker.workerModelIds registry.overrides)) :
    Consistent hash (registry.registerOrReplace hash worker newId).2
      (record.after hash registry (.registerOrReplace worker newId)) := by
  have reserved := consistent.reserve fresh worker.url
  have registered := consistent.register worker fresh
  simp only [Record.after, Registry.registerOrReplace, Registry.register] at registered ⊢
  generalize chosen : (registry.urlToId.get? worker.url).getD newId = workerId at reserved registered ⊢
  by_cases active : registry.workers.contains workerId = true
  · obtain ⟨oldWorker, held⟩ := isSome_iff_exists.mp active
    -- the worker that is there was registered for this URL
    have known : registry.urlToId.get? worker.url = some workerId := by
      cases found : registry.urlToId.get? worker.url with
      | some known => rw [← chosen, found, getD_some]
      | none =>
        rw [← chosen, found, getD_none] at held
        exact absurd (consistent.named.urls _ _ held) (fresh oldWorker.url)
    have url : oldWorker.url = worker.url :=
      consistent.named.ids _ _ workerId (consistent.named.urls workerId oldWorker held) known
    have replaced := reserved.swap held url (covers workerId known)
    simp only [active, if_true, get?_insert_self, Registry.replace, held, url, ne_eq, not_true_eq_false, if_false]
    exact replaced
  · simp only [active] at registered ⊢
    exact registered

theorem Consistent.call {next : Call} (enabled : Enabled registry next)
    (named : StillNamed record registry next) : Consistent hash (registry.call hash next)
      (record.after hash registry next) := by
  cases next with
  | register worker newId => exact consistent.register worker enabled
  | registerOrReplace worker newId => exact consistent.registerOrReplace enabled named
  | replace workerId newWorker => exact consistent.replace named
  | remove workerId => exact consistent.remove named
  | removeByUrl url =>
    show Consistent _ (registry.removeByUrl hash url).2 record
    unfold Registry.removeByUrl
    cases found : registry.urlToId.get? url with
    | none => exact consistent
    | some workerId => exact consistent.remove (named workerId found)
  | reserveIdForUrl url newId => exact consistent.reserve enabled url
  | setModels workerId models =>
    show Consistent _ (registry.call hash (.setModels workerId models)) record
    unfold Registry.call
    cases held : registry.workers.get? workerId with
    | none => simpa only [held] using consistent
    | some worker =>
      simp only [held]
      exact { consistent with index := { consistent.index with } }

end

theorem Reached.consistent (reached : Reached hash StillNamed registry record) : Consistent hash registry record := by
  induction reached with
  | new overrides => exact consistent_new overrides
  | call next pre enabled permitted ih => exact ih.call enabled permitted

/-- In every registry reached, if workers are removed and replaced only while they name the models they
were indexed under: the list of a model has one entry for each registered worker indexed under it, and
its ring; the type and mode indexes list every registered id once; and each URL leads to its worker. -/
theorem indexes_agree (reached : Reached hashPosition StillNamed registry record) :
    (∀ model, ((registry.getByModel model).map (·.url)).Nodup ∧ (∀ worker, worker ∈ registry.getByModel model ↔
          ∃ workerId, registry.workers.get? workerId = some worker ∧ model ∈ record workerId) ∧
        registry.hashRings.get? model = if registry.getByModel model = [] then none
          else some (HashRing.new hashPosition ((registry.getByModel model).map (·.url)))) ∧
      ∀ workerId worker, registry.workers.get? workerId = some worker →
        (∀ workerType, (listed registry.typeWorkers workerType).count workerId =
          if worker.workerType = workerType then 1 else 0) ∧
        (∀ mode, (listed registry.connectionWorkers mode).count workerId =
          if worker.connectionMode = mode then 1 else 0) ∧
        registry.urlToId.get? worker.url = some workerId := by
  have consistent := reached.consistent
  refine ⟨fun model => ⟨consistent.index.distinct model, consistent.models model, ?_⟩,
    fun workerId worker held => ⟨fun workerType => ?_, fun mode => ?_, consistent.named.urls workerId worker held⟩⟩
  · rw [consistent.index.ringed model, ringOf]
    simp only [List.isEmpty_iff]
  · rw [consistent.types workerId workerType, held]
    simp only [map_some, some.injEq]
  · rw [consistent.connections workerId mode, held]
    simp only [map_some, some.injEq]

end

/-- A worker that serves model `m`. -/
def sampleWorker : Worker := { url := "w", specModels := ["m"], cell := 0 }

/-- The registry with that worker under the id `id`. -/
def sampleRegistry : Registry := Registry.call (fun _ => 0) {} (.register sampleWorker "id")

def sampleRecord : Record :=
  Record.after (fun _ => 0) (fun _ => []) {} (.register sampleWorker "id")

theorem reached_sample {allowed : Record → Registry → Call → Prop}
    (permitted : allowed (fun _ => []) {} (.register sampleWorker "id")) :
    Reached (fun _ => 0) allowed sampleRegistry sampleRecord :=
  .call _ (.new _) nofun permitted

/-- A second worker, and one that takes the place of the first. -/
def otherWorker : Worker := { url := "v", specModels := ["m", "n"], cell := 1 }

def nextWorker : Worker := { url := "w", workerType := .decode, specModels := ["n"], cell := 2 }

/-- The first worker is found to serve `n` too before it is replaced; then the second is removed. -/
def sampleCalls : List Call :=
  [.register otherWorker "id2", .setModels "id" ["n", "m"], .replace "id" nextWorker,
    .setModels "id" ["o", "n"], .remove "id2"]

def afterCalls : List Call → Registry × Record → Registry × Record
  | [], state => state
  | next :: rest, (registry, record) =>
    afterCalls rest (registry.call (fun _ => 0) next, record.after (fun _ => 0) registry next)

theorem sample_worker_indexed : ∃ registry record,
      afterCalls sampleCalls (sampleRegistry, sampleRecord) = (registry, record) ∧
      Reached (fun _ => 0) StillNamed registry record ∧ registry.getByModel "m" = [] ∧
      registry.hashRings.get? "m" = none ∧ nextWorker ∈ registry.getByModel "n" ∧
      (listed registry.typeWorkers .decode).count "id" = 1 := by
  have start : Reached (fun _ => 0) StillNamed sampleRegistry sampleRecord := reached_sample trivial
  have second := start.call (.register otherWorker "id2") (fun url held => ?_) trivial
  · have replaced := (second.call (.setModels "id" ["n", "m"]) trivial trivial).call
      (.replace "id" nextWorker) trivial (by rintro _ ⟨⟩; decide)
    have removed := (replaced.call (.setModels "id" ["o", "n"]) trivial trivial).call
      (.remove "id2") trivial (by rintro _ ⟨⟩; decide)
    have agree := indexes_agree removed
    exact ⟨_, _, rfl, removed, rfl, (agree.1 "m").2.2.trans (if_pos rfl),
      ((agree.1 "n").2.1 nextWorker).mpr ⟨"id", rfl, by decide⟩, (agree.2 "id" nextWorker rfl).1 .decode⟩
  · change (insert ∅ "w" "id").get? url = some "id2" at held
    rw [get?_insert] at held
    split at held
    · exact absurd (some.inj held) (by decide)
    · cases held

/-- The worker is found to serve another model and then removed: it stays in the list and on the ring
of the model it was indexed under, although no worker is registered. -/
theorem removed_worker_listed : ∃ registry record, Reached (fun _ => 0) (fun _ _ _ => True) registry record ∧
      (∀ workerId, registry.workers.get? workerId = none) ∧
      registry.getByModel "m" = [sampleWorker] ∧ (registry.hashRings.get? "m").isSome = true := by
  have start : Reached (fun _ => 0) (fun _ _ _ => True) sampleRegistry sampleRecord := reached_sample trivial
  have found := start.call (.setModels "id" ["n"]) trivial trivial
  refine ⟨_, _, found.call (.remove "id") trivial trivial, fun workerId => ?_, rfl, rfl⟩
  show ((insert ∅ "id" sampleWorker).erase "id").get? workerId = none
  rw [get?_erase, get?_insert]
  split
  · rfl
  · simp

end ModelGateway.WorkerRegistry
