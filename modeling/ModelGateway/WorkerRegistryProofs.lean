import ModelGateway.WorkerRegistry

/-! The indexes of the worker registry over every sequence of calls: what they hold about the registered
workers, as long as a worker that is removed or replaced still names the models it was indexed under. -/
namespace ModelGateway.WorkerRegistry
open WorkerRing (HashRing Position)
open Option
open KeyedMap
open List

variable {hash : String → Position}

/-! ### Lists of ids under one attribute -/

section
variable {κ : Type} [DecidableEq κ]

theorem IdIndex.count_push (index : IdIndex κ) (key probe : κ) (workerId other : WorkerId) :
    (listed (push index key workerId) probe).count other =
      (listed index probe).count other + if other = workerId ∧ probe = key then 1 else 0 := by
  unfold listed push
  rw [get?_insert]
  by_cases same : probe = key
  · simp [same, listed, count_singleton, @eq_comm _ workerId]
  · simp [same]

theorem IdIndex.count_drop (index : IdIndex κ) (key probe : κ) (workerId other : WorkerId) :
    (listed (drop index key workerId) probe).count other =
      if other = workerId ∧ probe = key then 0 else (listed index probe).count other := by
  unfold listed drop
  cases held : index.get? key with
  | none => by_cases same : probe = key <;> simp [same, held]
  | some ids =>
    rw [get?_insert]
    by_cases same : probe = key
    · by_cases gone : other = workerId
      · simp [same, gone, count_eq_zero]
      · simp [same, gone, held, count_filter]
    · simp [same]

/-- Every registered worker is listed once, under its attribute, and no other id is listed. -/
def Placed (facet : Worker → κ) (index : IdIndex κ) (workers : KeyedMap WorkerId Worker) : Prop :=
  ∀ workerId key, (IdIndex.listed index key).count workerId =
    if (workers.get? workerId).map facet = some key then 1 else 0

variable {facet : Worker → κ} {index : IdIndex κ} {workers : KeyedMap WorkerId Worker} {workerId : WorkerId}

variable (placed : Placed facet index workers)
include placed

theorem Placed.push (fresh : workers.get? workerId = none) (worker : Worker) :
    Placed facet (IdIndex.push index (facet worker) workerId) (workers.insert workerId worker) := by
  intro probe key
  rw [IdIndex.count_push, placed, get?_insert]
  by_cases same : probe = workerId
  · simp [same, fresh, eq_comm]
  · simp [same]

theorem Placed.drop {worker : Worker} (held : workers.get? workerId = some worker) :
    Placed facet (IdIndex.drop index (facet worker) workerId) (workers.erase workerId) := by
  intro probe key
  rw [IdIndex.count_drop, placed, get?_erase]
  by_cases same : probe = workerId
  · simpa [same, held] using Ne.symm
  · simp [same]

theorem Placed.move {old : Worker} (held : workers.get? workerId = some old) (new : Worker) :
    Placed facet (IdIndex.move index (facet old) (facet new) workerId) (workers.insert workerId new) := by
  unfold IdIndex.move
  intro probe key
  split
  · next same =>
    rw [placed probe key, get?_insert]
    by_cases here : probe = workerId
    · simp [here, held, same]
    · simp [here]
  · rw [IdIndex.count_push, placed.drop held, get?_erase, get?_insert]
    by_cases here : probe = workerId
    · simp [here, eq_comm]
    · simp [here]

end

/-! ### The model index and its rings -/

/-- The ring of a list of workers; an empty list has none. -/
def ringOf (hashPosition : String → Position) (workers : List Worker) : Option HashRing :=
  if workers.isEmpty then none else some (HashRing.new hashPosition (workers.map (·.url)))

/-- Every list of the model index is non-empty and without repeated URLs, and has its ring. -/
structure Indexed (hashPosition : String → Position) (registry : Registry) : Prop where
  distinct : ∀ model, ((registry.getByModel model).map (·.url)).Nodup
  occupied : ∀ model, registry.modelIndex.get? model ≠ some []
  ringed : ∀ model, registry.hashRings.get? model = ringOf hashPosition (registry.getByModel model)

/-- Two registries that differ in the model index and the rings at most. -/
structure Frame (pre post : Registry) : Prop where
  workers : post.workers = pre.workers
  typeWorkers : post.typeWorkers = pre.typeWorkers
  connectionWorkers : post.connectionWorkers = pre.connectionWorkers
  urlToId : post.urlToId = pre.urlToId
  overrides : post.overrides = pre.overrides

theorem Frame.refl (registry : Registry) : Frame registry registry := ⟨rfl, rfl, rfl, rfl, rfl⟩

theorem Frame.trans {first second third : Registry} (one : Frame first second)
    (other : Frame second third) : Frame first third where
  workers := other.workers.trans one.workers
  typeWorkers := other.typeWorkers.trans one.typeWorkers
  connectionWorkers := other.connectionWorkers.trans one.connectionWorkers
  urlToId := other.urlToId.trans one.urlToId
  overrides := other.overrides.trans one.overrides

namespace Registry
variable {registry : Registry}

theorem frame_rebuildHashRing (model : String) : Frame registry (registry.rebuildHashRing hash model) := by
  unfold rebuildHashRing
  split <;> exact ⟨rfl, rfl, rfl, rfl, rfl⟩

theorem modelIndex_rebuildHashRing (model : String) :
    (registry.rebuildHashRing hash model).modelIndex = registry.modelIndex := by
  unfold rebuildHashRing
  split <;> rfl

theorem getByModel_rebuildHashRing (model probe : String) :
    (registry.rebuildHashRing hash model).getByModel probe = registry.getByModel probe := by
  unfold getByModel
  rw [modelIndex_rebuildHashRing]

/-- Rebuilding the ring of the one model whose list has changed restores the rings. -/
theorem indexed_rebuildHashRing {model : String} (distinct : ∀ model, ((registry.getByModel model).map (·.url)).Nodup)
    (occupied : ∀ model, registry.modelIndex.get? model ≠ some [])
    (others : ∀ other, other ≠ model → registry.hashRings.get? other = ringOf hash (registry.getByModel other)) :
    Indexed hash (registry.rebuildHashRing hash model) := by
  constructor
  · intro probe
    rw [getByModel_rebuildHashRing]
    exact distinct probe
  · intro probe
    rw [modelIndex_rebuildHashRing]
    exact occupied probe
  · intro probe
    rw [getByModel_rebuildHashRing]
    unfold rebuildHashRing
    by_cases same : probe = model
    · subst same
      unfold getByModel ringOf
      cases held : registry.modelIndex.get? probe with
      | none => simp [get?_erase]
      | some workers =>
        have nonempty : workers ≠ [] := fun empty => occupied probe (by rw [held, empty])
        simp [nonempty]
    · rw [← others probe same]
      split <;> simp [get?_insert, get?_erase, same]

theorem getByModel_add (model probe : String) (worker : Worker) :
    (registry.addWorkerToModelIndex model worker).getByModel probe =
      if probe = model then
        (registry.getByModel model).filter (fun other => other.url ≠ worker.url) ++ [worker]
      else registry.getByModel probe := by
  unfold getByModel addWorkerToModelIndex
  rw [get?_insert]
  by_cases same : probe = model
  · subst same
    cases registry.modelIndex.get? probe <;> simp
  · simp [same]

theorem nodup_replaced {workers : List Worker} (distinct : (workers.map (·.url)).Nodup) (worker : Worker) :
    ((workers.filter (fun other => other.url ≠ worker.url) ++ [worker]).map (·.url)).Nodup := by
  rw [map_append, nodup_append]
  refine ⟨distinct.sublist (filter_sublist.map _), nodup_singleton _, ?_⟩
  intro url mem other single
  obtain ⟨kept, found, rfl⟩ := mem_map.mp mem
  have apart := of_mem_filter found
  rw [map_singleton, mem_singleton] at single
  rw [single]
  simpa using apart

theorem indexed_indexUnder (indexed : Indexed hash registry) (worker : Worker)
    (model : String) : Indexed hash (registry.indexUnder hash worker model) := by
  unfold indexUnder
  apply indexed_rebuildHashRing
  · intro probe
    rw [getByModel_add]
    split
    · exact nodup_replaced (indexed.distinct model) worker
    · exact indexed.distinct probe
  · intro probe
    unfold addWorkerToModelIndex
    rw [get?_insert]
    split
    · split <;> simp
    · exact indexed.occupied probe
  · intro probe other
    rw [getByModel_add, if_neg other]
    exact indexed.ringed probe

theorem frame_dropFromModelIndex (model url : String) : Frame registry (registry.dropFromModelIndex model url) := by
  unfold dropFromModelIndex
  split
  · exact Frame.refl registry
  · dsimp only
    split <;> exact ⟨rfl, rfl, rfl, rfl, rfl⟩

theorem get?_dropFromModelIndex (model url probe : String) :
    (registry.dropFromModelIndex model url).modelIndex.get? probe =
      if probe = model then
        ((registry.modelIndex.get? model).map
          (filter fun (other : Worker) => other.url ≠ url)).filter fun left => !left.isEmpty
      else registry.modelIndex.get? probe := by
  unfold dropFromModelIndex
  cases held : registry.modelIndex.get? model with
  | none =>
    by_cases same : probe = model
    · simp [same, held]
    · simp [same]
  | some workers =>
    simp only [map_some, filter_some]
    split
    · next empty => simp only [get?_erase, empty, Bool.not_true, Bool.false_eq_true, if_false]
    · next left =>
      rw [Bool.not_eq_true] at left
      simp only [get?_insert, left, Bool.not_false, if_true]

theorem hashRings_dropFromModelIndex (model url : String) :
    (registry.dropFromModelIndex model url).hashRings = registry.hashRings := by
  unfold dropFromModelIndex
  split
  · rfl
  · dsimp only
    split <;> rfl

theorem getByModel_dropFromModelIndex (model url probe : String) :
    (registry.dropFromModelIndex model url).getByModel probe =
      if probe = model then (registry.getByModel model).filter (fun other => other.url ≠ url)
      else registry.getByModel probe := by
  unfold getByModel
  rw [get?_dropFromModelIndex]
  by_cases same : probe = model
  · rw [if_pos same, if_pos same]
    cases registry.modelIndex.get? model with
    | none => rfl
    | some workers =>
      rw [map_some, getD_some, filter_some]
      split
      · rfl
      · next empty =>
        rw [Bool.not_eq_true', Bool.not_eq_false, List.isEmpty_iff] at empty
        exact empty.symm
  · rw [if_neg same, if_neg same]

theorem indexed_removeWorkerFromModelIndex (indexed : Indexed hash registry) (url model : String) :
    Indexed hash (registry.removeWorkerFromModelIndex hash url model) := by
  unfold removeWorkerFromModelIndex
  apply indexed_rebuildHashRing
  · intro probe
    rw [getByModel_dropFromModelIndex]
    split
    · exact (indexed.distinct model).sublist (filter_sublist.map _)
    · exact indexed.distinct probe
  · intro probe
    rw [get?_dropFromModelIndex]
    split
    · intro held
      obtain ⟨_, nonempty⟩ := filter_eq_some_iff.mp held
      simp at nonempty
    · exact indexed.occupied probe
  · intro probe other
    rw [hashRings_dropFromModelIndex, getByModel_dropFromModelIndex, if_neg other]
    exact indexed.ringed probe

/-! ### Whole lists of models -/

variable (indexed : Indexed hash registry)
include indexed

theorem foldl_indexUnder (worker : Worker) (models : List String) :
    Indexed hash (models.foldl (indexUnder hash worker) registry) ∧
      Frame registry (models.foldl (indexUnder hash worker) registry) ∧ ∀ model entry,
        entry ∈ (models.foldl (indexUnder hash worker) registry).getByModel model ↔
          entry ∈ registry.getByModel model ∧ (model ∈ models → entry.url ≠ worker.url) ∨
            model ∈ models ∧ entry = worker := by
  induction models generalizing registry with
  | nil => exact ⟨indexed, Frame.refl registry, by simp⟩
  | cons first rest ih =>
    obtain ⟨later, frame, members⟩ := ih (indexed_indexUnder indexed worker first)
    have added : Frame registry (registry.addWorkerToModelIndex first worker) := ⟨rfl, rfl, rfl, rfl, rfl⟩
    refine ⟨later, (added.trans (frame_rebuildHashRing first)).trans frame, fun model entry => ?_⟩
    rw [foldl_cons, members, indexUnder, getByModel_rebuildHashRing, getByModel_add]
    by_cases same : model = first
    · subst same
      by_cases equal : entry = worker
      · simp only [equal, if_true, mem_append, mem_cons, true_or]
        tauto
      · simp only [equal, if_true, mem_append, mem_filter, mem_cons, true_or, decide_eq_true_eq]
        tauto
    · simp [same]

theorem foldl_removeWorkerFromModelIndex (url : String) (models : List String) :
    Indexed hash (models.foldl (removeWorkerFromModelIndex hash url) registry) ∧
      Frame registry (models.foldl (removeWorkerFromModelIndex hash url) registry) ∧ ∀ model entry,
        entry ∈ (models.foldl (removeWorkerFromModelIndex hash url) registry).getByModel model ↔
          entry ∈ registry.getByModel model ∧ (model ∈ models → entry.url ≠ url) := by
  induction models generalizing registry with
  | nil => exact ⟨indexed, Frame.refl registry, by simp⟩
  | cons first rest ih =>
    obtain ⟨later, frame, members⟩ := ih (indexed_removeWorkerFromModelIndex indexed url first)
    refine ⟨later, ((frame_dropFromModelIndex first url).trans (frame_rebuildHashRing first)).trans frame,
      fun model entry => ?_⟩
    rw [foldl_cons, members]
    unfold removeWorkerFromModelIndex
    rw [getByModel_rebuildHashRing, getByModel_dropFromModelIndex]
    by_cases same : model = first
    · subst same
      simp
      tauto
    · simp [same]

theorem reindex_spec (newWorker : Worker) (oldModels newModels : List String) : Indexed hash
        (registry.reindex hash newWorker.url newWorker oldModels newModels) ∧
      Frame registry (registry.reindex hash newWorker.url newWorker oldModels newModels) ∧
      ∀ model entry, entry ∈ (registry.reindex hash newWorker.url newWorker oldModels
            newModels).getByModel model ↔ entry ∈ registry.getByModel model ∧
              (model ∈ oldModels ++ newModels → entry.url ≠ newWorker.url) ∨
            model ∈ newModels ∧ entry = newWorker := by
  obtain ⟨clearedIndex, clearedFrame, cleared⟩ := foldl_removeWorkerFromModelIndex indexed
    newWorker.url (oldModels.filter fun model => model ∉ newModels)
  obtain ⟨addedIndex, addedFrame, added⟩ := foldl_indexUnder clearedIndex newWorker
    (newModels.filter fun model => model ∉ oldModels)
  obtain ⟨keptIndex, keptFrame, kept⟩ := foldl_indexUnder addedIndex newWorker
    (oldModels.filter fun model => model ∈ newModels)
  refine ⟨keptIndex, (clearedFrame.trans addedFrame).trans keptFrame, fun model entry => ?_⟩
  unfold reindex
  rw [kept, added, cleared]
  by_cases old : model ∈ oldModels <;> by_cases new : model ∈ newModels <;> simp [old, new]

end Registry
end ModelGateway.WorkerRegistry
