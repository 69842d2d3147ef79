import ModelGateway.EventTree

/-! The index of the positional indexer mirrors the reverse maps of its workers. An
entry is read through `Lists`, which workers it holds under which prefix hash; storing
and dropping a block add and remove exactly one listing, whatever representation the
entry has. -/
namespace ModelGateway.EventTreeProofs
open EventTree PositionalIndexer KeyedMap Option SeqEntry KeyedSet

variable {entry : SeqEntry} {hash probe : SequenceHash} {worker reader : WorkerId}

/-- The entry holds `worker` under `hash`. -/
def Lists (entry : SeqEntry) (hash : SequenceHash) (worker : WorkerId) : Prop :=
  ∃ workers, entry.get hash = some workers ∧ worker ∈ workers

/-- Neither the entry nor any of its worker sets is empty. -/
structure Occupied (entry : SeqEntry) : Prop where
  hashed : ∃ hash workers, entry.get hash = some workers
  inhabited : ∀ hash workers, entry.get hash = some workers → ∃ worker, worker ∈ workers

theorem Occupied.lists (occupied : Occupied entry) : ∃ hash worker, Lists entry hash worker := by
  obtain ⟨hash, workers, held⟩ := occupied.hashed
  obtain ⟨worker, mem⟩ := occupied.inhabited hash workers held
  exact ⟨hash, worker, workers, held, mem⟩

theorem get_new : (SeqEntry.new hash worker).get probe =
    if probe = hash then some (KeyedSet.insert ∅ worker) else none := by
  simp only [SeqEntry.new, SeqEntry.get, eq_comm]

theorem get_insert : (entry.insert hash worker).get probe =
    if probe = hash then some (((entry.get hash).getD ∅).insert worker) else entry.get probe := by
  cases entry with
  | single existing workers =>
    by_cases same : existing = hash
    · subst same
      by_cases asked : probe = existing
      · simp [SeqEntry.insert, SeqEntry.get, asked]
      · simp [SeqEntry.insert, SeqEntry.get, asked, Ne.symm asked]
    · simp only [SeqEntry.insert, if_neg same, SeqEntry.get, addWorker,
        get?_insert, Ne.symm same, if_false, get?_empty]
      by_cases asked : probe = hash
      · rw [if_pos asked, if_pos asked]
      · rw [if_neg asked, if_neg asked]
        simp only [eq_comm]
  | multi map => simp [SeqEntry.insert, SeqEntry.get, addWorker, get?_insert]

theorem lists_new : Lists (SeqEntry.new hash worker) probe reader ↔ probe = hash ∧ reader = worker := by
  rw [Lists, get_new]
  by_cases same : probe = hash <;> simp [same]

theorem lists_insert : Lists (entry.insert hash worker) probe reader ↔
    Lists entry probe reader ∨ probe = hash ∧ reader = worker := by
  rw [Lists, get_insert]
  by_cases same : probe = hash
  · subst same
    cases held : entry.get probe <;> simp [Lists, held, or_comm]
  · simp [Lists, same]

theorem get?_dropWorker (map : KeyedMap SequenceHash (KeyedSet WorkerId)) :
    (dropWorker map hash worker).get? probe =
      if probe = hash then ((map.get? hash).map (·.erase worker)).filter (fun rest => !rest.isEmpty)
      else map.get? probe := by
  unfold dropWorker
  cases held : map.get? hash with
  | none =>
    by_cases same : probe = hash
    · rw [if_pos same, same, held]
      rfl
    · rw [if_neg same]
  | some workers =>
    by_cases drained : (workers.erase worker).isEmpty = true
    · simp [drained, get?_erase, filter_some]
    · simp [drained, get?_insert, filter_some]

/-- Removing takes away one listing, in both representations. -/
theorem lists_remove : Lists (entry.remove hash worker).2 probe reader ↔
    Lists entry probe reader ∧ ¬ (probe = hash ∧ reader = worker) := by
  cases entry with
  | single existing workers =>
    by_cases same : existing = hash
    · subst same
      by_cases asked : probe = existing
      · simp [Lists, remove, SeqEntry.get, asked, and_comm]
      · simp [Lists, remove, SeqEntry.get, Ne.symm asked]
    · by_cases asked : existing = probe
      · subst asked
        simp [Lists, remove, SeqEntry.get, same]
      · simp [Lists, remove, SeqEntry.get, same, asked]
  | multi map =>
    simp only [Lists, remove, SeqEntry.get, get?_dropWorker]
    by_cases asked : probe = hash
    · subst asked
      cases held : map.get? probe with
      | none => simp
      | some workers =>
        have inhabited : reader ≠ worker → reader ∈ workers →
            (workers.erase worker).isEmpty = false := fun other mem =>
          Bool.eq_false_iff.mpr fun drained =>
            isEmpty_iff.mp drained reader (mem_erase.mpr ⟨other, mem⟩)
        simp only [if_true, map_some, filter_some]
        grind [mem_erase]
    · simp [asked]

theorem occupied_new : Occupied (SeqEntry.new hash worker) := by
  refine ⟨⟨hash, _, by rw [get_new, if_pos rfl]⟩, fun probe workers held => ?_⟩
  rw [get_new] at held
  split at held
  · cases held
    exact ⟨worker, by simp⟩
  · cases held

theorem occupied_insert (occupied : Occupied entry) : Occupied (entry.insert hash worker) := by
  refine ⟨⟨hash, _, by rw [get_insert, if_pos rfl]⟩, fun probe workers held => ?_⟩
  rw [get_insert] at held
  split at held
  · cases held
    exact ⟨worker, by simp⟩
  · exact occupied.inhabited probe workers held

theorem remove_empty (empty : (entry.remove hash worker).1 = true) :
    ¬ Lists (entry.remove hash worker).2 probe reader := by
  rintro ⟨workers, held, mem⟩
  cases entry with
  | single existing known =>
    by_cases same : existing = hash
    · simp only [remove, if_pos same, SeqEntry.get] at empty held
      split at held
      · cases held
        exact isEmpty_iff.mp empty reader mem
      · cases held
    · simp [remove, same] at empty
  | multi map =>
    simp only [remove, SeqEntry.get] at empty held
    rw [isEmpty_iff.mp empty probe] at held
    cases held

/-- An occupied entry that `remove` does not report empty stays occupied. -/
theorem remove_occupied (occupied : Occupied entry)
    (left : (entry.remove hash worker).1 = false) : Occupied (entry.remove hash worker).2 := by
  cases entry with
  | single existing known =>
    by_cases same : existing = hash
    · simp only [remove, if_pos same] at left ⊢
      refine ⟨⟨existing, _, by rw [SeqEntry.get, if_pos rfl]⟩, fun probe workers held => ?_⟩
      simp only [SeqEntry.get] at held
      split at held
      · cases held
        by_contra unlisted
        rw [isEmpty_iff.mpr (not_exists.mp unlisted)] at left
        cases left
      · cases held
    · simpa only [remove, if_neg same] using occupied
  | multi map =>
    simp only [remove] at left ⊢
    constructor
    · by_contra unhashed
      rw [KeyedMap.isEmpty_iff.mpr] at left
      · cases left
      · intro probe
        cases held : (dropWorker map hash worker).get? probe with
        | none => rfl
        | some workers => exact absurd ⟨probe, workers, held⟩ unhashed
    · intro probe workers held
      simp only [SeqEntry.get, get?_dropWorker] at held
      split at held
      · rw [filter_eq_some_iff] at held
        by_contra unlisted
        rw [isEmpty_iff.mpr (not_exists.mp unlisted)] at held
        cases held.2
      · exact occupied.inhabited probe workers held

/-! ### The index -/

variable {index : Index} {loc found : Location} {key : Nat × ContentHash}

/-- The index holds `worker` at `location`. -/
def Listed (index : Index) (loc : Location) (worker : WorkerId) : Prop :=
  ∃ entry, index.get? (loc.position, loc.contentHash) = some entry ∧ Lists entry loc.prefixHash worker

theorem listed_iff : Listed index loc worker ↔
    ∃ entry, index.get? loc.key = some entry ∧ Lists entry loc.prefixHash worker := Iff.rfl

theorem not_listed_empty : ¬ Listed ∅ loc worker := by
  rintro ⟨entry, held, -⟩
  cases held

/-- No entry of the index is empty. -/
def FullyOccupied (index : Index) : Prop :=
  ∀ key entry, index.get? key = some entry → Occupied entry

theorem FullyOccupied.get?_some_iff (occupied : FullyOccupied index) : (∃ entry, index.get? key = some entry) ↔
      ∃ hash reader, Listed index ⟨key.1, key.2, hash⟩ reader := by
  constructor
  · rintro ⟨entry, held⟩
    obtain ⟨hash, reader, lists⟩ := (occupied key entry held).lists
    exact ⟨hash, reader, entry, held, lists⟩
  · rintro ⟨_, _, entry, held, -⟩
    exact ⟨entry, held⟩

theorem location_eq_iff : found = loc ↔ found.key = loc.key ∧
      found.prefixHash = loc.prefixHash := by
  cases found
  cases loc
  simp [and_assoc]

theorem listed_store : Listed (index.store worker loc) found reader ↔
    Listed index found reader ∨ found = loc ∧ reader = worker := by
  rw [listed_iff, listed_iff, Index.store, get?_insert, location_eq_iff]
  by_cases same : found.key = loc.key
  · rw [if_pos same, same]
    cases held : index.get? loc.key with
    | none => simp [lists_new]
    | some entry => simp [lists_insert]
  · simp [same]

theorem drop_vacant (vacant : index.get? loc.key = none) : index.drop worker loc = index := by
  simp [Index.drop, vacant]

theorem get?_drop (held : index.get? loc.key = some entry) : (index.drop worker loc).get? key =
      if key = loc.key then
        if (entry.remove loc.prefixHash worker).1 then none
        else some (entry.remove loc.prefixHash worker).2
      else index.get? key := by
  by_cases empty : (entry.remove loc.prefixHash worker).1 = true
  · simp [Index.drop, held, empty, get?_erase]
  · simp [Index.drop, held, empty, get?_insert]

theorem get?_drop_other (other : key ≠ loc.key) : (index.drop worker loc).get? key = index.get? key := by
  cases held : index.get? loc.key with
  | none => rw [drop_vacant held]
  | some entry => rw [get?_drop held, if_neg other]

theorem listed_drop : Listed (index.drop worker loc) found reader ↔
    Listed index found reader ∧ ¬ (found = loc ∧ reader = worker) := by
  cases held : index.get? loc.key with
  | none =>
    rw [drop_vacant held]
    refine ⟨fun listed => ⟨listed, ?_⟩, And.left⟩
    rintro ⟨rfl, -⟩
    obtain ⟨entry, present, -⟩ := listed
    rw [held] at present
    cases present
  | some entry =>
    rw [listed_iff, listed_iff, get?_drop held, location_eq_iff]
    by_cases same : found.key = loc.key
    · rw [if_pos same, same, held]
      by_cases empty : (entry.remove loc.prefixHash worker).1 = true
      · have nobody : ¬ Lists (entry.remove loc.prefixHash worker).2 found.prefixHash reader :=
          remove_empty empty
        simpa [empty, lists_remove] using nobody
      · simp [empty, lists_remove]
    · simp [same]

theorem occupied_store (occupied : FullyOccupied index) : FullyOccupied (index.store worker loc) := by
  refine forall_insert occupied ?_
  split
  · exact occupied_insert (occupied _ _ ‹_›)
  · exact occupied_new

theorem occupied_drop (occupied : FullyOccupied index) : FullyOccupied (index.drop worker loc) := by
  cases vacant : index.get? loc.key with
  | none => rwa [drop_vacant vacant]
  | some known =>
    intro key entry held
    rw [get?_drop vacant] at held
    split at held
    · split at held
      · cases held
      · cases held
        exact remove_occupied (occupied _ known vacant) (Bool.eq_false_iff.mpr ‹_›)
    · exact occupied key entry held

end ModelGateway.EventTreeProofs
