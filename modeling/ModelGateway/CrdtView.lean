import ModelGateway.CrdtMapProofs

/-! Slots and the last-writer-wins view. `Shows` says that the slot of a key
agrees with the view of a log. Every write that outranks the log keeps the slot
in agreement, and so does a merge whose operations are identified by their
versions. -/
namespace ModelGateway.CrdtView
open CrdtOperation CrdtMap CrdtLogProofs CrdtMapProofs LastWriter Operation

/-- The slot of `key` agrees with the last-writer-wins view of `operations`. A
vacant slot is possible only when no insert decides the key. -/
inductive Shows {κ ν ρ : Type} [LinearOrder ρ] (operations : List (Operation κ ν ρ)) (key : κ) :
    Slot ν ρ → Prop where
  | vacant (unset : ∀ operation, Latest operations key operation →
      ∃ timestamp replicaId, operation = .remove key timestamp replicaId) :
      Shows operations key (none, none)
  | live {value timestamp replicaId createdAt}
      (top : Latest operations key (.insert key value timestamp replicaId)) :
      Shows operations key (some value, some [⟨timestamp, replicaId, false, createdAt⟩])
  | dead {timestamp replicaId createdAt}
      (top : Latest operations key (.remove key timestamp replicaId)) :
      Shows operations key (none, some [⟨timestamp, replicaId, true, createdAt⟩])

variable {κ ν ρ : Type} [LinearOrder ρ] {pre post : List (Operation κ ν ρ)} {key : κ}
variable {value : ν} {now : Nat} {op : Operation κ ν ρ} {held : Slot ν ρ}

variable (shows : Shows pre key held)
include shows

theorem Shows.congr (same : ∀ op, Latest pre key op ↔ Latest post key op) : Shows post key held := by
  cases shows with
  | vacant unset => exact .vacant fun op top => unset op ((same op).mpr top)
  | live top => exact .live ((same _).mp top)
  | dead top => exact .dead ((same _).mp top)

theorem Shows.value_iff (only : ∀ first second, Latest pre key first → Latest pre key second → first = second) :
    held.1 = some value ↔ ∃ timestamp replicaId, Latest pre key (.insert key value timestamp replicaId) := by
  constructor
  · intro live
    cases shows with
    | live top =>
      cases live
      exact ⟨_, _, top⟩
    | vacant | dead => cases live
  · rintro ⟨timestamp, replicaId, decided⟩
    cases shows with
    | vacant unset =>
      obtain ⟨_, _, removed⟩ := unset _ decided
      cases removed
    | live top =>
      cases only _ _ top decided
      rfl
    | dead top => cases only _ _ top decided

theorem Shows.apply (top : Latest post key op) (only : ∀ other, Latest post key other → other = op)
    (above : ∀ other, Latest pre key other → other.version < op.version) :
    Shows post key (applySlot now op held) := by
  have named := top.2.1
  cases op with
  | insert target value timestamp replicaId =>
    obtain rfl : target = key := named
    cases shows with
    | vacant unset => exact .live top
    | live old | dead old =>
      rw [applySlot_insert_above (above _ old)]
      exact .live top
  | remove target timestamp replicaId =>
    obtain rfl : target = key := named
    cases shows with
    | vacant unset => exact .vacant fun other decided => ⟨_, _, only other decided⟩
    | live old | dead old =>
      rw [applySlot_remove_above (above _ old)]
      exact .dead top

theorem Shows.refused (refuses : accepts op held = false) : applySlot now op held = held := by
  cases shows with
  | vacant unset =>
    cases op with
    | insert target value timestamp replicaId => cases refuses
    | remove target timestamp replicaId => rfl
  | live top | dead top => exact applySlot_refused refuses

theorem Shows.accepted_above (unwritten : held.2 = none → ∀ other ∈ pre, other.key ≠ key)
    (accepted : accepts op held = true) (new : ∀ other ∈ pre, other.version ≠ op.version) :
    ∀ other ∈ pre, other.key = key → other.version < op.version := by
  -- the recorded version is that of the deciding operation
  have reaches : ∀ {winner}, Latest pre key winner → winner.version ≤ op.version →
      ∀ other ∈ pre, other.key = key → other.version < op.version := by
    intro winner top below other mem named
    exact lt_of_le_of_ne ((top.2.2 other mem named).trans below) (new other mem)
  cases shows with
  | vacant unset => exact fun other mem named => absurd named (unwritten rfl other mem)
  | live top | dead top =>
    refine reaches top ?_
    cases op with
    | insert target value timestamp replicaId => exact (accepts_insert_single.mp accepted).le
    | remove target timestamp replicaId => exact (accepts_remove_single.mp accepted).1

omit shows

/-- `view` is the last-writer-wins view of `operations`: a key is bound to the
value of the insert that decides it, and unbound when a remove decides it or
nothing does. -/
def LwwView (operations : List (Operation κ ν ρ)) (view : κ → Option ν) : Prop :=
  ∀ key, (∀ value, view key = some value ↔
      ∃ timestamp replicaId, Latest operations key (.insert key value timestamp replicaId)) ∧
    (view key = none ↔ (∃ timestamp replicaId, Latest operations key (.remove key timestamp replicaId)) ∨
        ∀ operation ∈ operations, operation.key ≠ key)

/-- The view of a log whose stamps identify its operations is what its deciding
inserts say. -/
theorem lwwView_of_values {operations : List (Operation κ ν ρ)} {view : κ → Option ν}
    (identify : StampsIdentify version operations)
    (values : ∀ key value, view key = some value ↔
      ∃ timestamp replicaId, Latest operations key (.insert key value timestamp replicaId)) :
    LwwView operations view := by
  refine fun key => ⟨values key, fun unbound => ?_, ?_⟩
  · by_cases written : ∃ op ∈ operations, op.key = key
    · obtain ⟨op, mem, named⟩ := written
      obtain ⟨winner, top⟩ : ∃ winner, Latest operations key winner := greatest_exists mem named
      have owned : winner.key = key := top.2.1
      cases winner with
      | insert target value timestamp replicaId =>
        obtain rfl : target = key := owned
        have bound := (values target value).mpr ⟨_, _, top⟩
        rw [unbound] at bound
        cases bound
      | remove target timestamp replicaId =>
        obtain rfl : target = key := owned
        exact .inl ⟨_, _, top⟩
    · exact .inr fun op mem named => written ⟨op, mem, named⟩
  · intro decided
    cases held : view key with
    | none => rfl
    | some value =>
      obtain ⟨timestamp, replicaId, top⟩ := (values key value).mp held
      rcases decided with ⟨_, _, removed⟩ | unwritten
      · cases greatest_unique identify top removed
      · exact absurd top.2.1 (unwritten _ top.1)

theorem LwwView.ext {left right : List (Operation κ ν ρ)} {first second : κ → Option ν}
    (shown : LwwView left first) (other : LwwView right second)
    (same : ∀ key op, Latest left key op ↔ Latest right key op) : first = second := by
  funext key
  ext value
  rw [(shown key).1 value, (other key).1 value]
  simp only [same]

/-! ### Maps in agreement with their log -/

variable [DecidableEq κ] {map next : CrdtOrMap κ ν ρ} {log : OperationLog κ ν ρ}

/-- Every slot of the map agrees with the view of the map's own log. -/
def Agrees (map : CrdtOrMap κ ν ρ) : Prop :=
  ∀ key, Shows map.operationLog.operations key (slot map key)

theorem Agrees.lwwView (agrees : Agrees map) (identify : StampsIdentify version map.operationLog.operations) :
    LwwView map.operationLog.operations map.all :=
  lwwView_of_values identify fun key _ =>
    (agrees key).value_iff fun _ _ left right => greatest_unique identify left right

theorem agrees_withReplicaId (replicaId : ρ) : Agrees (CrdtOrMap.withReplicaId replicaId : CrdtOrMap κ ν ρ) :=
  fun _ => .vacant fun _ top => absurd top.1 List.not_mem_nil

/-- A local write keeps the map in agreement when it is refused, or when it
outranks the log and the log does not truncate. -/
theorem localWrite_agrees (write : LocalWrite now op map next) (agrees : Agrees map)
    (fresh : accepts op (slot map op.key) = true → ¬ Truncates map.operationLog op ∧
      StampsIdentify version (map.operationLog.operations ++ [op]) ∧
      ∀ held ∈ map.operationLog.operations, held.key = op.key → held.version < op.version) : Agrees next := by
  intro key
  rw [write.slots key, write.log]
  cases accepted : accepts op (slot map op.key) with
  | false =>
    by_cases same : key = op.key
    · rw [if_pos same, (agrees key).refused (same ▸ accepted)]
      exact agrees key
    · rw [if_neg same]
      exact agrees key
  | true =>
    obtain ⟨whole, identify, above⟩ := fresh accepted
    simp only [if_true]
    by_cases same : key = op.key
    · subst key
      have decides := append_latest_self whole above
      rw [if_pos rfl]
      exact (agrees _).apply ((decides op).mpr rfl) (fun other => (decides other).mp)
        fun other top => above other top.1 top.2.1
    · rw [if_neg same]
      exact (agrees key).congr (append_latest_other whole identify (Ne.symm same))

theorem merge_latest_seen {key : κ} (identify : StampsIdentify version map.operationLog.operations)
    (absent : ∀ op ∈ map.unseenOperations log, op.key ≠ key) (candidate : Operation κ ν ρ) :
    Latest map.operationLog.operations key candidate ↔
      Latest (map.operationLog.merge log).compact.operations key candidate := by
  have back : ∀ winner, Latest (map.operationLog.merge log).compact.operations key winner →
      Latest map.operationLog.operations key winner := by
    intro winner top
    have best := (compact_retains _).greatest top
    have held : winner ∈ map.operationLog.operations := by
      rcases mem_of_mem_merge best.1 with held | ⟨-, unseen⟩
      · exact held
      · refine absurd top.2.1 (absent winner (mem_unseen_iff.mpr ⟨top.1, ?_⟩))
        exact fun held mem same => unseen (same ▸ List.mem_map_of_mem mem)
    exact ⟨held, top.2.1, fun other mem => best.2.2 other (mem_merge_left mem)⟩
  refine ⟨fun top => ?_, back candidate⟩
  obtain ⟨held, mem, named, -⟩ := (compact_retains (map.operationLog.merge log)).2 candidate (mem_merge_left top.1)
  obtain ⟨winner, best⟩ : ∃ winner, Latest (map.operationLog.merge log).compact.operations key winner :=
    greatest_exists mem (named.trans top.2.1)
  rwa [greatest_unique identify top (back winner best)]

theorem merge_agrees (times : κ → Nat) (agrees : Agrees map)
    (identify : StampsIdentify version map.operationLog.operations) :
    Agrees (map.merge times log) := by
  intro key
  rw [merge_log]
  by_cases written : ∃ op ∈ map.unseenOperations log, op.key = key
  · obtain ⟨op, mem, rfl⟩ := written
    rw [merge_slot_unseen times mem]
    have compacted := (mem_unseen_iff.mp mem).1
    refine (agrees _).apply ⟨compacted, rfl, ?_⟩ ?_ ?_
    · exact fun other held => (compact_latest compacted).2.2 other (compact_latest held).1
    · exact fun other top => compact_key_unique top.1 compacted top.2.1
    · exact fun other top => unseen_above mem top.1 top.2.1
  · have absent : ∀ op ∈ map.unseenOperations log, op.key ≠ key := fun op mem named => written ⟨op, mem, named⟩
    rw [merge_slot_seen times absent]
    exact (agrees key).congr (merge_latest_seen identify absent)

end ModelGateway.CrdtView
