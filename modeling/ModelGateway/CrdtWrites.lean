import ModelGateway.CrdtMapProofs

/-! Replicated maps that are only written, by inserts and upserts made here and by single inserts
made elsewhere. As long as the clock has not saturated, each write made here takes effect, and one
made elsewhere takes effect at most when it outranks the version of its key. -/
namespace ModelGateway.CrdtWrites
open CrdtOperation CrdtMap CrdtLogProofs CrdtMapProofs List ValueMetadata CrdtOrMap Nat Prod

variable {κ ν ρ : Type} [DecidableEq κ]

/-- A key's slot is vacant, or holds a value under one version that the clock has reached. -/
def Timely (map : CrdtOrMap κ ν ρ) : Prop :=
  map.clock ≤ u64Max ∧ ∀ key, slot map key = (none, none) ∨
    ∃ value metadata, slot map key = (some value, some [metadata]) ∧ metadata.timestamp ≤ map.clock

theorem timely_withReplicaId (replicaId : ρ) : Timely (withReplicaId replicaId : CrdtOrMap κ ν ρ) :=
  ⟨zero_le _, fun _ => .inl rfl⟩

variable {map next : CrdtOrMap κ ν ρ} {key : κ} {value : ν} {timestamp : Nat} {replicaId : ρ}
  {log : OperationLog κ ν ρ}

variable [LinearOrder ρ]

/-- The version under which a key is held. -/
def storedVersion (map : CrdtOrMap κ ν ρ) (key : κ) : Option (ℕ ×ₗ ρ) :=
  ((map.metadata.get? key).bind winner).map versionKey

/-- A write at a time by a replica is newer than what the map holds for the key. -/
def Outranks (map : CrdtOrMap κ ν ρ) (key : κ) (timestamp : Nat) (replicaId : ρ) : Prop :=
  ∀ version ∈ storedVersion map key, version < toLex (timestamp, replicaId)

theorem applySlot_insert (timely : Timely map) (now : Nat) (key : κ) (value : ν) (timestamp : Nat)
    (replicaId : ρ) : (Outranks map key timestamp replicaId ∧
        applySlot now (.insert key value timestamp replicaId) (slot map key) =
          (some value, some [⟨timestamp, replicaId, false, now⟩])) ∨
      (¬ Outranks map key timestamp replicaId ∧
        applySlot now (.insert key value timestamp replicaId) (slot map key) = slot map key) := by
  have stored : storedVersion map key = ((slot map key).2.bind winner).map versionKey := rfl
  rcases timely.2 key with vacant | ⟨held, metadata, here, -⟩
  · rw [vacant] at stored
    rw [vacant, Outranks, stored]
    exact .inl ⟨fun version mem => (by cases mem), rfl⟩
  · rw [here] at stored
    rw [here, Outranks, stored]
    by_cases outranks : metadata.versionKey < toLex (timestamp, replicaId)
    · refine .inl ⟨fun version mem => ?_, applySlot_insert_above outranks⟩
      obtain rfl := Option.some.inj mem
      exact outranks
    · refine .inr ⟨fun above => outranks (above _ rfl), applySlot_refused ?_⟩
      rw [← Bool.not_eq_true, accepts_insert_single]
      exact outranks

/-- A map after an insert was applied to its slot at a later time. -/
private theorem Timely.apply (timely : Timely map) {now : Nat} (bounded : next.clock ≤ u64Max)
    (later : map.clock ≤ next.clock) (reached : timestamp ≤ next.clock)
    (slots : ∀ probe, slot next probe = if probe = key then
      applySlot now (.insert key value timestamp replicaId) (slot map probe) else slot map probe) :
    Timely next ∧ ((¬ Outranks map key timestamp replicaId ∧ ∀ probe, next.get probe = map.get probe) ∨
        Outranks map key timestamp replicaId ∧
          ∀ probe, next.get probe = if probe = key then some value else map.get probe) := by
  have untouched : ∀ probe, slot next probe = slot map probe → slot next probe = (none, none) ∨
      ∃ value metadata, slot next probe = (some value, some [metadata]) ∧ metadata.timestamp ≤ next.clock := by
    intro probe same
    rw [same]
    refine (timely.2 probe).imp_right ?_
    rintro ⟨held, stamp, here, pre⟩
    exact ⟨held, stamp, here, pre.trans later⟩
  have here := (slots key).trans (if_pos rfl)
  have elsewhere : ∀ probe ≠ key, slot next probe = slot map probe :=
    fun probe other => (slots probe).trans (if_neg other)
  rcases applySlot_insert timely now key value timestamp replicaId with
    ⟨outranks, rewritten⟩ | ⟨older, kept⟩
  · rw [rewritten] at here
    refine ⟨⟨bounded, fun probe => ?_⟩, .inr ⟨outranks, fun probe => ?_⟩⟩
    · by_cases same : probe = key
      · exact .inr ⟨value, _, same ▸ here, reached⟩
      · exact untouched probe (elsewhere probe same)
    · split
      · next same => exact same ▸ congrArg fst here
      · next other => exact congrArg fst (elsewhere probe other)
  · have unchanged : ∀ probe, slot next probe = slot map probe := by
      intro probe
      by_cases same : probe = key
      · rw [same, here, kept]
      · exact elsewhere probe same
    exact ⟨⟨bounded, fun probe => untouched probe (unchanged probe)⟩,
      .inl ⟨older, fun probe => congrArg fst (unchanged probe)⟩⟩

theorem commitInsert_apply (map : CrdtOrMap κ ν ρ) (timely : Timely map) (now : Nat) (key : κ)
    (value : ν) : Timely (map.commitInsert now key value).2 ∧ ((¬ Outranks map key (tick map.clock) map.replicaId ∧
          ∀ probe, (map.commitInsert now key value).2.get probe = map.get probe) ∨
        Outranks map key (tick map.clock) map.replicaId ∧ ∀ probe, (map.commitInsert now key value).2.get probe =
            if probe = key then some value else map.get probe) := by
  have write := commitInsert_write now key value map
  have bounds : tick map.clock ≤ u64Max ∧ map.clock ≤ tick map.clock := by
    have := timely.1
    rw [tick]
    omega
  refine timely.apply ?_ ?_ ?_ write.slots <;> rw [write.clock]
  exacts [bounds.1, bounds.2]

theorem Timely.commitInsert (timely : Timely map) (now : Nat) (key : κ) (value : ν) :
    Timely (map.commitInsert now key value).2 :=
  (commitInsert_apply map timely now key value).1

theorem Timely.get_commitInsert (timely : Timely map) (now : Nat) (key : κ) (value : ν)
    (unsaturated : map.clock < u64Max) (probe : κ) :
    (map.commitInsert now key value).2.get probe = if probe = key then some value else map.get probe := by
  have newest : Outranks map key (tick map.clock) map.replicaId := by
    intro version mem
    have stored : storedVersion map key = ((slot map key).2.bind winner).map versionKey := rfl
    rw [stored] at mem
    rcases timely.2 key with vacant | ⟨held, metadata, here, pre⟩
    · rw [vacant] at mem
      cases mem
    · rw [here] at mem
      obtain rfl := Option.some.inj mem
      have ticked : tick map.clock = map.clock + 1 := min_eq_left unsaturated
      exact Lex.toLex_lt_toLex.mpr (.inl (ticked ▸ lt_succ_of_le pre))
  rcases (commitInsert_apply map timely now key value).2 with ⟨older, -⟩ | ⟨-, written⟩
  · exact absurd newest older
  · exact written probe

/-! ### Writes made elsewhere -/

theorem append_empty (op : Operation κ ν ρ) : (({} : OperationLog κ ν ρ).append op).operations = [op] := rfl

theorem mem_of_unseen {op : Operation κ ν ρ} (unseen : op ∈ map.unseenOperations log) :
    op ∈ log.operations := by
  obtain ⟨compacted, foreign⟩ := mem_unseen_iff.mp unseen
  rcases mem_of_mem_merge (compact_latest compacted).1 with held | ⟨received, -⟩
  · exact absurd rfl (foreign op held)
  · exact received

theorem unseen_single (map : CrdtOrMap κ ν ρ) {op : Operation κ ν ρ} (single : log.operations = [op]) :
    map.unseenOperations log = [] ∨ map.unseenOperations log = [op] := by
  have only : ∀ mem ∈ map.unseenOperations log, mem = op := fun mem unseen =>
    mem_singleton.mp (single ▸ mem_of_unseen unseen)
  have copies := eq_replicate_of_mem only
  have nodup : (map.unseenOperations log).Nodup := .of_map _ unseen_keys_nodup
  rw [copies, nodup_replicate, le_one_iff_eq_zero_or_eq_one] at nodup
  refine nodup.imp (fun zero => ?_) fun one => ?_
  · rw [copies, zero, replicate_zero]
  · rw [copies, one, replicate_one]

/-- A received insert changes nothing, or rewrites its key, whose version it outranks. -/
theorem Timely.merge (timely : Timely map) (times : κ → Nat) (bounded : timestamp ≤ u64Max)
    (single : log.operations = [.insert key value timestamp replicaId]) :
    Timely (map.merge times log) ∧ ((∀ probe, (map.merge times log).get probe = map.get probe) ∨
        Outranks map key timestamp replicaId ∧
          ∀ probe, (map.merge times log).get probe = if probe = key then some value else map.get probe) := by
  rcases unseen_single map single with none | one
  · have same : map.merge times log = { map with operationLog := (map.operationLog.merge log).compact } := by
      rw [CrdtOrMap.merge, none, foldl_nil]
    rw [same]
    exact ⟨timely, .inl fun _ => rfl⟩
  · have applied : map.merge times log =
        applyOperation times { map with operationLog := (map.operationLog.merge log).compact }
          (.insert key value timestamp replicaId) := by
      rw [CrdtOrMap.merge, one, foldl_cons, foldl_nil]
    have clock : (map.merge times log).clock = update map.clock timestamp := by
      rw [applied]
      exact (applyOperation_frame ..).1
    have slots : ∀ probe, slot (map.merge times log) probe = if probe = key then
        applySlot (times key) (.insert key value timestamp replicaId) (slot map probe)
        else slot map probe := by
      intro probe
      rw [applied]
      refine (applyOperation_slot _ _ probe).trans ?_
      by_cases same : probe = key
      · subst same
        rfl
      · exact (if_neg same).trans (if_neg same).symm
    have bounds : (map.merge times log).clock ≤ u64Max ∧ map.clock ≤ (map.merge times log).clock ∧
        timestamp ≤ (map.merge times log).clock := by
      have := timely.1
      rw [clock, update]
      omega
    obtain ⟨next, outcome⟩ := timely.apply bounds.1 bounds.2.1 bounds.2.2 slots
    exact ⟨next, outcome.imp_left And.right⟩

theorem merge_empty (times : κ → Nat) (map : CrdtOrMap κ ν ρ) :
    map.merge times {} = { map with operationLog := (map.operationLog.merge {}).compact } := by
  have none : map.unseenOperations {} = [] :=
    eq_nil_iff_forall_not_mem.mpr fun _ unseen => not_mem_nil (mem_of_unseen unseen)
  rw [CrdtOrMap.merge, none, foldl_nil]

end ModelGateway.CrdtWrites
