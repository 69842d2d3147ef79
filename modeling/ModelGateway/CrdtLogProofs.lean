import ModelGateway.CrdtOperation
import ModelGateway.LastWriter

/-! Compaction, appending and merging of operation logs preserve the
last-writer-wins view. Compaction keeps exactly the greatest operation of every
key; an append loses nothing unless it truncates; a merge adds every operation
whose identifier is new. -/
namespace ModelGateway.CrdtLogProofs
open CrdtOperation LastWriter List KeyedMap OperationLog Operation

variable {κ ν ρ : Type} [LinearOrder ρ]
variable {log other : OperationLog κ ν ρ} {op operation : Operation κ ν ρ} {key : κ} {read : List (Operation κ ν ρ)}

/-- `operation` decides the view of `key` in `operations`. -/
abbrev Latest (operations : List (Operation κ ν ρ)) (key : κ) (operation : Operation κ ν ρ) : Prop :=
  Greatest Operation.key version operations key operation

/-- `kept` has the same last-writer-wins view as `operations`. -/
abbrev Retains (kept operations : List (Operation κ ν ρ)) : Prop :=
  Covers Operation.key version kept operations

theorem fold_merge_spec (operations : List (Operation κ ν ρ))
    (state : List (ρ × Nat) × List (Operation κ ν ρ))
    (agree : ∀ id, id ∈ state.1 ↔ id ∈ state.2.map operationId) :
    let result := (operations.foldl mergeOperation state).2
    (∀ op ∈ state.2, op ∈ result) ∧ (∀ op ∈ result, op ∈ state.2 ∨ op ∈ operations ∧ op.operationId ∉ state.1) ∧
      (∀ op ∈ operations, op.operationId ∈ result.map operationId) ∧
      ((state.2.map operationId).Nodup → (result.map operationId).Nodup) := by
  induction operations generalizing state with
  | nil => simp
  | cons op rest ih =>
    simp only [foldl_cons]
    by_cases seen : op.operationId ∈ state.1
    · rw [mergeOperation, if_pos seen]
      obtain ⟨kept, origin, covered, nodup⟩ := ih state agree
      refine ⟨kept, fun op mem => ?_, forall_mem_cons.mpr ⟨?_, covered⟩, nodup⟩
      · exact (origin op mem).imp_right (And.imp_left (mem_cons_of_mem _))
      · obtain ⟨held, inside, same⟩ := mem_map.mp ((agree _).mp seen)
        exact mem_map.mpr ⟨held, kept held inside, same⟩
    · rw [mergeOperation, if_neg seen]
      obtain ⟨kept, origin, covered, nodup⟩ := ih (op.operationId :: state.1, state.2 ++ [op])
        (fun id => by simp [agree id, or_comm])
      refine ⟨fun op mem => kept op (mem_append_left _ mem), fun op mem => ?_,
        forall_mem_cons.mpr ⟨mem_map.mpr ⟨op, kept op (by simp), rfl⟩, covered⟩, fun unique => nodup ?_⟩
      · rcases origin op mem with old | later
        · rcases mem_snoc.mp old with held | rfl
          · exact .inl held
          · exact .inr ⟨mem_cons_self, seen⟩
        · exact .inr ⟨mem_cons_of_mem _ later.1, fun old =>
            later.2 (mem_cons_of_mem _ old)⟩
      · rw [map_append, nodup_append]
        refine ⟨unique, by simp, ?_⟩
        intro id mem new same
        rw [agree] at seen
        simp only [map_cons, map_nil, mem_singleton] at *
        subst same
        grind

theorem mem_merge_left (mem : op ∈ log.operations) : op ∈ (log.merge other).operations :=
  (fold_merge_spec other.operations _ (fun _ => Iff.rfl)).1 op mem

theorem mem_of_mem_merge (mem : op ∈ (log.merge other).operations) :
    op ∈ log.operations ∨ op ∈ other.operations ∧ op.operationId ∉ log.operations.map operationId :=
  (fold_merge_spec other.operations _ (fun _ => Iff.rfl)).2.1 op mem

theorem merge_retains (identify : StampsIdentify version (log.operations ++ other.operations)) :
    Retains (log.merge other).operations (log.operations ++ other.operations) := by
  have origin : ∀ held ∈ (log.merge other).operations, held ∈ log.operations ++ other.operations :=
    fun held mem => mem_append.mpr ((mem_of_mem_merge mem).imp_right And.left)
  refine ⟨origin, fun op mem => ?_⟩
  rcases mem_append.mp mem with mine | theirs
  · exact ⟨op, mem_merge_left mine, rfl, le_rfl⟩
  · obtain ⟨held, inside, same⟩ : ∃ held ∈ (log.merge other).operations, held.operationId = op.operationId :=
      mem_map.mp ((fold_merge_spec other.operations _ fun _ => Iff.rfl).2.2.1 op theirs)
    obtain rfl := identify held (origin held inside) op mem (version_eq_iff.mpr same)
    exact ⟨held, inside, rfl, le_rfl⟩

omit [LinearOrder ρ] in
theorem identify_of_ids_nodup {operations : List (Operation κ ν ρ)} (nodup : (operations.map operationId).Nodup) :
    StampsIdentify version operations := fun _ left _ right same =>
  inj_on_of_nodup_map nodup left right (version_eq_iff.mp same)

section Compaction
variable [DecidableEq κ] {keys : Finset κ}

/-- The fold state of `latest_operations_by_key` summarises what it has read:
every slot holds the greatest operation read for its key. -/
def Summarises (latest : KeyedMap κ (Operation κ ν ρ))
    (read : List (Operation κ ν ρ)) : Prop :=
  ∀ key, match latest.get? key with
    | some operation => Latest read key operation
    | none => ∀ operation ∈ read, operation.key ≠ key

theorem keepLatest_summarises {latest : KeyedMap κ (Operation κ ν ρ)}
    (summary : Summarises latest read) (op : Operation κ ν ρ) :
    Summarises (keepLatest latest op) (read ++ [op]) := by
  intro key
  have pre := summary key
  by_cases named : op.key = key
  · -- the operation competes for this slot
    subst named
    unfold keepLatest
    cases held : latest.get? op.key with
    | none =>
      simp only [held] at pre
      simp only [get?_insert_self]
      exact greatest_last fun candidate old named => absurd named (pre candidate old)
    | some current =>
      simp only [held] at pre
      by_cases above : op.version ≤ current.version
      · simp only [if_pos above, held]
        exact pre.keep fun _ => above
      · simp only [if_neg above, get?_insert_self]
        exact greatest_last fun candidate old named =>
          (pre.2.2 candidate old named).trans (le_of_not_ge above)
  · -- every other slot is untouched
    have same : (keepLatest latest op).get? key = latest.get? key := by
      unfold keepLatest
      split
      · split
        · rfl
        · rw [get?_insert, if_neg (Ne.symm named)]
      · rw [get?_insert, if_neg (Ne.symm named)]
    rw [same]
    cases held : latest.get? key with
    | none =>
      simp only [held] at pre
      exact forall_mem_snoc.mpr ⟨pre, named⟩
    | some current =>
      simp only [held] at pre
      exact pre.keep fun same => absurd same named

theorem fold_summarises (operations read : List (Operation κ ν ρ))
    (latest : KeyedMap κ (Operation κ ν ρ)) (summary : Summarises latest read) :
    Summarises (operations.foldl keepLatest latest) (read ++ operations) := by
  induction operations generalizing latest read with
  | nil => simpa using summary
  | cons op rest ih =>
    have next := ih (read ++ [op]) _ (keepLatest_summarises summary op)
    simpa using next

theorem latest_summarises (log : OperationLog κ ν ρ) :
    Summarises log.latestOperationsByKey log.operations := by
  have summary := fold_summarises log.operations [] ∅ (fun key => by simp)
  rwa [nil_append] at summary

theorem latest_lookup (held : log.latestOperationsByKey.get? key = some op) :
    Latest log.operations key op := by
  have summary := latest_summarises log key
  rwa [held] at summary

theorem mem_compact_iff : op ∈ log.compact.operations ↔ log.latestOperationsByKey.get? op.key = some op := by
  simp only [compact, sortByVersion, mem_insertionSort, mem_values_iff]
  constructor
  · rintro ⟨key, held⟩
    rwa [(latest_lookup held).2.1]
  · intro held
    exact ⟨op.key, held⟩

theorem compact_latest (mem : op ∈ log.compact.operations) : Latest log.operations op.key op :=
  latest_lookup (mem_compact_iff.mp mem)

theorem compact_retains (log : OperationLog κ ν ρ) : Retains log.compact.operations log.operations := by
  refine ⟨fun op mem => (compact_latest mem).1, ?_⟩
  intro op mem
  have summary := latest_summarises log op.key
  cases held : log.latestOperationsByKey.get? op.key with
  | none =>
    rw [held] at summary
    exact absurd rfl (summary op mem)
  | some winner =>
    rw [held] at summary
    refine ⟨winner, mem_compact_iff.mpr ?_, summary.2.1, summary.2.2 op mem rfl⟩
    rw [summary.2.1, held]

theorem compact_keys_nodup (log : OperationLog κ ν ρ) : (log.compact.operations.map Operation.key).Nodup := by
  have named : log.latestOperationsByKey.values.map Operation.key =
      log.latestOperationsByKey.keys := by
    rw [values_eq, keys_eq, map_map]
    apply map_congr_left
    intro entry mem
    exact (latest_lookup (mem_toList_iff.mp mem)).2.1
  have sorted : log.compact.operations.Perm log.latestOperationsByKey.values := perm_insertionSort _ _
  rw [(sorted.map Operation.key).nodup_iff, named]
  exact log.latestOperationsByKey.keys_nodup

theorem compact_key_unique {first second : Operation κ ν ρ}
    (left : first ∈ log.compact.operations) (right : second ∈ log.compact.operations)
    (same : first.key = second.key) : first = second := by
  have held := mem_compact_iff.mp left
  rw [same, mem_compact_iff.mp right] at held
  exact (Option.some.inj held).symm

theorem compact_length_le (within : ∀ op ∈ log.operations, op.key ∈ keys) :
    log.compact.operations.length ≤ keys.card := by
  have subset : (log.compact.operations.map Operation.key).toFinset ⊆ keys := by
    intro key mem
    obtain ⟨op, held, rfl⟩ := mem_map.mp (mem_toFinset.mp mem)
    exact within op (compact_latest held).1
  have bound := Finset.card_le_card subset
  rwa [toFinset_card_of_nodup (compact_keys_nodup log), length_map] at bound

/-- `append` reaches its safety valve: one operation per key is still too many. -/
def Truncates (log : OperationLog κ ν ρ) (operation : Operation κ ν ρ) : Prop :=
  autoCompactThreshold < (compact ⟨log.operations ++ [operation]⟩).operations.length

instance : Decidable (Truncates log operation) := inferInstanceAs (Decidable (_ < _))

theorem not_truncates_of_keys (few : keys.card ≤ autoCompactThreshold)
    (within : ∀ held ∈ log.operations, held.key ∈ keys) (named : op.key ∈ keys) :
    ¬ Truncates log op := by
  have bound : (compact ⟨log.operations ++ [op]⟩).operations.length ≤ keys.card := by
    apply compact_length_le
    exact forall_mem_snoc.mpr ⟨within, named⟩
  exact not_lt.mpr (bound.trans few)

variable (whole : ¬ Truncates log op)
include whole

theorem append_cases : log.append op = ⟨log.operations ++ [op]⟩ ∨
      log.append op = compact ⟨log.operations ++ [op]⟩ := by
  unfold OperationLog.append
  dsimp only
  split
  · exact .inr (if_neg whole)
  · exact .inl rfl

theorem append_retains : Retains (log.append op).operations (log.operations ++ [op]) := by
  rcases append_cases whole with pushed | compacted
  · rw [pushed]
    exact Covers.refl _
  · rw [compacted]
    exact compact_retains _

theorem append_ids_nodup (nodup : ((log.operations ++ [op]).map operationId).Nodup) :
    ((log.append op).operations.map operationId).Nodup := by
  rcases append_cases whole with pushed | compacted
  · rwa [pushed]
  · rw [compacted]
    refine Nodup.map_on ?_ (Nodup.of_map _ (compact_keys_nodup _))
    intro first left second right same
    exact inj_on_of_nodup_map nodup (compact_latest left).1 (compact_latest right).1 same

theorem append_latest_other (identify : StampsIdentify version (log.operations ++ [op]))
    (different : op.key ≠ key) (candidate : Operation κ ν ρ) :
    Latest log.operations key candidate ↔ Latest (log.append op).operations key candidate := by
  refine Iff.trans ?_ ((append_retains whole).greatest_iff identify).symm
  refine ⟨fun top => top.keep fun named => absurd named different, fun top => ?_⟩
  rcases mem_snoc.mp top.1 with held | rfl
  · exact ⟨held, top.2.1, fun other mem => top.2.2 other (mem_append_left _ mem)⟩
  · exact absurd top.2.1 different

theorem append_latest_self (above : ∀ held ∈ log.operations, held.key = op.key → held.version < op.version)
    (candidate : Operation κ ν ρ) :
    Latest (log.append op).operations op.key candidate ↔ candidate = op := by
  have only : ∀ candidate, Latest (log.append op).operations op.key candidate → candidate = op := by
    intro candidate top
    have best := (append_retains whole).greatest top
    rcases mem_append.mp best.1 with held | pushed
    · have below := best.2.2 op (mem_append_right _ mem_cons_self) rfl
      exact absurd (above candidate held best.2.1) (not_lt_of_ge below)
    · exact mem_singleton.mp pushed
  refine ⟨only candidate, ?_⟩
  rintro rfl
  obtain ⟨held, mem, named, -⟩ := (append_retains whole).2 candidate (mem_append_right _ mem_cons_self)
  obtain ⟨winner, top⟩ : ∃ winner, Latest (log.append candidate).operations candidate.key winner :=
    greatest_exists mem named
  exact only winner top ▸ top

end Compaction
end ModelGateway.CrdtLogProofs
