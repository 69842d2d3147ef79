import ModelGateway.CrdtHandles

/-! Tombstone collection. The metadata of a removed key rejects stale inserts; once
it is collected, log compaction has to reject them instead. It does, because every
recorded version is backed by a logged operation on the same key that is at least as
new: a map and its collected copy show the same entries after any merges. -/
namespace ModelGateway.CrdtTombstones
open CrdtOperation CrdtMap CrdtLogProofs CrdtMapProofs CrdtView CrdtHandles LastWriter CrdtOrMap List Bool

variable {κ ν ρ ε : Type} [LinearOrder ρ] {pre post : List (Operation κ ν ρ)} {key : κ}
variable {now : Nat} {op : Operation κ ν ρ} {held : Slot ν ρ}

/-- The entry of a slot is vacant or a lone version that some logged operation on
the key is at least as new as. -/
def Backed (operations : List (Operation κ ν ρ)) (key : κ) (held : Slot ν ρ) : Prop :=
  ∀ versions, held.2 = some versions → ∃ metadata, versions = [metadata] ∧
    ∃ operation ∈ operations, operation.key = key ∧ metadata.versionKey ≤ operation.version

/-- Every logged operation is followed by one on its key that is at least as new. -/
def Follows (pre post : List (Operation κ ν ρ)) : Prop :=
  ∀ operation ∈ pre, ∃ held ∈ post, held.key = operation.key ∧ operation.version ≤ held.version

section
variable (backed : Backed pre key held)
include backed

theorem Backed.follow (follows : Follows pre post) : Backed post key held := by
  intro versions entry
  obtain ⟨metadata, lone, op, mem, named, below⟩ := backed versions entry
  obtain ⟨kept, keptMember, keptKey, above⟩ := follows op mem
  exact ⟨metadata, lone, kept, keptMember, keptKey.trans named, below.trans above⟩

/-- Recording an operation keeps the entry or replaces it by the operation's version. -/
theorem applySlot_entry : (applySlot now op held).2 = held.2 ∨
      ∃ metadata, (applySlot now op held).2 = some [metadata] ∧ metadata.versionKey = op.version := by
  obtain ⟨live, entry⟩ := held
  cases entry with
  | none =>
    cases op with
    | insert target value timestamp replicaId => exact .inr ⟨_, rfl, rfl⟩
    | remove target timestamp replicaId =>
      cases live with
      | none => exact .inl rfl
      | some value => exact .inr ⟨_, rfl, rfl⟩
  | some versions =>
    obtain ⟨metadata, rfl, -⟩ := backed versions rfl
    cases op with
    | insert target value timestamp replicaId =>
      simp only [applySlot, recordInsert_single]
      split
      · exact .inl rfl
      · exact .inr ⟨_, rfl, rfl⟩
    | remove target timestamp replicaId =>
      simp only [applySlot, recordRemove_single]
      split
      · exact .inl rfl
      · exact .inr ⟨_, rfl, rfl⟩

theorem Backed.apply (follows : Follows pre post)
    (logged : ∃ other ∈ post, other.key = key ∧ op.version ≤ other.version) :
    Backed post key (applySlot now op held) := by
  intro versions entry
  rcases applySlot_entry backed with same | ⟨metadata, replaced, stamped⟩
  · exact backed.follow follows versions (same ▸ entry)
  · rw [replaced] at entry
    cases entry
    exact ⟨metadata, rfl, stamped ▸ logged⟩

theorem Backed.refused (refuses : accepts op held = false) : applySlot now op held = held := by
  obtain ⟨live, entry⟩ := held
  cases entry with
  | some versions =>
    obtain ⟨metadata, rfl, -⟩ := backed versions rfl
    exact applySlot_refused refuses
  | none =>
    cases op with
    | insert target value timestamp replicaId => cases refuses
    | remove target timestamp replicaId =>
      cases live with
      | none => rfl
      | some value => cases refuses

end

theorem forgotten_apply (backed : Backed pre op.key held) (absent : held.1 = none)
    (above : ∀ other ∈ pre, other.key = op.key → other.version < op.version) :
    applySlot now op (none, none) = applySlot now op held ∨
      (applySlot now op held).1 = none ∧ applySlot now op (none, none) = (none, none) := by
  obtain ⟨live, entry⟩ := held
  obtain rfl : live = none := absent
  cases entry with
  | none => exact .inl rfl
  | some versions =>
    obtain ⟨metadata, rfl, other, mem, named, below⟩ := backed versions rfl
    have outranks : metadata.versionKey < op.version := below.trans_lt (above other mem named)
    cases op with
    | insert target value timestamp replicaId => exact .inl (applySlot_insert_above outranks).symm
    | remove target timestamp replicaId =>
      exact .inr ⟨congrArg Prod.fst (applySlot_remove_above outranks), rfl⟩

variable [DecidableEq κ] {map next : CrdtOrMap κ ν ρ} {log : OperationLog κ ν ρ}

/-- Every recorded version of the map is backed by its log. -/
def FullyBacked (map : CrdtOrMap κ ν ρ) : Prop :=
  ∀ key, Backed map.operationLog.operations key (slot map key)

theorem append_follows (whole : ¬ Truncates log op) :
    Follows log.operations (log.append op).operations := fun held mem =>
  (append_retains whole).2 held (mem_append_left _ mem)

theorem merge_follows (map : CrdtOrMap κ ν ρ) (log : OperationLog κ ν ρ) :
    Follows map.operationLog.operations (map.operationLog.merge log).compact.operations :=
  fun held mem => (compact_retains _).2 held (mem_merge_left mem)

theorem FullyBacked.write (backed : FullyBacked map) (write : LocalWrite now op map next)
    (whole : accepts op (slot map op.key) = true → ¬ Truncates map.operationLog op) : FullyBacked next := by
  intro key
  rw [write.slots key, write.log]
  cases accepted : accepts op (slot map op.key) with
  | false =>
    by_cases same : key = op.key
    · rw [if_pos same, (backed key).refused (same ▸ accepted)]
      exact backed key
    · rw [if_neg same]
      exact backed key
  | true =>
    have follows := append_follows (whole accepted)
    by_cases same : key = op.key
    · rw [if_pos same]
      refine (backed key).apply follows ?_
      rw [same]
      exact (append_retains (whole accepted)).2 op (mem_append_right _ mem_cons_self)
    · rw [if_neg same]
      exact (backed key).follow follows

theorem FullyBacked.merge (backed : FullyBacked map) (times : κ → Nat)
    (log : OperationLog κ ν ρ) : FullyBacked (map.merge times log) := by
  intro key
  rw [merge_log]
  by_cases written : ∃ op ∈ map.unseenOperations log, op.key = key
  · obtain ⟨op, mem, rfl⟩ := written
    rw [merge_slot_unseen times mem]
    exact (backed _).apply (merge_follows map log) ⟨op, (mem_unseen_iff.mp mem).1, rfl, le_rfl⟩
  · rw [merge_slot_seen times fun op mem named => written ⟨op, mem, named⟩]
    exact (backed key).follow (merge_follows map log)

/-! ### Collection -/

/-- `collected` is `map` without the metadata of some keys that are not live. -/
structure Forgets (map collected : CrdtOrMap κ ν ρ) : Prop where
  log : collected.operationLog = map.operationLog
  slots : ∀ key, slot collected key = slot map key ∨ (slot map key).1 = none ∧ slot collected key = (none, none)

variable {collected : CrdtOrMap κ ν ρ} {grace : Nat}

omit [LinearOrder ρ] in
theorem Forgets.all_eq (forgets : Forgets map collected) : collected.all = map.all := by
  funext key
  rcases forgets.slots key with same | ⟨absent, vacant⟩
  · exact congrArg Prod.fst same
  · exact (congrArg Prod.fst vacant).trans absent.symm

theorem gcCollects_absent (collects : map.gcCollects now grace key = true) : map.store.get key = none := by
  unfold gcCollects at collects
  split at collects
  · cases collects
  · rw [and_eq_true, not_eq_true'] at collects
    exact Option.not_isSome_iff_eq_none.mp (ne_true_of_eq_false collects.1)

theorem gcKey_forgets {state : Nat × CrdtOrMap κ ν ρ} (forgets : Forgets map state.2) (key : κ) :
    Forgets map (gcKey now grace state key).2 := by
  unfold gcKey
  split
  · rename_i collects
    have absent := gcCollects_absent (and_eq_true_iff.mp collects).2
    refine ⟨forgets.log, fun probe => ?_⟩
    simp only [slot, KeyedMap.get?_erase]
    by_cases same : probe = key
    · subst same
      have unset := congrFun forgets.all_eq probe
      exact .inr ⟨unset.symm.trans absent, by rw [absent, if_pos rfl]⟩
    · rw [if_neg same]
      exact forgets.slots probe
  · exact forgets

theorem gc_forgets (now grace : Nat) (map : CrdtOrMap κ ν ρ) :
    Forgets map (map.gcTombstonesWithGrace now grace).2 := by
  refine foldlRecOn (motive := fun state : Nat × CrdtOrMap κ ν ρ => Forgets map state.2) _ _
    ⟨rfl, fun _ => .inl rfl⟩ ?_
  exact fun state forgets key _ => gcKey_forgets forgets key

theorem Forgets.backed (forgets : Forgets map collected) (backed : FullyBacked map) : FullyBacked collected := by
  intro key
  rw [forgets.log]
  rcases forgets.slots key with same | ⟨-, vacant⟩
  · rw [same]
    exact backed key
  · rw [vacant]
    intro versions entry
    cases entry

theorem Forgets.merge (forgets : Forgets map collected) (backed : FullyBacked map) (times : κ → Nat)
    (log : OperationLog κ ν ρ) : Forgets (map.merge times log) (collected.merge times log) := by
  have unseen : collected.unseenOperations log = map.unseenOperations log := by
    simp only [unseenOperations, forgets.log]
  refine ⟨by rw [merge_log, merge_log, forgets.log], fun key => ?_⟩
  by_cases written : ∃ op ∈ map.unseenOperations log, op.key = key
  · obtain ⟨op, mem, rfl⟩ := written
    rw [merge_slot_unseen times mem, merge_slot_unseen times (unseen ▸ mem)]
    rcases forgets.slots op.key with same | ⟨absent, vacant⟩
    · exact .inl (by rw [same])
    · rw [vacant]
      exact forgotten_apply (backed _) absent fun other held named => unseen_above mem held named
  · have absent : ∀ op ∈ map.unseenOperations log, op.key ≠ key := fun op mem named => written ⟨op, mem, named⟩
    rw [merge_slot_seen times absent, merge_slot_seen times (unseen ▸ absent)]
    exact forgets.slots key

/-- Merging one log after another. -/
def mergeAll (merges : List ((κ → Nat) × OperationLog κ ν ρ)) (map : CrdtOrMap κ ν ρ) :
    CrdtOrMap κ ν ρ :=
  merges.foldl (fun current merged => current.merge merged.1 merged.2) map

theorem Forgets.mergeAll (forgets : Forgets map collected) (backed : FullyBacked map)
    (merges : List ((κ → Nat) × OperationLog κ ν ρ)) :
    Forgets (mergeAll merges map) (mergeAll merges collected) := by
  induction merges generalizing map collected with
  | nil => exact forgets
  | cons merged rest ih => exact ih (forgets.merge backed _ _) (backed.merge _ _)

/-- No call truncates the log; clones, merges and collections are unrestricted. -/
def Untruncated (map : CrdtOrMap κ ν ρ) : Event κ ν ρ ε → Prop
  | .call _ made => ∀ operation, attempt map made = some operation →
      accepts operation (slot map operation.key) = true → ¬ Truncates map.operationLog operation
  | .clone | .merge _ _ | .gc _ _ => True

theorem reachable_backed [Inhabited ν] {replicaId : ρ} {handles : Handles κ ν ρ}
    (reached : Reachable (Untruncated (ε := ε)) replicaId handles) (clock : Nat) :
    FullyBacked (handles.view clock) := by
  refine reachable_invariant (fun _ _ backed => backed) ?_ ?_ ?_ ?_ reached clock
  · intro key versions entry
    cases entry
  · intro map now made untruncated backed
    rcases call_write now made map with same | ⟨op, attempted, write⟩
    · rwa [same]
    · exact backed.write write (untruncated op attempted)
  · exact fun map times log _ backed => backed.merge times log
  · exact fun map now grace _ backed => (gc_forgets now grace map).backed backed

/-- From any state reached without truncating the log, any sequence of merges shows
the same entries whether or not tombstones were collected first. -/
theorem gc_preserves_merges [Inhabited ν] {replicaId : ρ} {handles : Handles κ ν ρ}
    (reached : Reachable (Untruncated (ε := ε)) replicaId handles) (clock now grace : Nat)
    (merges : List ((κ → Nat) × OperationLog κ ν ρ)) :
    (mergeAll merges ((handles.view clock).gcTombstonesWithGrace now grace).2).all =
      (mergeAll merges (handles.view clock)).all :=
  ((gc_forgets now grace _).mergeAll (reachable_backed reached clock) merges).all_eq

/-- A key is written and removed; its tombstone is collected before the stale insert
arrives again, together with a newer one. -/
theorem removed_gc_preserves_merges :
    let handles : Handles String Nat Nat := ((Handles.start 0).step (ε := Empty) 0
      (.call 0 (.insert "key" 1))).step (ε := Empty) 0 (.call 0 (.remove "key"))
    let merges : List ((String → Nat) × OperationLog String Nat Nat) :=
      [(fun _ => 5, ⟨[.insert "key" 1 1 0]⟩), (fun _ => 6, ⟨[.insert "key" 2 3 1]⟩)]
    ((handles.view 2).gcTombstonesWithGrace 5 0).1 = 1 ∧
      (mergeAll merges ((handles.view 2).gcTombstonesWithGrace 5 0).2).all =
        (mergeAll merges (handles.view 2)).all := by
  intro handles merges
  have reached : Reachable (Untruncated (ε := Empty)) 0 handles := by
    refine .step (.step .start 0 rfl _ ?_) 0 rfl _ ?_
    · rintro operation ⟨⟩ accepted
      decide
    · rintro operation ⟨⟩ accepted
      decide
  exact ⟨by decide, gc_preserves_merges reached 2 5 0 merges⟩

end ModelGateway.CrdtTombstones
