import ModelGateway.CrdtMap
import ModelGateway.CrdtLogProofs

/-! What one call does to the replicated map, key by key. A key's live value and
its metadata entry form a slot; a local write or a received operation rewrites
only the slot of its own key, and a merge applies to each key at most the one
operation that wins it. -/
namespace ModelGateway.CrdtMapProofs
open CrdtOperation CrdtMap CrdtLogProofs LastWriter List ValueMetadata CrdtOrMap KeyedMap

variable {κ ν ρ : Type} [LinearOrder ρ]

/-- A key's live value and its metadata entry. -/
abbrev Slot (ν ρ : Type) := Option ν × Option (List (ValueMetadata ρ))

/-- What recording and applying an operation does to the slot of its key. -/
def applySlot (now : Nat) (operation : Operation κ ν ρ) (held : Slot ν ρ) : Slot ν ρ :=
  match operation with
  | .insert _ value timestamp replicaId =>
    let outcome := recordInsert now timestamp replicaId held.2
    (if outcome.1 then some value else held.1, some outcome.2)
  | .remove _ timestamp replicaId =>
    let outcome := recordRemove held.1.isSome now timestamp replicaId held.2
    (if outcome.1 then none else held.1, outcome.2)

/-- Whether the metadata of a slot accepts an operation. -/
def accepts (operation : Operation κ ν ρ) (held : Slot ν ρ) : Bool :=
  match operation with
  | .insert _ _ timestamp replicaId =>
    (recordInsert 0 timestamp replicaId held.2).1
  | .remove _ timestamp replicaId =>
    (recordRemove held.1.isSome 0 timestamp replicaId held.2).1

section Versions

variable {metadata : ValueMetadata ρ} {now timestamp : Nat} {replicaId : ρ}

theorem recordInsert_single : recordInsert now timestamp replicaId (some [metadata]) =
      if toLex (timestamp, replicaId) ≤ metadata.versionKey then (false, [metadata])
      else (true, [⟨timestamp, replicaId, false, now⟩]) := by
  by_cases same : metadata.versionKey = toLex (timestamp, replicaId)
  · have matched : metadata.matchesVersion timestamp replicaId = true := by
      simpa [matchesVersion, versionKey] using same
    simp [recordInsert, matched, same, compactKeyMetadata]
  · have unmatched : metadata.matchesVersion timestamp replicaId = false := by
      simpa [matchesVersion, versionKey] using same
    by_cases newer : toLex (timestamp, replicaId) < metadata.versionKey
    · simp [recordInsert, unmatched, winner, isNewerThan, newer, newer.le, compactKeyMetadata]
    · have above : ¬ toLex (timestamp, replicaId) ≤ metadata.versionKey := fun below =>
        newer (lt_of_le_of_ne below (Ne.symm same))
      have replaced : metadata.versionKey ≤
          (⟨timestamp, replicaId, false, now⟩ : ValueMetadata ρ).versionKey := le_of_not_gt newer
      simp [recordInsert, unmatched, winner, isNewerThan, newer, above, compactKeyMetadata, replaced]

theorem recordRemove_single {present : Bool} : recordRemove present now timestamp replicaId (some [metadata]) =
      if toLex (timestamp, replicaId) < metadata.versionKey ∨
          (metadata.isTombstone = true ∧ metadata.versionKey = toLex (timestamp, replicaId)) then
        (false, some [metadata])
      else (true, some [⟨timestamp, replicaId, true, now⟩]) := by
  have matched : metadata.matchesVersion timestamp replicaId = true ↔
      metadata.versionKey = toLex (timestamp, replicaId) := by
    simp [matchesVersion, versionKey]
  by_cases newer : toLex (timestamp, replicaId) < metadata.versionKey
  · have different : ¬ metadata.versionKey = toLex (timestamp, replicaId) := ne_of_gt newer
    simp [recordRemove, matched, different, newer, isNewerThan, compactKeyMetadata]
  · have replaced : metadata.versionKey ≤
        (⟨timestamp, replicaId, true, now⟩ : ValueMetadata ρ).versionKey := le_of_not_gt newer
    by_cases tombstone : metadata.isTombstone = true ∧ metadata.versionKey = toLex (timestamp, replicaId)
    · simp [recordRemove, matched, tombstone, compactKeyMetadata]
    · simp [recordRemove, matched, tombstone, newer, isNewerThan, compactKeyMetadata, winner, replaced]

variable {key : κ} {value : ν} {live : Option ν} {op : Operation κ ν ρ}

theorem applySlot_insert_above (outranks : metadata.versionKey < toLex (timestamp, replicaId)) :
    applySlot now (Operation.insert key value timestamp replicaId) (live, some [metadata]) =
      (some value, some [⟨timestamp, replicaId, false, now⟩]) := by
  have outcome : recordInsert now timestamp replicaId (some [metadata]) =
      (true, [⟨timestamp, replicaId, false, now⟩]) := by
    rw [recordInsert_single, if_neg (not_le_of_gt outranks)]
  simp [applySlot, outcome]

theorem applySlot_remove_above (outranks : metadata.versionKey < toLex (timestamp, replicaId)) :
    applySlot now (Operation.remove key timestamp replicaId) (live, some [metadata]) =
      (none, some [⟨timestamp, replicaId, true, now⟩]) := by
  have outcome : recordRemove live.isSome now timestamp replicaId (some [metadata]) =
      (true, some [⟨timestamp, replicaId, true, now⟩]) := by
    rw [recordRemove_single, if_neg]
    rintro (newer | ⟨-, same⟩)
    · exact lt_asymm newer outranks
    · exact ne_of_lt outranks same
  simp [applySlot, outcome]

theorem accepts_insert_single :
    accepts (Operation.insert key value timestamp replicaId) (live, some [metadata]) = true ↔
      metadata.versionKey < toLex (timestamp, replicaId) := by
  simp only [accepts, recordInsert_single]
  split
  · rename_i below
    rw [Bool.false_eq_true, false_iff, not_lt]
    exact below
  · rename_i outranked
    simpa only [not_le, true_iff] using outranked

theorem accepts_remove_single :
    accepts (Operation.remove (ν := ν) key timestamp replicaId) (live, some [metadata]) = true ↔
      metadata.versionKey ≤ toLex (timestamp, replicaId) ∧
        ¬ (metadata.isTombstone = true ∧ metadata.versionKey = toLex (timestamp, replicaId)) := by
  simp only [accepts, recordRemove_single]
  split
  · rename_i kept
    rw [Bool.false_eq_true, false_iff, not_and_or, not_le, not_not]
    exact kept
  · rename_i replaced
    simpa only [not_or, not_lt, true_iff] using replaced

theorem applySlot_refused (refuses : accepts op (live, some [metadata]) = false) :
    applySlot now op (live, some [metadata]) = (live, some [metadata]) := by
  cases op with
  | insert key value timestamp replicaId =>
    have below := not_lt.mp (accepts_insert_single.not.mp (ne_true_of_eq_false refuses))
    have outcome : recordInsert now timestamp replicaId (some [metadata]) = (false, [metadata]) := by
      rw [recordInsert_single, if_pos below]
    simp [applySlot, outcome]
  | remove key timestamp replicaId =>
    have kept := accepts_remove_single.not.mp (ne_true_of_eq_false refuses)
    have outcome : recordRemove live.isSome now timestamp replicaId (some [metadata]) = (false, some [metadata]) := by
      rw [recordRemove_single, if_pos]
      rwa [not_and_or, not_le, not_not] at kept
    simp [applySlot, outcome]

theorem applySlot_recorded {held : Slot ν ρ} (accepted : accepts op held = true) :
    (applySlot now op held).2 ≠ none := by
  cases op with
  | insert key value timestamp replicaId => exact Option.some_ne_none _
  | remove key timestamp replicaId =>
    obtain ⟨live, entry⟩ := held
    cases entry with
    | none =>
      cases live with
      | none => cases accepted
      | some value => exact Option.some_ne_none _
    | some versions =>
      simp only [applySlot, recordRemove]
      split <;> [exact Option.some_ne_none _; split <;> exact Option.some_ne_none _]

theorem recordInsert_accepts (now : Nat) (entry : Option (List (ValueMetadata ρ))) :
    (recordInsert now timestamp replicaId entry).1 = (recordInsert 0 timestamp replicaId entry).1 := by
  cases entry with
  | none => rfl
  | some versions =>
    simp only [recordInsert]
    split <;> [rfl; split <;> rfl]

theorem recordRemove_accepts (now : Nat) (present : Bool) (entry : Option (List (ValueMetadata ρ))) :
    (recordRemove present now timestamp replicaId entry).1 =
      (recordRemove present 0 timestamp replicaId entry).1 := by
  cases entry with
  | none => cases present <;> rfl
  | some versions =>
    simp only [recordRemove]
    split <;> [rfl; split <;> rfl]

end Versions

/-! ### Calls, slot by slot -/

variable [DecidableEq κ]

def slot (map : CrdtOrMap κ ν ρ) (key : κ) : Slot ν ρ :=
  (map.store.get key, map.metadata.get? key)

variable {map : CrdtOrMap κ ν ρ} {key probe : κ} {value : ν} {now : Nat} {times : κ → Nat}
  {op : Operation κ ν ρ} {operations : List (Operation κ ν ρ)}

/-- Applying a received operation rewrites the slot of its key only. -/
theorem applyOperation_slot (map : CrdtOrMap κ ν ρ) (op : Operation κ ν ρ) (probe : κ) :
    slot (map.applyOperation times op) probe =
      if probe = op.key then applySlot (times probe) op (slot map probe)
      else slot map probe := by
  cases op with
  | insert key value timestamp replicaId =>
    by_cases same : probe = key <;>
      cases accepted : (recordInsert (times key) timestamp replicaId (map.metadata.get? key)).1 <;>
      simp [applyOperation, recordInsertMetadata, applySlot, slot, Operation.key, get?_insert, same, accepted]
  | remove key timestamp replicaId =>
    cases outcome : recordRemove (map.store.get key).isSome (times key) timestamp replicaId
        (map.metadata.get? key) with
    | mk accepted versions =>
      have entry : (versions.elim map.metadata (map.metadata.insert key)).get? key = versions := by
        cases versions with
        | some versions => exact (get?_insert ..).trans (if_pos rfl)
        | none =>
          -- only a vacant entry stays vacant
          cases held : map.metadata.get? key with
          | none => exact held
          | some versions =>
            rw [held] at outcome
            simp only [recordRemove] at outcome
            grind
      by_cases same : probe = key
      · subst probe
        cases accepted <;> simp [applyOperation, recordRemoveMetadata, applySlot, slot,
          KvStore.containsKey, Operation.key, outcome, entry]
      · cases accepted <;> cases versions <;> simp [applyOperation, recordRemoveMetadata, slot,
          KvStore.containsKey, Operation.key, get?_insert, outcome, same]

theorem applyOperation_frame (times : κ → Nat) (map : CrdtOrMap κ ν ρ) (op : Operation κ ν ρ) :
    (map.applyOperation times op).clock = update map.clock op.timestamp ∧
      (map.applyOperation times op).replicaId = map.replicaId ∧
      (map.applyOperation times op).operationLog = map.operationLog := by
  cases op with
  | insert key value timestamp replicaId =>
    by_cases accepted : (recordInsert (times key) timestamp replicaId (map.metadata.get? key)).1 = true <;>
      simp [applyOperation, recordInsertMetadata, Operation.timestamp, accepted]
  | remove key timestamp replicaId =>
    by_cases accepted : (recordRemove (map.store.containsKey key) (times key) timestamp
      replicaId (map.metadata.get? key)).1 = true <;>
      simp [applyOperation, recordRemoveMetadata, Operation.timestamp, accepted]

/-- The operation a local insert would log. -/
def localInsert (map : CrdtOrMap κ ν ρ) (key : κ) (value : ν) : Operation κ ν ρ :=
  .insert key value (tick map.clock) map.replicaId

/-- The operation a local remove would log. -/
def localRemove (map : CrdtOrMap κ ν ρ) (key : κ) : Operation κ ν ρ :=
  .remove key (tick map.clock) map.replicaId

/-- How a local write of `operation` changes a map: the clock ticks, the slot of
the key is rewritten, and the log grows by the operation when it is accepted. -/
structure LocalWrite (now : Nat) (operation : Operation κ ν ρ)
    (pre post : CrdtOrMap κ ν ρ) : Prop where
  clock : post.clock = tick pre.clock
  replicaId : post.replicaId = pre.replicaId
  slots : ∀ probe, slot post probe =
    if probe = operation.key then applySlot now operation (slot pre probe) else slot pre probe
  log : post.operationLog = if accepts operation (slot pre operation.key) then
    pre.operationLog.append operation else pre.operationLog

theorem LocalWrite.of_apply {post : CrdtOrMap κ ν ρ}
    (applied : post = { map.applyOperation (fun _ => now) op with
      clock := tick map.clock
      operationLog := if accepts op (slot map op.key) then map.operationLog.append op
        else map.operationLog }) : LocalWrite now op map post := by
  rw [applied]
  exact ⟨rfl, (applyOperation_frame _ map op).2.1, applyOperation_slot map op, rfl⟩

theorem commitInsert_write (now : Nat) (key : κ) (value : ν) (map : CrdtOrMap κ ν ρ) :
    LocalWrite now (localInsert map key value) map (map.commitInsert now key value).2 := by
  apply LocalWrite.of_apply
  have decided : accepts (localInsert map key value) (slot map (localInsert map key value).key) =
    _ := (recordInsert_accepts now (map.metadata.get? key)).symm
  rw [decided]
  cases accepted : (recordInsert now (tick map.clock) map.replicaId (map.metadata.get? key)).1 <;>
    simp [commitInsert, applyOperation, recordInsertMetadata, localInsert, accepted]

theorem insert_write (now : Nat) (key : κ) (value : ν) (map : CrdtOrMap κ ν ρ) :
    LocalWrite now (localInsert map key value) map (map.insert now key value).2 :=
  commitInsert_write now key value map

theorem remove_write (now : Nat) (key : κ) (map : CrdtOrMap κ ν ρ) :
    LocalWrite now (localRemove map key) map (map.remove now key).2 := by
  apply LocalWrite.of_apply
  have decided : accepts (localRemove map key) (slot map (localRemove map key).key) = _ :=
    (recordRemove_accepts now (map.store.containsKey key) (map.metadata.get? key)).symm
  rw [decided]
  cases accepted : (recordRemove (map.store.containsKey key) now (tick map.clock) map.replicaId
      (map.metadata.get? key)).1 <;>
    simp [CrdtOrMap.remove, applyOperation, recordRemoveMetadata, localRemove, accepted]

/-- The operation a call would log, unless its updater asks for no write. -/
def attempt (map : CrdtOrMap κ ν ρ) : Call κ ν ε → Option (Operation κ ν ρ)
  | .insert key value => some (localInsert map key value)
  | .upsert key updater => some (localInsert map key (updater (map.get key)))
  | .tryUpsert key updater =>
    match updater (map.get key) with
    | .ok value => some (localInsert map key value)
    | .error _ => none
  | .tryUpsertIf key updater =>
    match updater (map.get key) with
    | .ok (some value) => some (localInsert map key value)
    | _ => none
  | .remove key => some (localRemove map key)

omit [LinearOrder ρ] in
theorem attempt_stamp {call : Call κ ν ε} {op : Operation κ ν ρ}
    (attempted : attempt map call = some op) : op.key = call.key ∧ op.timestamp = tick map.clock ∧
      op.replicaId = map.replicaId := by
  unfold attempt at attempted
  split at attempted
  case h_3 | h_4 =>
    split at attempted
    · cases attempted
      exact ⟨rfl, rfl, rfl⟩
    · cases attempted
  case h_1 | h_2 | h_5 =>
    cases attempted
    exact ⟨rfl, rfl, rfl⟩

theorem call_write [Inhabited ν] (now : Nat) (call : Call κ ν ε) (map : CrdtOrMap κ ν ρ) :
    call.run now map = map ∨ ∃ op, attempt map call = some op ∧ LocalWrite now op map (call.run now map) := by
  cases call with
  | insert key value => exact .inr ⟨_, rfl, insert_write now key value map⟩
  | upsert key updater => exact .inr ⟨_, rfl, commitInsert_write now key _ map⟩
  | tryUpsert key updater =>
    simp only [Call.run, CrdtOrMap.tryUpsert, attempt]
    cases updater (map.get key) with
    | error err => exact .inl rfl
    | ok value => exact .inr ⟨_, rfl, commitInsert_write now key value map⟩
  | tryUpsertIf key updater =>
    simp only [Call.run, CrdtOrMap.tryUpsertIf, attempt]
    cases updater (map.get key) with
    | error err => exact .inl rfl
    | ok maybe =>
      cases maybe with
      | none => exact .inl rfl
      | some value => exact .inr ⟨_, rfl, commitInsert_write now key value map⟩
  | remove key => exact .inr ⟨_, rfl, remove_write now key map⟩

/-! ### Batches of received operations -/

theorem fold_slot_other (map : CrdtOrMap κ ν ρ) (absent : ∀ op ∈ operations, op.key ≠ probe) :
    slot (operations.foldl (applyOperation times) map) probe = slot map probe := by
  induction operations generalizing map with
  | nil => rfl
  | cons op rest ih =>
    obtain ⟨here, others⟩ := forall_mem_cons.mp absent
    rw [foldl_cons, ih _ others, applyOperation_slot, if_neg here.symm]

theorem fold_slot_self (map : CrdtOrMap κ ν ρ)
    (nodup : (operations.map Operation.key).Nodup) (mem : op ∈ operations) :
    slot (operations.foldl (applyOperation times) map) op.key = applySlot (times op.key) op (slot map op.key) := by
  induction operations generalizing map with
  | nil => cases mem
  | cons first rest ih =>
    obtain ⟨fresh, tail⟩ := nodup_cons.mp nodup
    rw [foldl_cons]
    rcases mem_cons.mp mem with rfl | later
    · rw [fold_slot_other, applyOperation_slot, if_pos rfl]
      intro other held same
      exact fresh (same ▸ mem_map_of_mem held)
    · have different : op.key ≠ first.key := fun same =>
        fresh (same ▸ mem_map_of_mem later)
      rw [ih _ tail later, applyOperation_slot, if_neg different]

theorem fold_frame (map : CrdtOrMap κ ν ρ) : (operations.foldl (applyOperation times) map).replicaId = map.replicaId ∧
      (operations.foldl (applyOperation times) map).operationLog = map.operationLog := by
  induction operations generalizing map with
  | nil => exact ⟨rfl, rfl⟩
  | cons first rest ih =>
    obtain ⟨-, sameId, sameLog⟩ := applyOperation_frame times map first
    obtain ⟨restId, restLog⟩ := ih (map.applyOperation times first)
    exact ⟨restId.trans sameId, restLog.trans sameLog⟩

theorem fold_clock (map : CrdtOrMap κ ν ρ)
    (unsaturated : (operations.foldl (applyOperation times) map).clock < u64Max) :
    map.clock ≤ (operations.foldl (applyOperation times) map).clock ∧ ∀ op ∈ operations, op.timestamp ≤
        (operations.foldl (applyOperation times) map).clock := by
  induction operations generalizing map with
  | nil => exact ⟨le_rfl, by simp⟩
  | cons first rest ih =>
    rw [foldl_cons] at unsaturated ⊢
    obtain ⟨grows, covers⟩ := ih _ unsaturated
    rw [(applyOperation_frame times map first).1, update] at grows
    exact ⟨by omega, forall_mem_cons.mpr ⟨by omega, covers⟩⟩

/-! ### Merging -/

variable {log : OperationLog κ ν ρ}

theorem mem_unseen_iff : op ∈ map.unseenOperations log ↔ op ∈ (map.operationLog.merge log).compact.operations ∧
        ∀ held ∈ map.operationLog.operations, held.operationId ≠ op.operationId := by
  simp only [unseenOperations, OperationLog.sortByVersion, mem_insertionSort,
    mem_filter, decide_eq_true_eq, mem_map, not_exists, not_and]

theorem unseen_keys_nodup : ((map.unseenOperations log).map Operation.key).Nodup := by
  have sorted : (map.unseenOperations log).Perm _ := perm_insertionSort _ _
  rw [(sorted.map Operation.key).nodup_iff]
  exact (compact_keys_nodup _).sublist (filter_sublist.map _)

theorem merge_slot_unseen (times : κ → Nat) (mem : op ∈ map.unseenOperations log) :
    slot (map.merge times log) op.key = applySlot (times op.key) op (slot map op.key) :=
  fold_slot_self _ unseen_keys_nodup mem

theorem merge_slot_seen (times : κ → Nat) (absent : ∀ op ∈ map.unseenOperations log, op.key ≠ probe) :
    slot (map.merge times log) probe = slot map probe :=
  fold_slot_other _ absent

theorem merge_log (times : κ → Nat) : (map.merge times log).operationLog = (map.operationLog.merge log).compact :=
  fold_frame _ |>.2

theorem unseen_above (mem : op ∈ map.unseenOperations log)
    (held : other ∈ map.operationLog.operations) (same : other.key = op.key) :
    other.version < op.version := by
  obtain ⟨compacted, unseen⟩ := mem_unseen_iff.mp mem
  have bound := (compact_latest compacted).2.2 other (mem_merge_left held) same
  refine lt_of_le_of_ne bound fun equal => ?_
  exact unseen other held (Operation.version_eq_iff.mp equal)

end ModelGateway.CrdtMapProofs
