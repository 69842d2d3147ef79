import ModelGateway.JumpSearch

/-! What the steps of the jump search compute. The lazily pushed hashes are the
rolling hashes of the query, so a lookup answers with the workers seen at a position;
one iteration of the scan keeps the active workers that are seen there, or all of them
when enough are. -/
namespace ModelGateway.JumpSearchProofs
open EventTree PositionalIndexer JumpSearch List Option KeyedMap

variable (computeNextSeqHash nextHash : UInt64 → UInt64 → UInt64)

/-- The rolling prefix hash of a sequence of content hashes. -/
def chainHash (sequence : List ContentHash) : Option SequenceHash :=
  sequence.foldl (fun previous current => some (nextPrefixHash computeNextSeqHash previous current)) none

/-- The workers listed for the query at a position under its own rolling hash. -/
def matchedAt (index : Index) (query : List ContentHash) (position : Nat) :
    Option (KeyedSet WorkerId) := do
  let entry ← index.get? (position, query.getD position ⟨0⟩)
  let hash ← chainHash computeNextSeqHash (query.take (position + 1))
  entry.get hash

/-- The workers the search sees there: an entry with a single prefix hash answers for
any prefix. -/
def seenAt (index : Index) (query : List ContentHash) (position : Nat) :
    Option (KeyedSet WorkerId) := do
  let entry ← index.get? (position, query.getD position ⟨0⟩)
  match entry.workersIfSingle with
  | some workers => some workers
  | none =>
    let hash ← chainHash computeNextSeqHash (query.take (position + 1))
    entry.get hash

variable {nextHash} {index : Index} {query : List ContentHash}
variable {seqHashes : List SequenceHash} {position : Nat}

theorem chainHash_append (sequence : List ContentHash) (last : ContentHash) :
    chainHash nextHash (sequence ++ [last]) = some (nextPrefixHash nextHash (chainHash nextHash sequence) last) := by
  simp [chainHash]

theorem seenAt_of_matchedAt {workers : KeyedSet WorkerId}
    (matched : matchedAt nextHash index query position = some workers) :
    seenAt nextHash index query position = some workers := by
  simp only [matchedAt, seenAt, bind_eq_bind, bind_eq_some_iff] at matched ⊢
  obtain ⟨entry, held, hash, chained, got⟩ := matched
  refine ⟨entry, held, ?_⟩
  cases entry with
  | single existing known =>
    simp only [SeqEntry.get] at got
    split at got
    · exact got
    · cases got
  | multi map => exact bind_eq_some_iff.mpr ⟨hash, chained, got⟩

theorem take_succ_getD (inside : position < query.length) :
    query.take (position + 1) = query.take position ++ [query.getD position ⟨0⟩] := by
  rw [take_add_one, getElem?_eq_getElem inside, getD_eq_getElem?_getD, getElem?_eq_getElem inside]
  rfl

/-- The pushed hashes are the rolling hashes of the first prefixes of the query. -/
structure Computed (computeNextSeqHash : UInt64 → UInt64 → UInt64) (query : List ContentHash)
    (seqHashes : List SequenceHash) : Prop where
  within : seqHashes.length ≤ query.length
  chained : ∀ position hash, seqHashes[position]? = some hash →
    chainHash computeNextSeqHash (query.take (position + 1)) = some hash

theorem computed_nil : Computed nextHash query [] := ⟨Nat.zero_le _, fun _ _ held => by simp at held⟩

variable (computed : Computed nextHash query seqHashes)
include computed

theorem Computed.getLast? : seqHashes.getLast? = chainHash nextHash (query.take seqHashes.length) := by
  rw [getLast?_eq_getElem?]
  cases length : seqHashes.length with
  | zero =>
    rw [length_eq_zero_iff.mp length]
    rfl
  | succ count =>
    have inside : count < seqHashes.length := by omega
    have held : seqHashes[count]? = some seqHashes[count] := getElem?_eq_getElem inside
    rw [Nat.add_sub_cancel, held]
    exact (computed.chained count _ held).symm

theorem Computed.push (short : seqHashes.length < query.length) :
    Computed nextHash query (pushSeqHash nextHash query seqHashes) := by
  refine ⟨by simp only [pushSeqHash, length_append, length_singleton]; omega, ?_⟩
  intro position hash held
  rw [pushSeqHash, getElem?_append] at held
  split at held
  · exact computed.chained position hash held
  · rename_i outside
    obtain rfl : position = seqHashes.length := by
      have last := (List.getElem?_eq_some_iff.mp held).1
      simp only [length_singleton] at last
      omega
    rw [take_succ_getD short, chainHash_append, ← computed.getLast?]
    simpa using held

/-- After `ensure_seq_hash_computed` the target has its rolling hash. -/
theorem Computed.ensure (inside : position < query.length) : Computed nextHash query
        (ensureSeqHashComputed nextHash seqHashes position query) ∧
      some ((ensureSeqHashComputed nextHash seqHashes position query).getD position ⟨0⟩) =
        chainHash nextHash (query.take (position + 1)) := by
  have pushes : ∀ count, seqHashes.length + count ≤ query.length →
      Computed nextHash query ((pushSeqHash nextHash query)^[count] seqHashes) ∧
        ((pushSeqHash nextHash query)^[count] seqHashes).length = seqHashes.length + count := by
    intro count
    induction count with
    | zero => exact fun _ => ⟨computed, rfl⟩
    | succ count ih =>
      intro fits
      obtain ⟨pre, length⟩ := ih (by omega)
      rw [Function.iterate_succ_apply']
      refine ⟨pre.push (by omega), ?_⟩
      simp only [pushSeqHash, length_append, length, length_singleton]
      omega
  have within := computed.within
  obtain ⟨ensured, length⟩ := pushes (position + 1 - seqHashes.length) (by omega)
  refine ⟨ensured, ?_⟩
  have reached : position < (ensureSeqHashComputed nextHash seqHashes position query).length := by
    rw [ensureSeqHashComputed, length]
    omega
  have held := getElem?_eq_getElem reached
  rw [getD_eq_getElem?_getD, held]
  exact (ensured.chained position _ held).symm

theorem lookupWorkers_spec (inside : position < query.length) :
    (lookupWorkers nextHash index position (query.getD position ⟨0⟩) seqHashes query).1 =
        seenAt nextHash index query position ∧ Computed nextHash query
        (lookupWorkers nextHash index position (query.getD position ⟨0⟩) seqHashes query).2 := by
  obtain ⟨ensured, chained⟩ := computed.ensure inside
  unfold lookupWorkers seenAt
  cases held : index.get? (position, query.getD position ⟨0⟩) with
  | none => exact ⟨rfl, computed⟩
  | some entry =>
    cases entry with
    | single existing workers => exact ⟨rfl, computed⟩
    | multi map =>
      refine ⟨?_, ensured⟩
      simp only [SeqEntry.workersIfSingle, bind_eq_bind, bind_some, ← chained]

omit computed

/-! ### Draining -/

variable {active : List WorkerId} {scores : KeyedMap WorkerId UInt32} {worker : WorkerId}

theorem get?_scoreAll (score : UInt32) (active : List WorkerId)
    (scores : KeyedMap WorkerId UInt32) : (scoreAll score active scores).get? worker =
      if worker ∈ active then some score else scores.get? worker :=
  get?_foldl_insert active score scores worker

theorem swapRemove_drop (active : List WorkerId) (i : Nat) (inside : i < active.length) :
    (swapRemove active i).take i = active.take i ∧ ((swapRemove active i).drop i).Perm (active.drop (i + 1)) := by
  have length : (active.take i).length = i := by
    rw [length_take]
    omega
  have last : ((active.drop (i + 1)).getLast?.toList ++ (active.drop (i + 1)).dropLast).Perm
      (active.drop (i + 1)) := by
    rcases eq_nil_or_concat (active.drop (i + 1)) with empty | ⟨front, back, split⟩
    · rw [empty]
      rfl
    · rw [split]
      simpa using (perm_append_singleton back front).symm
  constructor
  · rw [swapRemove, take_append_of_le_length (by omega), take_take]
    simp
  · rw [swapRemove, drop_append_of_le_length (by omega), drop_eq_nil_of_le (by omega)]
    exact last

/-- The retain loop keeps the workers it has passed and those listed among the rest,
and scores the others. -/
theorem retainLoop_spec (workers : KeyedSet WorkerId) (pos fuel i : Nat)
    (scores : KeyedMap WorkerId UInt32) (worker : WorkerId) (enough : active.length ≤ i + fuel)
    (distinct : active.Nodup) :
    (retainLoop workers pos fuel i active scores).1.Perm (active.take i ++ (active.drop i).filter (· ∈ workers)) ∧
      (retainLoop workers pos fuel i active scores).2.get? worker =
        if worker ∈ active.drop i ∧ worker ∉ workers then some pos.toUInt32
        else scores.get? worker := by
  induction fuel generalizing i active scores with
  | zero =>
    have past : active.length ≤ i := by omega
    simp [retainLoop, take_of_length_le past, drop_eq_nil_of_le past]
  | succ fuel ih =>
    rw [retainLoop]
    cases held : active[i]? with
    | none =>
      have past := getElem?_eq_none_iff.mp held
      simp [take_of_length_le past, drop_eq_nil_of_le past]
    | some current =>
      obtain ⟨inside, at_i⟩ := List.getElem?_eq_some_iff.mp held
      have front : active.drop i = current :: active.drop (i + 1) := by
        rw [drop_eq_getElem_cons inside, at_i]
      have passed : active.take (i + 1) = active.take i ++ [current] := by
        rw [take_add_one, held]
        rfl
      have fresh : current ∉ active.drop (i + 1) := by
        have suffix := distinct.sublist (drop_sublist i active)
        rw [front] at suffix
        exact (nodup_cons.mp suffix).1
      by_cases listed : current ∈ workers
      · simp only [listed, if_true]
        obtain ⟨perm, scored⟩ := ih (i + 1) scores (by omega) distinct
        refine ⟨?_, ?_⟩
        · rw [front, filter_cons_of_pos (by simpa using listed)]
          simpa [passed] using perm
        · rw [scored, front]
          by_cases same : worker = current
          · subst same
            simp [listed]
          · simp [same]
      · simp only [listed, if_false]
        obtain ⟨front_same, rest_perm⟩ := swapRemove_drop active i inside
        have whole : (swapRemove active i).Perm (active.take i ++ active.drop (i + 1)) := by
          rw [← take_append_drop i (swapRemove active i), front_same]
          exact rest_perm.append_left _
        have shorter : (swapRemove active i).Nodup := by
          rw [whole.nodup_iff]
          refine distinct.sublist ?_
          conv_rhs => rw [← take_append_drop i active, front]
          exact (Sublist.refl _).append (sublist_cons_self _ _)
        have length := whole.length_eq
        rw [length_append, length_take, length_drop] at length
        have fits : (swapRemove active i).length ≤ i + fuel := by omega
        obtain ⟨perm, scored⟩ := ih i (scores.insert current pos.toUInt32) fits shorter
        refine ⟨?_, ?_⟩
        · rw [front, filter_cons_of_neg (by simpa using listed)]
          rw [front_same] at perm
          exact perm.trans ((rest_perm.filter _).append_left _)
        · rw [scored, front, get?_insert]
          by_cases same : worker = current
          · subst same
            have gone : worker ∉ (swapRemove active i).drop i := fun mem =>
              fresh (rest_perm.mem_iff.mp mem)
            simp [listed, gone]
          · simp [same, rest_perm.mem_iff]

section Scan
variable (nextHash index query) {state : SearchState}

/-- How many workers the search sees at a position. -/
def seenCount (position : Nat) : Nat :=
  (seenAt computeNextSeqHash index query position).elim 0 KeyedSet.size

/-- The search sees `worker` at a position. -/
def Seen (position : Nat) (worker : WorkerId) : Prop :=
  ∃ workers, seenAt computeNextSeqHash index query position = some workers ∧ worker ∈ workers

/-- One iteration of the scan. -/
def drainAt (pos : Nat) (state : SearchState) : SearchState :=
  let found := lookupWorkers computeNextSeqHash index pos (query.getD pos ⟨0⟩) state.seqHashes query
  match found.1 with
  | none => ⟨found.2, [], scoreAll pos.toUInt32 state.active state.scores⟩
  | some workers =>
    let kept := if workers.size < state.active.length then
        retainLoop workers pos state.active.length 0 state.active state.scores
      else (state.active, state.scores)
    ⟨found.2, kept.1, kept.2⟩

theorem scanFrom_idle (left pos : Nat) (idle : state.active = []) :
    scanFrom nextHash index query false left pos state = state := by
  cases left <;> simp [scanFrom, idle]

theorem scanFrom_succ (left pos : Nat) (busy : state.active ≠ []) :
    scanFrom nextHash index query false (left + 1) pos state =
      scanFrom nextHash index query false left (pos + 1) (drainAt nextHash index query pos state) := by
  rw [scanFrom, if_neg (by simpa using busy)]
  cases found : (lookupWorkers nextHash index pos (query.getD pos ⟨0⟩) state.seqHashes query).1 with
  | none =>
    simp only [drainAt, found]
    rw [scanFrom_idle]
    rfl
  | some workers => simp only [drainAt, found, Bool.false_and, Bool.false_eq_true, if_false]

theorem scanFrom_add (first second pos : Nat) (state : SearchState) :
    scanFrom nextHash index query false (first + second) pos state =
      scanFrom nextHash index query false second (pos + first)
        (scanFrom nextHash index query false first pos state) := by
  induction first generalizing pos state with
  | zero =>
    rw [Nat.zero_add]
    rfl
  | succ first ih =>
    by_cases idle : state.active = []
    · rw [scanFrom_idle _ _ _ _ _ idle, scanFrom_idle _ _ _ _ _ idle, scanFrom_idle _ _ _ _ _ idle]
    · rw [Nat.add_right_comm, scanFrom_succ _ _ _ _ _ idle, scanFrom_succ _ _ _ _ _ idle, ih,
        Nat.add_right_comm, Nat.add_assoc]

/-- A consistent search state: rolling hashes, and each active worker once. -/
structure Valid (state : SearchState) : Prop where
  computed : Computed computeNextSeqHash query state.seqHashes
  distinct : state.active.Nodup

/-- What one iteration does: the active workers that are seen stay, or all of them when
enough are seen; those that go are scored with the position. -/
structure Drained (pos : Nat) (pre post : SearchState) : Prop where
  valid : Valid computeNextSeqHash query post
  active : ∀ worker, worker ∈ post.active ↔ worker ∈ pre.active ∧
    (seenCount computeNextSeqHash index query pos < pre.active.length →
      Seen computeNextSeqHash index query pos worker)
  scores : ∀ worker, post.scores.get? worker =
    if worker ∈ pre.active ∧ worker ∉ post.active then some pos.toUInt32
    else pre.scores.get? worker

variable {nextHash index query}

theorem drainAt_spec {pos : Nat} (inside : pos < query.length) (valid : Valid nextHash query state) :
    Drained nextHash index query pos state (drainAt nextHash index query pos state) := by
  obtain ⟨found, computed⟩ : (lookupWorkers nextHash index pos (query.getD pos ⟨0⟩)
      state.seqHashes query).1 = _ ∧ _ := lookupWorkers_spec valid.computed inside
  cases seen : seenAt nextHash index query pos with
  | none =>
    have nobody : ∀ worker, ¬ Seen nextHash index query pos worker := by
      rintro worker ⟨workers, held, -⟩
      rw [seen] at held
      cases held
    simp only [drainAt, found, seen]
    refine ⟨⟨computed, nodup_nil⟩, fun worker => ?_, fun worker => ?_⟩
    · simp only [not_mem_nil, false_iff, not_and]
      intro mem keeps
      refine nobody worker (keeps ?_)
      rw [seenCount, seen]
      exact length_pos_of_mem mem
    · simp [get?_scoreAll]
  | some workers =>
    have counted : seenCount nextHash index query pos = workers.size := by
      rw [seenCount, seen]
      rfl
    have sees : ∀ worker, Seen nextHash index query pos worker ↔ worker ∈ workers := by
      simp [Seen, seen]
    by_cases fewer : workers.size < state.active.length
    · simp only [drainAt, found, seen, if_pos fewer]
      have spec := fun worker => retainLoop_spec workers pos state.active.length 0 state.scores worker
        (by omega) valid.distinct
      have perm := (spec 0).1
      rw [take_zero, nil_append, drop_zero] at perm
      refine ⟨⟨computed, perm.nodup_iff.mpr (valid.distinct.filter _)⟩, fun worker => ?_, fun worker => ?_⟩
      · simp [perm.mem_iff, counted, fewer, sees]
      · rw [(spec worker).2, drop_zero]
        by_cases mem : worker ∈ state.active <;> simp [perm.mem_iff, mem]
    · simp only [drainAt, found, seen, if_neg fewer]
      refine ⟨⟨computed, valid.distinct⟩, fun worker => ?_, fun worker => ?_⟩
      · simp [counted, fewer]
      · simp

end Scan
end ModelGateway.JumpSearchProofs
