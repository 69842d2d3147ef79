import ModelGateway.Background

/-! Runs of the background repository: any calls in any order, with any clock readings. -/
namespace ModelGateway.Background
open Json List KeyedMap Option State InternalStatus Entry

variable {F : Type} {chrono : Chrono} {order : HashOrder F} {state next post : State F}
  {id : ResponseId} {entry : Entry F} {worker : WorkerId} {now : Int}

/-- A call.  An append is made by somebody, whom the repository does not ask for. -/
inductive Call (F : Type) where
  | enqueue (request : EnqueueRequest F) (requestContext : Option RequestContext) (now : Int)
  | claimNext (order : HashOrder F) (worker : WorkerId) (now : Int) (lease : Nat)
  | heartbeat (id : ResponseId) (worker : WorkerId) (now : Int) (lease : Nat)
  | requestCancel (id : ResponseId) (now : Int)
  | appendStreamEvent (caller : WorkerId) (id : ResponseId) (eventType : Text) (data : Value F) (now : Int)
  | loadResumeEvents (id : ResponseId) (startingAfter : Option Int)
  | finalize (update : FinalizeRequest F) (now : Int)
  | requeueExpired (now : Int)
  | loadRequestContext (id : ResponseId)
  | deleteBackgroundResponse (id : ResponseId)

def perform (chrono : Chrono) (state : State F) : Call F → State F
  | .enqueue request requestContext now => (enqueue request requestContext now state).1
  | .claimNext order worker now lease => ((claimNext chrono order worker now lease state).map Prod.fst).getD state
  | .heartbeat id worker now lease => (heartbeat chrono id worker now lease state).1
  | .requestCancel id now => (requestCancel id now state).1
  | .appendStreamEvent _ id eventType data now => (appendStreamEvent id eventType data now state).1
  | .finalize update now => (finalize update now state).1
  | .requeueExpired now => (requeueExpired now state).1
  | .deleteBackgroundResponse id => (deleteBackgroundResponse id state).1
  | .loadResumeEvents _ _ | .loadRequestContext _ => state

def run (chrono : Chrono) (calls : List (Call F)) (state : State F) : State F :=
  calls.foldl (perform chrono) state

/-! ### Entries -/

theorem State.find?_setEntry (probe : ResponseId) :
    (state.setEntry id entry).find? probe = if probe = id then some entry else state.find? probe :=
  get?_insert state.entries id probe entry

theorem State.find?_publish (probe : ResponseId) :
    (state.publish id entry).find? probe = if probe = id then some entry else state.find? probe :=
  get?_insert state.entries id probe entry

/-! ### Claiming -/

theorem mem_listed {pair : ResponseId × Entry F} : pair ∈ (order.list state.entries.toList).filter (·.2.isDue now) ↔
      state.find? pair.1 = some pair.2 ∧ pair.2.isDue now = true := by
  rw [mem_filter, (order.perm _).mem_iff, mem_toList_iff]
  rfl

theorem pick_eq_some (picked : pick order now state = some id) :
    ∃ entry, state.find? id = some entry ∧ entry.isDue now = true ∧
      ∀ other rival, state.find? other = some rival → rival.isDue now = true → entry.rank ≤ rival.rank := by
  unfold pick at picked
  obtain ⟨⟨found, entry⟩, least, rfl⟩ := map_eq_some_iff.mp picked
  obtain ⟨here, due⟩ := mem_listed.mp (argmin_mem least)
  refine ⟨entry, here, due, fun other rival there rivalDue => ?_⟩
  have listed := (@mem_listed F order state now (other, rival)).mpr ⟨there, rivalDue⟩
  exact @le_of_mem_argmin _ _ _ (fun pair : ResponseId × Entry F => pair.2.rank) _ _ _ listed least

theorem pick_eq_none (picked : pick order now state = none) (here : state.find? id = some entry) :
    entry.isDue now = false := by
  unfold pick at picked
  rw [map_eq_none_iff, argmin_eq_none] at picked
  by_contra due
  rw [Bool.not_eq_false] at due
  have listed := (@mem_listed F order state now (id, entry)).mpr ⟨here, due⟩
  rw [picked] at listed
  cases listed

/-- Some jobs that were cancelled before they were claimed have become terminal. -/
def Skips (now : Int) (pre post : State F) : Prop :=
  ∀ id, post.find? id = pre.find? id ∨
    ∃ entry, pre.find? id = some entry ∧ entry.isDue now = true ∧ entry.cancelRequested = true ∧
      post.find? id = some (entry.cancel now)

theorem Skips.refl : Skips now state state := fun _ => .inl rfl

theorem Skips.publish (here : state.find? id = some entry) (due : entry.isDue now = true)
    (cancelled : entry.cancelRequested = true)
    (rest : Skips now (state.publish id (entry.cancel now)) post) : Skips now state post := by
  intro probe
  have spec := rest probe
  rw [find?_publish] at spec
  by_cases same : probe = id
  · subst same
    rw [if_pos rfl] at spec
    rcases spec with kept | ⟨found, is, foundDue, -, -⟩
    · exact .inr ⟨entry, here, due, cancelled, kept⟩
    · cases is
      cases foundDue
  · rw [if_neg same] at spec
    exact spec

theorem Skips.due (skips : Skips now state post) (here : post.find? id = some entry)
    (due : entry.isDue now = true) : state.find? id = some entry := by
  rcases skips id with same | ⟨found, -, -, -, gone⟩
  · rw [← same, here]
  · rw [here] at gone
    cases gone
    cases due

theorem Skips.kept (skips : Skips now state post) (here : state.find? id = some entry)
    (wanted : entry.cancelRequested = false) : post.find? id = some entry := by
  rcases skips id with same | ⟨found, pre, -, cancelled, -⟩
  · rw [same, here]
  · rw [here] at pre
    cases pre
    rw [wanted] at cancelled
    cases cancelled

/-- How a claim ends, behind the jobs it skipped. -/
inductive Claims (now : Int) (worker : WorkerId) (state : State F) :
    State F → Reply (Option (LeasedJob F)) → Prop
  | idle (nothing : ∀ id entry, state.find? id = some entry → entry.isDue now = false) :
    Claims now worker state state (.ok none)
  | panicked : Claims now worker state state .panicked
  | leased {id : ResponseId} {entry : Entry F} (expiresAt : Int) (here : state.find? id = some entry)
    (due : entry.isDue now = true) (wanted : entry.cancelRequested = false)
    (least : ∀ other rival, state.find? other = some rival → rival.isDue now = true → entry.rank ≤ rival.rank) :
    Claims now worker state (state.setEntry id (entry.claim worker now expiresAt))
      (.ok (some (entry.leased id worker expiresAt)))

variable {post : Entry F} {lease : Nat} {reply : Reply (Option (LeasedJob F))} {call : Call F}
  {calls : List (Call F)}

/-- The jobs that are due. -/
def dueIds (now : Int) (state : State F) : Finset ResponseId :=
  state.entries.keys.toFinset.filter fun id => (state.find? id).any (·.isDue now) = true

theorem mem_dueIds : id ∈ dueIds now state ↔ ∃ entry, state.find? id = some entry ∧ entry.isDue now = true := by
  rw [dueIds, Finset.mem_filter, List.mem_toFinset, mem_keys_iff, Option.any_eq_true]
  constructor
  · rintro ⟨-, due⟩
    exact due
  · rintro ⟨entry, here, due⟩
    exact ⟨⟨entry, here⟩, entry, here, due⟩

theorem dueIds_publish (here : state.find? id = some entry) (due : entry.isDue now = true) :
    dueIds now (state.publish id (entry.cancel now)) ⊂ dueIds now state := by
  rw [Finset.ssubset_iff_of_subset]
  · refine ⟨id, mem_dueIds.mpr ⟨entry, here, due⟩, ?_⟩
    rw [mem_dueIds, find?_publish, if_pos rfl]
    rintro ⟨found, is, foundDue⟩
    cases is
    cases foundDue
  · intro probe mem
    rw [mem_dueIds, find?_publish] at mem
    obtain ⟨found, is, foundDue⟩ := mem
    split at is
    · cases is
      cases foundDue
    · exact mem_dueIds.mpr ⟨found, is, foundDue⟩

/-- Each turn that skips a job leaves fewer jobs due, so the loop ends. -/
theorem claimLoop_spec {lease : Int} : ∀ {fuel : Nat} {state : State F}, (dueIds now state).card < fuel →
    ∃ next reply, claimLoop chrono order worker now lease fuel state = some (next, reply) ∧
      ∃ middle, Skips now state middle ∧ Claims now worker middle next reply := by
  intro fuel
  induction fuel with
  | zero => exact fun below => absurd below (Nat.not_lt_zero _)
  | succ fuel ih =>
    intro state below
    rw [claimLoop]
    cases picked : pick order now state with
    | none => exact ⟨_, _, rfl, _, .refl, .idle fun id entry here => pick_eq_none picked here⟩
    | some id =>
      obtain ⟨entry, here, due, least⟩ := pick_eq_some picked
      simp only [here]
      split
      · next cancelled =>
        have fewer := Finset.card_lt_card (dueIds_publish here due)
        obtain ⟨next, reply, ended, middle, skips, claims⟩ := ih (fewer.trans_le (Nat.le_of_lt_succ below))
        exact ⟨next, reply, ended, middle, .publish here due cancelled skips, claims⟩
      · next wanted =>
        rw [Bool.not_eq_true] at wanted
        split
        · exact ⟨_, _, rfl, _, .refl, .panicked⟩
        · exact ⟨_, _, rfl, _, .refl, .leased _ here due wanted least⟩

theorem claimNext_spec (chrono : Chrono) (order : HashOrder F) (worker : WorkerId) (now : Int) (lease : Nat)
    (state : State F) : ∃ next reply, claimNext chrono order worker now lease state = some (next, reply) ∧
      ((next = state ∧ ∃ error, reply = .err error) ∨
        ∃ middle, Skips now state middle ∧ Claims now worker middle next reply) := by
  unfold claimNext
  split
  · exact ⟨_, _, rfl, .inl ⟨rfl, _, rfl⟩⟩
  · have within : (dueIds now state).card ≤ state.entries.keys.toFinset.card := Finset.card_filter_le _ _
    have bound := state.entries.keys.toFinset_card_le
    have enough : (dueIds now state).card < state.entries.size + 1 := by rw [size]; omega
    exact (claimLoop_spec enough).imp fun _ => .imp fun _ => .imp_right .inr

/-! ### What a call does to a response -/

/-- What a call can do to the entry of one response. -/
inductive Moves (id : ResponseId) : Call F → Option (Entry F) → Option (Entry F) → Prop
  | same (call : Call F) (held : Option (Entry F)) : Moves id call held held
  | enqueued (request : EnqueueRequest F) (requestContext : Option RequestContext) (now : Int)
    (names : request.responseId = id) :
    Moves id (.enqueue request requestContext now) none (some (request.entry requestContext now))
  | skipped {entry : Entry F} (order : HashOrder F) (worker : WorkerId) (now : Int) (lease : Nat)
    (due : entry.isDue now = true) (cancelled : entry.cancelRequested = true) :
    Moves id (.claimNext order worker now lease) (some entry) (some (entry.cancel now))
  | claimed {entry : Entry F} (order : HashOrder F) (worker : WorkerId) (now : Int) (lease : Nat)
    (expiresAt : Int) (due : entry.isDue now = true) (wanted : entry.cancelRequested = false) :
    Moves id (.claimNext order worker now lease) (some entry) (some (entry.claim worker now expiresAt))
  | extended {entry : Entry F} (worker : WorkerId) (now : Int) (lease : Nat) (expiresAt : Int)
    (holds : entry.heldByCaller worker now = true) :
    Moves id (.heartbeat id worker now lease) (some entry) (some { entry with leaseExpiresAt := some expiresAt })
  | cancelled {entry : Entry F} (now : Int) (queued : entry.status = .queued) :
    Moves id (.requestCancel id now) (some entry)
      (some { entry.cancel now with workerId := none, leaseExpiresAt := none })
  | flagged {entry : Entry F} (now : Int) (running : entry.status = .inProgress) :
    Moves id (.requestCancel id now) (some entry) (some { entry with cancelRequested := true })
  | appended {entry : Entry F} (caller : WorkerId) (eventType : Text) (data : Value F) (now : Int) :
    Moves id (.appendStreamEvent caller id eventType data now) (some entry)
      (some (entry.append ⟨id, entry.nextStreamSequence, eventType, data, now⟩))
  | finalized {entry : Entry F} (update : FinalizeRequest F) (now : Int) (names : update.responseId = id)
    (opened : entry.status.toFinalize = none) (owns : entry.workerId = some update.workerId)
    (valid : entry.leaseExpiresAt.any (now < ·) = true) :
    Moves id (.finalize update now) (some entry) (some (entry.finalize update))
  | requeued {entry : Entry F} (now : Int) (expired : entry.isExpired now = true) :
    Moves id (.requeueExpired now) (some entry) (some (entry.requeue now))
  | deleted {entry : Entry F} (stopped : entry.status ≠ .inProgress) :
    Moves id (.deleteBackgroundResponse id) (some entry) none

theorem claimNext_moves (lease : Nat) : Moves id (.claimNext order worker now lease) (state.find? id)
      ((perform chrono state (.claimNext order worker now lease)).find? id) := by
  obtain ⟨next, reply, ended, ⟨rfl, -⟩ | ⟨middle, skips, claims⟩⟩ :=
    claimNext_spec chrono order worker now lease state <;> simp only [perform, ended, map_some, getD_some]
  · exact .same _ _
  · -- what the skipped jobs do is the same for every end of the loop
    have passed : Moves id (.claimNext order worker now lease) (state.find? id) (middle.find? id) := by
      rcases skips id with same | ⟨entry, here, due, cancelled, gone⟩
      · rw [same]
        exact .same _ _
      · rw [here, gone]
        exact .skipped order worker now lease due cancelled
    cases claims with
    | idle | panicked => exact passed
    | @leased found entry expiresAt here due wanted =>
      rw [find?_setEntry]
      split
      · next same =>
        rw [same, skips.due here due]
        exact .claimed order worker now lease expiresAt due wanted
      · exact passed

theorem find?_foldl_setEntry (change : Entry F → Entry F) (probe : ResponseId) :
    ∀ (pairs : List (ResponseId × Entry F)) (state : State F),
      (pairs.foldl (fun state (id, entry) => state.setEntry id (change entry)) state).find? probe =
          state.find? probe ∨ ∃ entry, (probe, entry) ∈ pairs ∧
          (pairs.foldl (fun state (id, entry) => state.setEntry id (change entry)) state).find? probe =
            some (change entry) := by
  intro pairs
  induction pairs with
  | nil => exact fun _ => .inl rfl
  | cons first rest ih =>
    intro state
    rw [foldl_cons]
    rcases ih (state.setEntry first.1 (change first.2)) with same | ⟨entry, mem, set⟩
    · rw [find?_setEntry] at same
      split at same
      · next here =>
        refine .inr ⟨first.2, ?_, same⟩
        rw [here]
        exact mem_cons_self
      · exact .inl same
    · exact .inr ⟨entry, mem_cons_of_mem _ mem, set⟩

theorem requeueExpired_moves :
    Moves id (.requeueExpired now) (state.find? id) ((perform chrono state (.requeueExpired now)).find? id) := by
  simp only [perform, requeueExpired]
  rcases find?_foldl_setEntry (·.requeue now) id (state.entries.toList.filter (·.2.isExpired now)) state with
    same | ⟨entry, mem, set⟩
  · rw [same]
    exact .same _ _
  · rw [mem_filter, mem_toList_iff] at mem
    have here : state.find? id = some entry := mem.1
    rw [set, here]
    exact .requeued now mem.2

theorem Moves.setEntry {target : ResponseId} {held : Option (Entry F)} {changed : Entry F}
    (here : state.find? target = held) (moves : Moves target call held (some changed)) :
    Moves id call (state.find? id) ((state.setEntry target changed).find? id) := by
  rw [find?_setEntry]
  split
  · next same =>
    rw [same, here]
    exact moves
  · exact .same _ _

theorem perform_moves (call : Call F) : Moves id call (state.find? id) ((perform chrono state call).find? id) := by
  cases call with
  | enqueue request requestContext now =>
    simp only [perform, enqueue]
    split
    · exact .same _ _
    · next fresh =>
      rw [Bool.not_eq_true, KeyedMap.contains, isSome_eq_false_iff, isNone_iff_eq_none] at fresh
      exact .setEntry fresh (.enqueued request requestContext now rfl)
  | claimNext order worker now lease => exact claimNext_moves lease
  | heartbeat target worker now lease =>
    simp only [perform, heartbeat]
    split
    · exact .same _ _
    · next entry here =>
      split
      · exact .same _ _
      · next holds =>
        rw [Bool.not_eq_true', Bool.not_eq_false] at holds
        split
        · exact .same _ _
        · split
          · exact .same _ _
          · exact .setEntry here (.extended worker now lease _ holds)
  | requestCancel target now =>
    simp only [perform, requestCancel]
    split
    · exact .same _ _
    · next entry here =>
      split
      · next queued => exact .setEntry here (.cancelled now queued)
      · next running => exact .setEntry here (.flagged now running)
      all_goals exact .same _ _
  | appendStreamEvent caller target eventType data now =>
    simp only [perform, appendStreamEvent]
    split
    · exact .same _ _
    · next entry here =>
      split
      · exact .same _ _
      · exact .setEntry here (.appended caller eventType data now)
  | finalize update now =>
    simp only [perform, finalize]
    split
    · exact .same _ _
    · next entry here =>
      split
      · exact .same _ _
      · next opened =>
        split
        · exact .same _ _
        · next fenced =>
          rw [not_or, not_not, Bool.not_eq_false] at fenced
          exact .setEntry here (.finalized update now rfl opened fenced.1 fenced.2)
  | requeueExpired now => exact requeueExpired_moves
  | deleteBackgroundResponse target =>
    simp only [perform, deleteBackgroundResponse]
    split
    · exact .same _ _
    · next entry here =>
      split
      · exact .same _ _
      · next stopped =>
        have erased := get?_erase state.entries target id
        simp only [State.find?] at here ⊢
        rw [erased]
        split
        · next same =>
          rw [same, here]
          exact .deleted stopped
        · exact .same _ _
  | loadResumeEvents | loadRequestContext => exact .same _ _

/-! ### What holds in every run -/

theorem isDue_iff : entry.isDue now = true ↔ entry.status = .queued ∧ entry.nextAttemptAt ≤ now := by
  simp [isDue]

theorem heldByCaller_iff : entry.heldByCaller worker now = true ↔
    entry.status = .inProgress ∧ entry.workerId = some worker ∧ entry.leaseExpiresAt.any (now < ·) = true := by
  rw [heldByCaller, Bool.and_eq_true, Bool.and_eq_true, decide_eq_true_iff, decide_eq_true_iff, and_assoc]

theorem toFinalize_eq_none {status : InternalStatus} : status.toFinalize = none ↔ status.isTerminal = false := by
  cases status <;> simp [toFinalize, isTerminal]

/-- What the fields of an entry have to do with each other. -/
structure Entry.Valid (entry : Entry F) : Prop where
  unleased : entry.status ≠ .inProgress → entry.workerId = none
  obeyed : entry.cancelRequested = true → entry.status.isTerminal = true → entry.status = .cancelled
  numbered : entry.streamEvents.map (·.sequence) = (range entry.streamEvents.length).map Int.ofNat
  next : entry.nextStreamSequence = entry.streamEvents.length

theorem Entry.Valid.append (valid : entry.Valid) (eventType : Text) (data : Value F) :
    (entry.append ⟨id, entry.nextStreamSequence, eventType, data, now⟩).Valid := by
  refine ⟨valid.unleased, valid.obeyed, ?_, ?_⟩
  · simp only [Entry.append, map_append, length_append, map_cons, map_nil,
      length_singleton, range_succ, valid.numbered, valid.next]
    rfl
  · simp only [Entry.append, valid.next, length_append, length_singleton]
    omega

theorem Moves.valid {pre : Option (Entry F)} (moves : Moves id call pre (some post))
    (valid : ∀ entry, pre = some entry → entry.Valid) : post.Valid := by
  cases moves with
  | same => exact valid post rfl
  | enqueued request requestContext now => exact ⟨fun _ => rfl, nofun, rfl, rfl⟩
  | @skipped entry order worker now lease due =>
    have queued := (isDue_iff.mp due).1
    have old := valid entry rfl
    exact { old with unleased := fun _ => old.unleased (by rw [queued]; simp), obeyed := fun _ _ => rfl }
  | @claimed entry order worker now lease expiresAt due wanted =>
    exact { valid entry rfl with unleased := absurd rfl, obeyed := fun _ ended => nomatch ended }
  | @extended entry => exact { valid entry rfl with }
  | @cancelled entry now =>
    exact { valid entry rfl with unleased := fun _ => rfl, obeyed := fun _ _ => rfl }
  | @flagged entry now running =>
    refine { valid entry rfl with obeyed := fun _ ended => ?_ }
    simp only [running] at ended
    cases ended
  | @appended entry caller eventType data now => exact (valid entry rfl).append eventType data
  | @finalized entry update now =>
    refine { valid entry rfl with unleased := fun _ => rfl, obeyed := fun cancelled _ => ?_ }
    have flag : entry.cancelRequested = true := cancelled
    simp [Entry.finalize, flag, fromFinalize]
  | @requeued entry now =>
    exact { valid entry rfl with unleased := fun _ => rfl, obeyed := fun _ ended => nomatch ended }

variable (moves : Moves id call (some entry) (some post))
include moves

theorem Moves.terminal (ended : entry.status.isTerminal = true) : post.status = entry.status := by
  cases moves with
  | same | extended | appended => rfl
  | skipped _ _ _ _ due | claimed _ _ _ _ _ due =>
    rw [(isDue_iff.mp due).1] at ended
    cases ended
  | cancelled _ queued =>
    rw [queued] at ended
    cases ended
  | flagged _ running => rfl
  | finalized _ _ _ opened =>
    rw [toFinalize_eq_none.mp opened] at ended
    cases ended
  | requeued _ expired =>
    simp only [isExpired, Bool.and_eq_true, decide_eq_true_eq] at expired
    rw [expired.1] at ended
    cases ended

theorem Moves.cancelRequested (flag : entry.cancelRequested = true) : post.cancelRequested = true := by
  cases moves with
  | flagged => rfl
  | _ => exact flag

theorem Moves.streamEvents : post.streamEvents = entry.streamEvents ∨
      ∃ caller eventType data now, call = .appendStreamEvent caller id eventType data now := by
  cases moves with
  | appended caller eventType data now => exact .inr ⟨caller, eventType, data, now, rfl⟩
  | _ => exact .inl rfl

omit moves

theorem run_append (calls more : List (Call F)) :
    run chrono (calls ++ more) state = run chrono more (run chrono calls state) := by
  unfold run
  exact foldl_append

theorem valid_of_run (calls : List (Call F)) :
    ∀ {state : State F}, (∀ id entry, state.find? id = some entry → entry.Valid) →
      ∀ id entry, (run chrono calls state).find? id = some entry → entry.Valid := by
  induction calls with
  | nil => exact fun valid => valid
  | cons call rest ih =>
    intro state valid
    apply ih
    intro id entry here
    have moves := @perform_moves F chrono state id call
    rw [here] at moves
    exact moves.valid (valid id)

theorem valid_of_reached (here : (run chrono calls {}).find? id = some entry) : entry.Valid :=
  @valid_of_run F chrono calls {} (fun _ entry missing => nomatch (show none = some entry from missing)) id entry here

/-- The response is there all along the calls. -/
def Stays (chrono : Chrono) (id : ResponseId) : List (Call F) → State F → Prop
  | [], state => ∃ entry, state.find? id = some entry
  | call :: rest, state => (∃ entry, state.find? id = some entry) ∧ Stays chrono id rest (perform chrono state call)

theorem Stays.start (stays : Stays chrono id calls state) : ∃ entry, state.find? id = some entry := by
  cases calls with
  | nil => exact stays
  | cons call rest => exact stays.1

theorem Stays.keeps {P : Entry F → Prop}
    (step : ∀ {call entry post}, Moves id call (some entry) (some post) → P entry → P post) :
    ∀ {calls : List (Call F)} {state : State F} {entry : Entry F}, Stays chrono id calls state →
      state.find? id = some entry → P entry →
      ∃ post, (run chrono calls state).find? id = some post ∧ P post := by
  intro calls
  induction calls with
  | nil => exact fun _ here holds => ⟨_, here, holds⟩
  | cons call rest ih =>
    intro state entry stays here holds
    obtain ⟨post, there⟩ := stays.2.start
    have moves := @perform_moves F chrono state id call
    rw [here, there] at moves
    exact ih stays.2 there (step moves holds)

theorem status_stays (stays : Stays chrono id calls state) (here : state.find? id = some entry)
    (ended : entry.status.isTerminal = true) :
    ∃ post, (run chrono calls state).find? id = some post ∧ post.status = entry.status := by
  refine @Stays.keeps F chrono id (fun post => post.status = entry.status) (fun moves same => ?_) _ _ _
    stays here rfl
  rw [moves.terminal (by rw [same, ended]), same]

/-! ### Leases -/

/-- The worker holds a lease that is not expired at its time. -/
def Leases (state : State F) (id : ResponseId) (worker : WorkerId) (now : Int) : Prop :=
  ∃ entry, state.find? id = some entry ∧ entry.heldByCaller worker now = true

theorem Leases.unique {first second : WorkerId} {later : Int} (held : Leases state id first now)
    (also : Leases state id second later) : first = second := by
  obtain ⟨entry, here, holds⟩ := held
  obtain ⟨found, there, alsoHolds⟩ := also
  rw [here] at there
  cases there
  have owner := (heldByCaller_iff.mp holds).2.1
  rw [(heldByCaller_iff.mp alsoHolds).2.1] at owner
  exact (some.inj owner).symm

theorem leases_of_heartbeat (done : (heartbeat chrono id worker now lease state).2 = .ok ()) :
    Leases state id worker now := by
  unfold heartbeat at done
  split at done
  · cases done
  · next entry here =>
    split at done
    · cases done
    · next holds =>
      rw [Bool.not_eq_true', Bool.not_eq_false] at holds
      exact ⟨entry, here, holds⟩

theorem leases_of_finalize (valid : ∀ id entry, state.find? id = some entry → entry.Valid)
    {update : FinalizeRequest F} (changed : (finalize update now state).1 ≠ state) :
    Leases state update.responseId update.workerId now := by
  unfold finalize at changed
  split at changed
  · exact absurd rfl changed
  · next entry here =>
    split at changed
    · exact absurd rfl changed
    · split at changed
      · exact absurd rfl changed
      · next fenced =>
        rw [not_or, not_not, Bool.not_eq_false] at fenced
        refine ⟨entry, here, heldByCaller_iff.mpr ⟨?_, fenced.1, fenced.2⟩⟩
        -- an entry with a worker is in progress
        by_contra stopped
        have unleased := (valid _ _ here).unleased stopped
        rw [fenced.1] at unleased
        cases unleased

theorem requestCancel_spec (accepted : (requestCancel id now state).2 = .ok .queuedCancelled ∨
      (requestCancel id now state).2 = .ok .cancelRequested) :
    ∃ entry, (requestCancel id now state).1.find? id = some entry ∧
      (entry.status = .cancelled ∨ entry.cancelRequested = true) := by
  unfold requestCancel at accepted ⊢
  split at accepted
  · rcases accepted with refused | refused <;> cases refused
  · next entry here =>
    split at accepted
    · simp only
      rw [find?_publish, if_pos rfl]
      exact ⟨_, rfl, .inl rfl⟩
    · next running =>
      simp only [running]
      rw [find?_setEntry, if_pos rfl]
      exact ⟨_, rfl, .inr rfl⟩
    all_goals rcases accepted with refused | refused <;> cases refused

theorem Claims.least {job : LeasedJob F} (claims : Claims now worker middle next (.ok (some job)))
    (skips : Skips now state middle) :
    ∃ entry, state.find? job.responseId = some entry ∧ entry.isDue now = true ∧ entry.cancelRequested = false ∧
      ∀ other rival, state.find? other = some rival → rival.isDue now = true →
        rival.cancelRequested = false → entry.rank ≤ rival.rank := by
  cases claims with
  | @leased id entry expiresAt here due wanted least =>
    refine ⟨entry, skips.due here due, due, wanted, fun other rival there rivalDue rivalWanted => ?_⟩
    exact least other rival (skips.kept there rivalWanted) rivalDue

theorem Claims.cancelled (claims : Claims now worker middle next (.ok none)) (skips : Skips now state middle)
    (here : state.find? id = some entry) (due : entry.isDue now = true) :
    entry.cancelRequested = true := by
  cases claims with
  | idle nothing =>
    by_contra wanted
    rw [Bool.not_eq_true] at wanted
    have missed := nothing id entry (skips.kept here wanted)
    rw [due] at missed
    cases missed

/-- A clock without limits. -/
def wideChrono : Chrono := ⟨fun duration => .ok duration, fun now lease => some (now + lease)⟩

def listedOrder : HashOrder Empty := ⟨fun entries => entries, fun _ => .refl _⟩

def sampleRequest : EnqueueRequest Empty :=
  ⟨"r".toList, .null, .null, .null, true, 0, none, "m".toList, none, none⟩

def sampleFinalize : FinalizeRequest Empty := ⟨"r".toList, "a".toList, .completed, .null, 2⟩

/-- A response that the worker `a` has claimed. -/
def claimedCalls : List (Call Empty) :=
  [.enqueue sampleRequest none 0, .claimNext listedOrder "a".toList 0 60]

end ModelGateway.Background
