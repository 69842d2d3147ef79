import ModelGateway.Collector

/-! What the senders have sent of the stores, over every interleaving of writes, gossip rounds
and send rounds. -/
namespace ModelGateway.Collector
open CrdtMap List Function Nat KeyedMap Prod

/-! ### Batches -/

variable {store : StoreType} {sender : Sender} {gateway : Gateway} {stores : StoreType → StateStore}
  {selfName : String} {timestamp : Nat} {extras : Extras} {answer : StoreType → TrySend}

theorem mem_roundBatch {updates : StoreType → List StateUpdate} {listed : List StateUpdate} :
    (store, listed) ∈ roundBatch updates ↔ listed = updates store ∧ listed ≠ [] := by
  simp only [roundBatch, mem_filterMap]
  constructor
  · rintro ⟨other, -, found⟩
    split at found
    · cases found
    · rename_i some
      cases found
      exact ⟨rfl, by simpa using some⟩
  · rintro ⟨rfl, some⟩
    exact ⟨store, by cases store <;> decide, if_neg (by simpa using some)⟩

theorem nodup_roundBatch (updates : StoreType → List StateUpdate) : ((roundBatch updates).map fst).Nodup := by
  rw [roundBatch, map_filterMap]
  refine Nodup.filterMap (fun first second store one two => ?_) (by decide)
  simp only [Option.mem_def, Option.map_eq_some_iff, Option.ite_none_left_eq_some, Option.some.injEq] at one two
  obtain ⟨_, ⟨-, rfl⟩, rfl⟩ := one
  obtain ⟨_, ⟨-, rfl⟩, same⟩ := two
  exact same.symm

theorem filterBatch_roundBatch (lastSent : LastSentVersions) (updates : StoreType → List StateUpdate) :
    filterBatch lastSent (roundBatch updates) =
      roundBatch fun store => (updates store).filter (shouldSend lastSent store) := by
  rw [filterBatch, roundBatch, filterMap_filterMap, roundBatch]
  congr 1
  funext store
  cases updates store with
  | nil => rfl
  | cons first rest => rfl

/-! ### Send rounds -/

/-- The versions recorded for the updates of one store. -/
def markAll (storeType : StoreType) (versions : KeyedMap String Nat) (updates : List StateUpdate) :
    KeyedMap String Nat :=
  updates.foldl (fun versions update => versions.insert (lastSentKey storeType update) update.version) versions

/-- A sender that has sent and marked some updates of a store. -/
def Sent (storeType : StoreType) (updates : List StateUpdate) (sender sender' : Sender) : Prop :=
  sender'.lastSent storeType = markAll storeType (sender.lastSent storeType) updates ∧
    sender'.sent storeType = sender.sent storeType ++ updates

theorem Sent.none (store : StoreType) (sender : Sender) : Sent store [] sender sender := ⟨rfl, (append_nil _).symm⟩

theorem Sent.trans {first second : List StateUpdate} {sender₁ sender₂ : Sender}
    (one : Sent store first sender sender₁) (two : Sent store second sender₁ sender₂) :
    Sent store (first ++ second) sender sender₂ := by
  refine ⟨?_, ?_⟩
  · rw [two.1, one.1, markAll, markAll, markAll, foldl_append]
  · rw [two.2, one.2, append_assoc]

theorem Sent.ok (store : StoreType) (updates : List StateUpdate) (sender : Sender) :
    Sent store updates sender ⟨markSent sender.lastSent store updates,
      update sender.sent store (sender.sent store ++ updates)⟩ :=
  ⟨update_self .., update_self ..⟩

theorem Sent.other {first : StoreType} (differs : store ≠ first) (updates : List StateUpdate)
    (sender : Sender) : Sent store [] sender ⟨markSent sender.lastSent first updates,
      update sender.sent first (sender.sent first ++ updates)⟩ :=
  ⟨update_of_ne differs .., (update_of_ne differs ..).trans (append_nil _).symm⟩

/-- An oversized batch is left for later: it holds tree updates. -/
def Sendable (updates : List StateUpdate) : Prop :=
  batchSize updates ≤ maxMessageSize ∨ (updates.any fun update => isTreeKey update.key) = true

/-- Every store of a batch fits into a message and is taken by the channel. -/
def Complete (answer : StoreType → TrySend) (batch : RoundBatch) : Prop :=
  ∀ entry ∈ batch, batchSize entry.2 ≤ maxMessageSize ∧ answer entry.1 = .ok

/-- A send round sends each store as a whole or not at all, and all stores when it is complete. -/
theorem sendLoop_sent (answer : StoreType → TrySend) (store : StoreType) {batch : RoundBatch}
    (nodup : (batch.map fst).Nodup) (sendable : ∀ entry ∈ batch, Sendable entry.2)
    (sender : Sender) : ∃ updates, Sent store updates sender (sendLoop answer batch sender) ∧
      (updates = [] ∨ (store, updates) ∈ batch) ∧
      (Complete answer batch → ∀ listed, (store, listed) ∈ batch → updates = listed) := by
  induction batch generalizing sender with
  | nil => exact ⟨[], .none store sender, .inl rfl, fun _ _ mem => by cases mem⟩
  | cons entry rest ih =>
    obtain ⟨first, listed⟩ := entry
    rw [map_cons, nodup_cons] at nodup
    have later := ih nodup.2 fun entry mem => sendable entry (mem_cons_of_mem _ mem)
    have passedOver : ¬ (batchSize listed ≤ maxMessageSize ∧ answer first = .ok) →
        ∃ updates, Sent store updates sender (sendLoop answer rest sender) ∧
          (updates = [] ∨ (store, updates) ∈ (first, listed) :: rest) ∧
          (Complete answer ((first, listed) :: rest) → ∀ listed',
            (store, listed') ∈ (first, listed) :: rest → updates = listed') := by
      intro unsent
      obtain ⟨updates, sent, source, -⟩ := later sender
      exact ⟨updates, sent, source.imp_right (mem_cons_of_mem _), fun complete =>
        absurd (complete _ mem_cons_self) unsent⟩
    rw [sendLoop]
    split
    · rename_i oversized
      have trees := (sendable _ mem_cons_self).resolve_left (not_le.mpr oversized)
      rw [if_pos trees]
      exact passedOver fun fits => not_le.mpr oversized fits.1
    · cases answered : answer first with
      | full => exact passedOver fun fits => by simp [answered] at fits
      | closed =>
        exact ⟨[], .none store sender, .inl rfl, fun complete => by
          have := (complete _ mem_cons_self).2
          simp [answered] at this⟩
      | ok =>
        obtain ⟨updates, sent, source, whole⟩ := later ⟨markSent sender.lastSent first listed,
            update sender.sent first (sender.sent first ++ listed)⟩
        by_cases same : store = first
        · subst same
          -- no store is listed twice, so the rest of the batch leaves this one alone
          have unlisted : ∀ updates, (store, updates) ∉ rest := fun updates mem =>
            nodup.1 (mem_map.mpr ⟨_, mem, rfl⟩)
          obtain rfl : updates = [] := source.resolve_right (unlisted updates)
          have taken := (Sent.ok store listed sender).trans sent
          rw [append_nil] at taken
          refine ⟨listed, taken, .inr mem_cons_self, fun _ listed' mem => ?_⟩
          rcases mem_cons.mp mem with equal | elsewhere
          · exact (mk.inj equal).2.symm
          · exact absurd elsewhere (unlisted listed')
        · refine ⟨updates, (Sent.other same listed sender).trans sent,
            source.imp_right (mem_cons_of_mem _), fun complete listed' mem => ?_⟩
          refine whole (fun entry inside => complete entry (mem_cons_of_mem _ inside)) listed' ?_
          exact (mem_cons.mp mem).resolve_left fun equal => same (mk.inj equal).1

/-! ### One key -/

/-- The last update of a key among those sent. -/
def lastUpdate (sent : List StateUpdate) (key : String) : Option StateUpdate :=
  (sent.filter fun update => update.key == key).getLast?

/-- An update that carries a key in a given state. -/
def Carries (update : StateUpdate) (key : String) (state : State) : Prop :=
  update.key = key ∧ update.value = state.bytes ∧ update.version = state.version

theorem lastSentKey_plain (plain : store ≠ .rateLimit) (update : StateUpdate) :
    lastSentKey store update = update.key := by
  cases store <;> first | rfl | exact absurd rfl plain

theorem lastUpdate_append (first second : List StateUpdate) (key : String) :
    lastUpdate (first ++ second) key = (lastUpdate second key).or (lastUpdate first key) := by
  rw [lastUpdate, filter_append, getLast?_append]
  rfl

theorem get?_markAll (plain : store ≠ .rateLimit) (versions : KeyedMap String Nat)
    (updates : List StateUpdate) (key : String) : (markAll store versions updates).get? key =
      ((lastUpdate updates key).map StateUpdate.version).or (versions.get? key) := by
  induction updates using List.reverseRecOn with
  | nil => rfl
  | append_singleton updates update ih =>
    rw [markAll, foldl_append, foldl_cons, foldl_nil, get?_insert, lastSentKey_plain plain, lastUpdate_append]
    by_cases here : update.key = key
    · simp [here, lastUpdate]
    · rw [if_neg (Ne.symm here)]
      refine ih.trans ?_
      simp [here, lastUpdate]

theorem Sent.key (plain : store ≠ .rateLimit) {updates : List StateUpdate} {sender' : Sender}
    (sent : Sent store updates sender sender') (key : String) :
    ((∀ update ∈ updates, update.key ≠ key) ∧ sender'.lastSent.version store key = sender.lastSent.version store key ∧
        lastUpdate (sender'.sent store) key = lastUpdate (sender.sent store) key) ∨
      ∃ update ∈ updates, update.key = key ∧ sender'.lastSent.version store key = update.version ∧
        lastUpdate (sender'.sent store) key = some update := by
  have version : sender'.lastSent.version store key = (((lastUpdate updates key).map StateUpdate.version).or
        ((sender.lastSent store).get? key)).getD 0 := by
    rw [LastSentVersions.version, sent.1, get?_markAll plain]
  have last := congrArg (lastUpdate · key) sent.2
  simp only [lastUpdate_append] at last
  cases found : lastUpdate updates key with
  | none =>
    rw [found] at version last
    rw [lastUpdate, getLast?_eq_none_iff, filter_eq_nil_iff] at found
    exact .inl ⟨fun update mem => by simpa using found update mem, version, last⟩
  | some update =>
    have mem := mem_filter.mp (mem_of_getLast? found)
    rw [found] at version last
    exact .inr ⟨update, mem.1, by simpa using mem.2, version, last⟩

/-! ### What a gateway owes its peers -/

/-- The keys that are collected from a store: all of the four state stores but the tree keys
of the policy store. -/
def Tracked (storeType : StoreType) (key : String) : Prop :=
  storeType ≠ .rateLimit ∧ (storeType = .policy → isTreeKey key = false)

variable (gateway)

/-- The next scan reads the store: it has changed since the last snapshot, or since the last
round when a snapshot is still to be scanned. -/
def Pending (storeType : StoreType) : Prop :=
  gateway.collectedGenerations storeType < (gateway.stores storeType).generation ∨
    gateway.phase = .snapshotted ∧ gateway.lastScanned storeType < gateway.collectedGenerations storeType

def InBatch (storeType : StoreType) (key : String) (state : State) : Prop :=
  ∃ updates, (storeType, updates) ∈ gateway.currentBatch ∧ ∃ update ∈ updates, Carries update key state

/-- The last update sent for the key carries the state. -/
def Delivered (sender : Sender) (storeType : StoreType) (key : String) (state : State) : Prop :=
  ∃ update, lastUpdate (sender.sent storeType) key = some update ∧ Carries update key state

/-- Where a state stands with a peer: it was delivered last, or it is newer than what was
marked sent and will be offered. -/
def Owed (sender : Sender) (storeType : StoreType) (key : String) (state : State) : Prop :=
  (sender.lastSent.version storeType key = state.version ∧ Delivered sender storeType key state) ∨
    (sender.lastSent.version storeType key < state.version ∧
      (InBatch gateway storeType key state ∨ Pending gateway storeType))

/-- The steps with which nothing is lost. A write gives its key a version above those marked
sent or waiting in the batch. A scan leaves out an unchanged store only when every peer has been
sent all of it, and a peer connects only when all that no scan will read again is in the batch.
A batch that is too large for a message holds tree updates. -/
def Orderly : Step → Prop
  | .write storeType key state => Tracked storeType key → 0 < state.version ∧
      (∀ sender ∈ gateway.senders, sender.lastSent.version storeType key < state.version) ∧
      ∀ updates, (storeType, updates) ∈ gateway.currentBatch → ∀ update ∈ updates,
        update.key = key → update.version < state.version
  | .scan _ _ _ => ∀ sender ∈ gateway.senders, ∀ storeType key state, Tracked storeType key →
      (gateway.stores storeType).get key = some state →
      gateway.lastScanned storeType = (gateway.stores storeType).generation →
      state.version ≤ sender.lastSent.version storeType key
  | .connect => ∀ storeType key state, Tracked storeType key →
      (gateway.stores storeType).get key = some state →
      InBatch gateway storeType key state ∨ Pending gateway storeType
  | .send peer _ => ∀ sender, gateway.senders[peer]? = some sender →
      ∀ entry ∈ filterBatch sender.lastSent gateway.currentBatch, Sendable entry.2
  | _ => True

/-- A collected update is older than the state of its key, or carries it; and a batch holds a
key in one state. -/
structure Behind (updates : StoreType → List StateUpdate) : Prop where
  single : ∀ storeType key, Tracked storeType key → ∀ first ∈ updates storeType,
    ∀ second ∈ updates storeType, first.key = key → second.key = key →
      first.value = second.value ∧ first.version = second.version
  older : ∀ storeType key, Tracked storeType key → ∀ update ∈ updates storeType, update.key = key →
    ∀ state, (gateway.stores storeType).get key = some state →
      update.version < state.version ∨ Carries update key state

structure Consistent : Prop where
  scanned : ∀ storeType, gateway.lastScanned storeType ≤ gateway.collectedGenerations storeType
  collected : ∀ storeType, gateway.collectedGenerations storeType ≤ (gateway.stores storeType).generation
  advanced : gateway.phase = .idle → gateway.lastScanned = gateway.collectedGenerations
  batch : ∃ updates, gateway.currentBatch = roundBatch updates ∧ Behind gateway updates
  positive : ∀ storeType key state, Tracked storeType key →
    (gateway.stores storeType).get key = some state → 0 < state.version
  owed : ∀ sender ∈ gateway.senders, ∀ storeType key state, Tracked storeType key →
    (gateway.stores storeType).get key = some state → Owed gateway sender storeType key state

variable {gateway}

theorem consistent_new : Consistent .new where
  scanned _ := le_rfl
  collected _ := le_rfl
  advanced _ := rfl
  batch := ⟨fun _ => [], rfl, fun _ _ _ => nofun, fun _ _ _ => nofun⟩
  positive _ _ _ _ := nofun
  owed := nofun

theorem Owed.later {post : Gateway} {key : String} {state : State} (owed : Owed gateway sender store key state)
    (batch : InBatch gateway store key state → InBatch post store key state)
    (pending : Pending gateway store → Pending post store) : Owed post sender store key state :=
  owed.imp_right fun behind => ⟨behind.1, behind.2.imp batch pending⟩

section
variable (consistent : Consistent gateway) {key : String}
include consistent

theorem Consistent.batch_kept {post : Gateway} (stores : post.stores = gateway.stores)
    (batch : post.currentBatch = gateway.currentBatch) :
    ∃ updates, post.currentBatch = roundBatch updates ∧ Behind post updates := by
  obtain ⟨updates, shape, behind⟩ := consistent.batch
  exact ⟨updates, batch.trans shape, behind.single, stores ▸ behind.older⟩

/-- A change of one store that keeps every state of it but that of one key. -/
theorem Consistent.change (store : StoreType) (key : String) {changed : StateStore}
    (later : (gateway.stores store).generation < changed.generation)
    (others : ∀ probe, probe ≠ key → changed.get probe = (gateway.stores store).get probe)
    (fresh : ∀ state, changed.get key = some state → Orderly gateway (.write store key state)) :
    Consistent { gateway with stores := update gateway.stores store changed } := by
  rw [← update_self store changed gateway.stores] at later others fresh
  have elsewhere {probe : StoreType} (other : probe ≠ store) :
      update gateway.stores store changed probe = gateway.stores probe := update_of_ne other ..
  generalize update gateway.stores store changed = stores at *
  have pending : Pending { gateway with stores := stores } store := .inl ((consistent.collected store).trans_lt later)
  -- a state is one that was there before, or the new one of the key
  have held : ∀ {probe name state}, (stores probe).get name = some state →
      (gateway.stores probe).get name = some state ∨ probe = store ∧ name = key := by
    intro probe name state found
    by_cases same : probe = store
    · subst same
      by_cases named : name = key
      · exact .inr ⟨rfl, named⟩
      · exact .inl (others name named ▸ found)
    · exact .inl (elsewhere same ▸ found)
  refine ⟨consistent.scanned, fun probe => ?_, consistent.advanced, ?_, ?_, ?_⟩
  · refine (consistent.collected probe).trans ?_
    by_cases same : probe = store
    · exact same ▸ later.le
    · exact (congrArg KvStore.generation (elsewhere same)).ge
  · obtain ⟨updates, shape, behind⟩ := consistent.batch
    refine ⟨updates, shape, behind.single, fun probe name tracked update mem named state found => ?_⟩
    rcases held found with pre | ⟨rfl, rfl⟩
    · exact behind.older probe name tracked update mem named state pre
    · refine .inl ((fresh state found tracked).2.2 (updates probe) ?_ update mem named)
      rw [shape, mem_roundBatch]
      exact ⟨rfl, ne_nil_of_mem mem⟩
  · intro probe name state tracked found
    rcases held found with pre | ⟨rfl, rfl⟩
    · exact consistent.positive probe name state tracked pre
    · exact (fresh state found tracked).1
  · intro sender mem probe name state tracked found
    rcases held found with pre | ⟨rfl, rfl⟩
    · refine (consistent.owed sender mem probe name state tracked pre).later id fun due => ?_
      by_cases same : probe = store
      · exact same ▸ pending
      · refine due.imp_left fun changed => ?_
        simp only
        rw [elsewhere same]
        exact changed
    · exact .inr ⟨(fresh state found tracked).2.1 sender mem, .inr pending⟩

theorem Consistent.snapshot (idle : gateway.phase = .idle) : Consistent (Step.snapshot.run gateway) := by
  have advanced := consistent.advanced idle
  refine ⟨fun probe => (consistent.scanned probe).trans (consistent.collected probe), fun _ => le_rfl,
    nofun, consistent.batch_kept rfl rfl, consistent.positive, ?_⟩
  intro sender mem probe name state tracked found
  refine (consistent.owed sender mem probe name state tracked found).later id fun due => .inr ⟨rfl, ?_⟩
  rcases due with changed | ⟨snapshotted, -⟩
  · rw [← advanced] at changed
    exact changed
  · rw [idle] at snapshotted
    cases snapshotted

theorem Consistent.advance (scanned : gateway.phase = .scanned) : Consistent (Step.advance.run gateway) := by
  refine ⟨fun _ => le_rfl, consistent.collected, fun _ => rfl, consistent.batch_kept rfl rfl, consistent.positive, ?_⟩
  intro sender mem probe name state tracked found
  refine (consistent.owed sender mem probe name state tracked found).later id fun due =>
    .inl (due.resolve_right fun snapshotted => ?_)
  rw [scanned] at snapshotted
  cases snapshotted.1

theorem Consistent.connect (orderly : Orderly gateway .connect) : Consistent (Step.connect.run gateway) := by
  refine { consistent with batch := consistent.batch_kept rfl rfl, owed := ?_ }
  refine forall_mem_snoc.mpr ⟨consistent.owed, fun probe name state tracked found => ?_⟩
  exact .inr ⟨consistent.positive probe name state tracked found, orderly probe name state tracked found⟩

omit consistent in
/-- A scan collects every entry of a store that changed, and nothing else of the tracked keys. -/
theorem mem_collectStore {snapshot lastScanned : Generations}
    (trees : ∀ update ∈ extras.trees, isTreeKey update.key = true) (tracked : Tracked store key)
    {update : StateUpdate} (named : update.key = key) :
    update ∈ collectStore selfName timestamp stores snapshot lastScanned extras store ↔
      snapshot store ≠ lastScanned store ∧ ∃ state, (stores store).get key = some state ∧
        update = stateUpdate selfName timestamp (key, state) := by
  have listed (keep : String × State → Bool) (keeps : ∀ state, keep (key, state) = true) :
      update ∈ ((stores store).entries.toList.filter keep).map (stateUpdate selfName timestamp) ↔
        ∃ state, (stores store).get key = some state ∧ update = stateUpdate selfName timestamp (key, state) := by
    simp only [mem_map, mem_filter, Prod.exists, mem_toList_iff]
    constructor
    · rintro ⟨name, state, ⟨found, -⟩, rfl⟩
      obtain rfl : name = key := named
      exact ⟨state, found, rfl⟩
    · rintro ⟨state, found, rfl⟩
      exact ⟨key, state, ⟨found, keeps state⟩, rfl⟩
  cases store with
  | rateLimit => exact absurd rfl tracked.1
  | policy =>
    have plain := tracked.2 rfl
    have untreed : update ∉ extras.trees := fun mem => by
      have := trees update mem
      rw [named, plain] at this
      cases this
    -- the filter drops tree keys only
    have kept := listed (fun entry => !isTreeKey entry.1) fun _ => by rw [plain]; rfl
    rw [collectStore, collectPolicyStore, mem_append, or_iff_left untreed, ← kept]
    by_cases same : snapshot .policy = lastScanned .policy <;> simp [same]
  | membership | app | worker =>
    rw [← listed (fun _ => true) fun _ => rfl, filter_true]
    simp only [collectStore, collectSerializableStore]
    split
    · next same => simp [same]
    · next differs => exact (and_iff_right differs).symm

theorem Consistent.scan (trees : ∀ update ∈ extras.trees, isTreeKey update.key = true)
    (orderly : Orderly gateway (.scan selfName timestamp extras)) :
    Consistent ((Step.scan selfName timestamp extras).run gateway) := by
  refine { consistent with advanced := nofun, batch := ?_, owed := ?_ }
  · refine ⟨_, rfl, ?_, ?_⟩
    · intro store key tracked first mem second mem' named named'
      obtain ⟨-, state, found, rfl⟩ := (mem_collectStore trees tracked named).mp mem
      obtain ⟨-, state', found', rfl⟩ := (mem_collectStore trees tracked named').mp mem'
      obtain rfl := Option.some.inj (found.symm.trans found')
      exact ⟨rfl, rfl⟩
    · intro store key tracked update mem named state found
      obtain ⟨-, state', found', rfl⟩ := (mem_collectStore trees tracked named).mp mem
      obtain rfl := Option.some.inj (found.symm.trans found')
      exact .inr ⟨rfl, rfl, rfl⟩
  · intro sender mem store key state tracked found
    rcases consistent.owed sender mem store key state tracked found with done | ⟨newer, -⟩
    · exact .inl done
    · refine .inr ⟨newer, ?_⟩
      by_cases same : gateway.collectedGenerations store = gateway.lastScanned store
      · -- the store is left out: it has changed since the snapshot, for the peer is behind
        refine .inr (.inl (lt_of_le_of_ne (consistent.collected store) fun unchanged => ?_))
        exact newer.not_ge (orderly sender mem store key state tracked found (same.symm.trans unchanged))
      · have mem : stateUpdate selfName timestamp (key, state) ∈ _ :=
          (mem_collectStore trees tracked rfl).mpr ⟨same, state, found, rfl⟩
        exact .inl ⟨_, mem_roundBatch.mpr ⟨rfl, ne_nil_of_mem mem⟩, _, mem, rfl, rfl, rfl⟩

/-- A send round keeps what a peer is owed, and a complete one of an unchanged gateway pays it. -/
theorem Consistent.sendRound (sendable : ∀ entry ∈ filterBatch sender.lastSent gateway.currentBatch, Sendable entry.2)
    {state : State} (tracked : Tracked store key)
    (found : (gateway.stores store).get key = some state) (owed : Owed gateway sender store key state) :
    Owed gateway (sendRound answer gateway.currentBatch sender) store key state ∧
      (Complete answer (filterBatch sender.lastSent gateway.currentBatch) → ¬ Pending gateway store →
        Delivered (Collector.sendRound answer gateway.currentBatch sender) store key state) := by
  obtain ⟨updates, shape, behind⟩ := consistent.batch
  have filtered : filterBatch sender.lastSent gateway.currentBatch =
      roundBatch fun store => (updates store).filter (shouldSend sender.lastSent store) := by
    rw [shape, filterBatch_roundBatch]
  obtain ⟨listed, sent, source, whole⟩ := sendLoop_sent answer store (filtered ▸ nodup_roundBatch _) sendable sender
  have offered : ∀ update ∈ listed, update ∈ updates store ∧ shouldSend sender.lastSent store update = true := by
    intro update mem
    rcases source with rfl | inside
    · cases mem
    · rw [filtered, mem_roundBatch] at inside
      exact mem_filter.mp (inside.1 ▸ mem)
  -- what waits in the batch is offered, when the peer is behind
  have waiting : InBatch gateway store key state → sender.lastSent.version store key < state.version →
      ∃ update ∈ updates store, Carries update key state ∧
        (Complete answer (filterBatch sender.lastSent gateway.currentBatch) → update ∈ listed) := by
    rintro ⟨held, inside, update, mem, carries⟩ newer
    rw [shape, mem_roundBatch] at inside
    rw [inside.1] at mem
    refine ⟨update, mem, carries, fun complete => ?_⟩
    have chosen : update ∈ (updates store).filter (shouldSend sender.lastSent store) := by
      refine mem_filter.mpr ⟨mem, ?_⟩
      rw [shouldSend, lastSentKey_plain tracked.1, carries.1, carries.2.2]
      exact decide_eq_true newer
    rw [whole complete _ (filtered ▸ mem_roundBatch.mpr ⟨rfl, ne_nil_of_mem chosen⟩)]
    exact chosen
  rcases sent.key tracked.1 key with ⟨absent, version, last⟩ | ⟨update, mem, named, version, last⟩
  · have kept : Delivered (Collector.sendRound answer gateway.currentBatch sender) store key state ↔
        Delivered sender store key state := by
      rw [Delivered, Delivered, ← last]
      rfl
    refine ⟨?_, fun complete settled => ?_⟩
    · rw [Owed, kept]
      exact version ▸ owed
    · rcases owed with ⟨-, done⟩ | ⟨newer, inBatch | due⟩
      · exact kept.mpr done
      · obtain ⟨update, -, carries, taken⟩ := waiting inBatch newer
        exact absurd carries.1 (absent update (taken complete))
      · exact absurd due settled
  · obtain ⟨inside, chosen⟩ := offered update mem
    rw [shouldSend, lastSentKey_plain tracked.1, named] at chosen
    have newer := of_decide_eq_true chosen
    rcases behind.older store key tracked update inside named state found with older | carries
    · -- the key was sent in a state that has been replaced since
      obtain ⟨behindPeer, next⟩ : sender.lastSent.version store key < state.version ∧
          (InBatch gateway store key state ∨ Pending gateway store) := by
        rcases owed with ⟨level, -⟩ | due
        · exact absurd (newer.trans older) (level ▸ lt_irrefl _)
        · exact due
      refine ⟨.inr ⟨version ▸ older, next⟩, fun _ settled => ?_⟩
      obtain ⟨current, member', carries, -⟩ := waiting (next.resolve_right settled) behindPeer
      have same := (behind.single store key tracked update inside current member' named carries.1).2
      exact absurd older (same.trans carries.2.2 ▸ lt_irrefl _)
    · have done : Delivered (Collector.sendRound answer gateway.currentBatch sender) store key state :=
        ⟨update, last, carries⟩
      exact ⟨.inl ⟨version.trans carries.2.2, done⟩, fun _ _ => done⟩

theorem Consistent.send {peer : Nat} (orderly : Orderly gateway (.send peer answer)) :
    Consistent ((Step.send peer answer).run gateway) := by
  refine { consistent with batch := consistent.batch_kept rfl rfl, owed := ?_ }
  intro sender mem store key state tracked found
  obtain ⟨index, at_⟩ := mem_iff_getElem?.mp mem
  rw [show ((Step.send peer answer).run gateway).senders =
    gateway.senders.modify peer (Collector.sendRound answer gateway.currentBatch) from rfl,
    getElem?_modify] at at_
  obtain ⟨pre, held, rfl⟩ := Option.map_eq_some_iff.mp at_
  have owed := consistent.owed pre (mem_of_getElem? held) store key state tracked found
  split
  · rename_i same
    exact (consistent.sendRound (orderly pre (same ▸ held)) tracked found owed).1
  · exact owed

end

theorem Reachable.consistent (reachable : Reachable Orderly gateway) : Consistent gateway := by
  induction reachable with
  | new => exact consistent_new
  | @step gateway step _ enabled orderly ih =>
    cases step with
    | write store key state =>
      refine ih.change store key (lt_succ_self _) (fun probe other => ?_) fun state' found => ?_
      · rw [KvStore.get_insert, if_neg other]
      · rw [KvStore.get_insert, if_pos rfl] at found
        obtain rfl := Option.some.inj found
        exact orderly
    | remove store key =>
      refine ih.change store key (lt_succ_self _) (fun probe other => ?_) fun state' found => ?_
      · rw [KvStore.get_remove, if_neg other]
      · rw [KvStore.get_remove, if_pos rfl] at found
        cases found
    | snapshot => exact ih.snapshot enabled
    | scan selfName timestamp extras => exact ih.scan enabled.2 orderly
    | advance => exact ih.advance enabled
    | connect => exact ih.connect orderly
    | send peer answer => exact ih.send orderly

/-! ### Complete send rounds -/

def batchGenerations (gateway : Gateway) : Generations :=
  if gateway.phase = .snapshotted then gateway.lastScanned else gateway.collectedGenerations

/-- No store has changed since the current batch was collected. -/
def Unchanged (gateway : Gateway) : Prop :=
  ∀ storeType, (gateway.stores storeType).generation = batchGenerations gateway storeType

theorem Consistent.settled (consistent : Consistent gateway) (unchanged : Unchanged gateway)
    (store : StoreType) : ¬ Pending gateway store := by
  have generation := unchanged store
  have scanned := consistent.scanned store
  have collected := consistent.collected store
  rw [batchGenerations] at generation
  split at generation
  · rintro (changed | ⟨-, older⟩) <;> omega
  · rename_i phase
    rintro (changed | ⟨snapshotted, -⟩)
    · omega
    · exact phase snapshotted

/-- In orderly runs, a peer whose filtered batch was sent completely has been sent every entry
as it is, when no store has changed since the batch was collected. -/
theorem complete_send_delivers {gateway : Gateway} (reachable : Reachable Orderly gateway)
    {peer : Nat} {sender : Sender} (connected : gateway.senders[peer]? = some sender)
    {answer : StoreType → TrySend}
    (complete : Complete answer (filterBatch sender.lastSent gateway.currentBatch))
    (unchanged : Unchanged gateway) {storeType : StoreType} {key : String} (tracked : Tracked storeType key)
    {state : State} (found : (gateway.stores storeType).get key = some state) :
    Delivered (sendRound answer gateway.currentBatch sender) storeType key state := by
  have consistent := reachable.consistent
  have owed := consistent.owed sender (mem_of_getElem? connected) storeType key state tracked found
  exact (consistent.sendRound (fun entry mem => .inl (complete entry mem).1) tracked found
    owed).2 complete (consistent.settled unchanged storeType)

/-- A peer connects, a worker is written and a round collects it. -/
def offeredWorker : Gateway :=
  [.connect, .write .worker "w" ⟨[1], 1⟩, .snapshot, .scan "a" 5 ⟨[], []⟩, .advance].foldl Step.run .new

theorem reachable_offeredWorker : Reachable Orderly offeredWorker := by
  refine .step .advance (.step (.scan _ _ _) (.step .snapshot (.step (.write _ _ _)
    (.step .connect .new trivial nofun) trivial ?_) rfl trivial) ⟨rfl, nofun⟩ ?_) rfl trivial
  · exact fun _ => ⟨by decide, forall_mem_singleton.mpr (by decide), nofun⟩
  · intro sender _ store key state _ found same
    cases store with
    | worker => cases same
    | membership | app | policy | rateLimit => cases found

theorem offered_worker_delivered :
    Delivered (sendRound (fun _ => .ok) offeredWorker.currentBatch .new) .worker "w" ⟨[1], 1⟩ := by
  have connected : offeredWorker.senders[0]? = some .new := rfl
  refine complete_send_delivers reachable_offeredWorker connected ?_ ?_ ⟨by decide, by simp⟩ rfl
  · unfold Complete
    decide
  · intro storeType
    cases storeType <;> rfl

/-- The same, but the channel is full for the worker store; then an app entry is written and
the next round collects the app store only. -/
def droppedWorker : Gateway :=
  [.send 0 fun storeType => if storeType = .worker then .full else .ok, .write .app "a" ⟨[2], 1⟩,
    .snapshot, .scan "a" 6 ⟨[], []⟩, .advance].foldl Step.run offeredWorker

theorem dropped_worker_undelivered :
    Reachable (fun _ _ => True) droppedWorker ∧ droppedWorker.senders[0]? = some .new ∧
      Complete (fun _ => .ok) (filterBatch Sender.new.lastSent droppedWorker.currentBatch) ∧
      Unchanged droppedWorker ∧ Tracked .worker "w" ∧
      (droppedWorker.stores .worker).get "w" = some ⟨[1], 1⟩ ∧
      ¬ Delivered (sendRound (fun _ => .ok) droppedWorker.currentBatch .new) .worker "w" ⟨[1], 1⟩ := by
  refine ⟨?_, rfl, ?_, ?_, ⟨by decide, by simp⟩, rfl, ?_⟩
  · exact .step .advance (.step (.scan _ _ _) (.step .snapshot (.step (.write _ _ _) (.step (.send 0 _)
      (.step .advance (.step (.scan _ _ _) (.step .snapshot (.step (.write _ _ _)
      (.step .connect .new trivial trivial) trivial trivial) rfl trivial) ⟨rfl, nofun⟩ trivial) rfl trivial)
      one_pos trivial) trivial trivial) rfl trivial) ⟨rfl, nofun⟩ trivial) rfl trivial
  · unfold Complete
    decide
  · intro storeType
    cases storeType <;> rfl
  · rintro ⟨update, found, -⟩
    cases found

end ModelGateway.Collector
