import ModelGateway.RateLimit
import ModelGateway.CrdtWrites

/-! What the nodes hold of the shards over every run of increments, checks, resets, collections
and deliveries. -/
namespace ModelGateway.RateLimit
open CrdtMap CrdtOperation CrdtWrites List Function RateLimitStore

variable {ι ρ : Type}

theorem shardKey_inj {key key' actor : String} : shardKey key actor = shardKey key' actor ↔ key = key' := by
  rw [shardKey, shardKey, String.append_left_inj, String.append_left_inj]

/-! ### Stores -/

/-- The store of the same node, with other counters. -/
def SameNode (store next : RateLimitStore ρ) : Prop :=
  ∃ counters, next = { store with counters := counters }

variable {store next : RateLimitStore ρ} {start cluster : Cluster ι ρ} {node : ι}
  {stores : ι → RateLimitStore ρ} {steps : List (Step ι)} {update : ShardUpdate}

theorem SameNode.isOwner (same : SameNode store next) : next.isOwner = store.isOwner := by
  obtain ⟨_, rfl⟩ := same
  rfl

theorem SameNode.selfName (same : SameNode store next) : next.selfName = store.selfName := by
  obtain ⟨_, rfl⟩ := same
  rfl

theorem SameNode.trans {last : RateLimitStore ρ} (first : SameNode store next) (second : SameNode next last) :
    SameNode store last := by
  obtain ⟨_, rfl⟩ := first
  obtain ⟨_, rfl⟩ := second
  exact ⟨_, rfl⟩

/-- What every run keeps. -/
structure Kept (start cluster : Cluster ι ρ) : Prop where
  same : ∀ node, SameNode (start.stores node) (cluster.stores node)
  timely : ∀ node, Timely (cluster.stores node).counters
  bounded : ∀ entry ∈ cluster.collected, entry.2.timestamp ≤ u64Max

theorem Kept.delivered (kept : Kept start cluster)
    (enabled : (Step.deliver node update).Enabled cluster) : update.timestamp ≤ u64Max := by
  obtain ⟨sender, -, mem⟩ := enabled
  exact kept.bounded _ mem

private theorem Kept.change [DecidableEq ι] (kept : Kept start cluster) {post : Cluster ι ρ}
    (stores : post.stores = Function.update cluster.stores node next)
    (same : SameNode (cluster node) next) (timely : Timely next.counters)
    (bounded : ∀ entry ∈ post.collected, entry.2.timestamp ≤ u64Max) : Kept start post where
  same := by
    rw [stores]
    exact (forall_update_iff _ fun probe store => SameNode (start.stores probe) store).mpr
      ⟨(kept.same node).trans same, fun probe _ => kept.same probe⟩
  timely := by
    rw [stores]
    exact (forall_update_iff _ fun _ (store : RateLimitStore ρ) => Timely store.counters).mpr
      ⟨timely, fun probe _ => kept.timely probe⟩
  bounded := bounded

theorem timely_of_empty (empty : ∀ node, ∃ replicaId, (stores node).counters = .withReplicaId replicaId)
    (node : ι) : Timely (stores node).counters := by
  obtain ⟨replicaId, same⟩ := empty node
  exact same ▸ timely_withReplicaId replicaId

variable [LinearOrder ρ] [DecidableEq ι]

namespace RateLimitStore
variable {store : RateLimitStore ρ} {key : String} {delta : Int64}

theorem syncRateLimitInc_same (key : String) (delta : Int64) (store : RateLimitStore ρ) :
    SameNode store (store.syncRateLimitInc key delta) := by
  rw [syncRateLimitInc, inc]
  split
  · exact ⟨_, rfl⟩
  · exact ⟨_, rfl⟩

theorem timely_syncRateLimitInc (timely : Timely store.counters) :
    Timely (store.syncRateLimitInc key delta).counters := by
  rw [syncRateLimitInc, inc]
  split
  · exact timely.commitInsert _ _ _
  · exact timely

theorem get_syncRateLimitInc (timely : Timely store.counters) (owner : store.isOwner key = true)
    (unsaturated : store.counters.clock < u64Max) (probe : String) :
    (store.syncRateLimitInc key delta).counters.get probe =
      if probe = shardKey key store.selfName then some ((store.counters.get probe).getD 0 + delta)
      else store.counters.get probe := by
  rw [syncRateLimitInc, inc, if_pos owner, if_pos owner]
  refine (timely.get_commitInsert _ _ _ unsaturated probe).trans ?_
  by_cases same : probe = shardKey key store.selfName
  · subst same
    rw [if_pos rfl, if_pos rfl]
    cases store.counters.get (shardKey key store.selfName) with
    | none => exact congrArg some (Int64.zero_add delta).symm
    | some held => rfl
  · rw [if_neg same, if_neg same]

/-- An update that is newer than what the node holds of the shard. -/
def Newer (update : ShardUpdate) (store : RateLimitStore ρ) : Prop :=
  Outranks store.counters (shardKey update.key update.actor) update.timestamp (store.replicaIdForActor update.actor)

theorem receive_same (update : ShardUpdate) (store : RateLimitStore ρ) : SameNode store (store.receive update) := by
  rw [receive, applyRemoteRateLimitCounterValue, applyCounterSnapshotPayload]
  split
  · exact ⟨_, rfl⟩
  · split
    · exact ⟨_, rfl⟩
    · split <;> exact ⟨_, rfl⟩

theorem receive_cases (timely : Timely store.counters) (bounded : update.timestamp ≤ u64Max) :
    Timely (store.receive update).counters ∧
      ((∀ probe, (store.receive update).counters.get probe = store.counters.get probe) ∨
        Newer update store ∧ update.value ≠ 0 ∧ ∀ probe, (store.receive update).counters.get probe =
            if probe = shardKey update.key update.actor then some update.value
            else store.counters.get probe) := by
  rw [receive]
  split
  · rw [applyRemoteRateLimitCounter, merge_empty]
    exact ⟨timely, .inl fun _ => rfl⟩
  · rename_i nonzero
    rw [applyRemoteRateLimitCounterValue, applyCounterSnapshotPayload]
    split
    · exact ⟨timely, .inl fun _ => rfl⟩
    · split
      · obtain ⟨next, outcome⟩ := timely.merge (fun _ => 0) bounded (append_empty _)
        exact ⟨next, outcome.imp_right fun taken => ⟨taken.1, nonzero, taken.2⟩⟩
      · exact ⟨timely, .inl fun _ => rfl⟩

end RateLimitStore

/-! ### Steps -/

/-- A check and a reset are increments or nothing. -/
theorem Step.run_stores (cluster : Cluster ι ρ) (step : Step ι) :
    (∃ node update, step = .deliver node update ∧ (step.run cluster).made = cluster.made ∧
      (step.run cluster).stores = Function.update cluster.stores node ((cluster node).receive update)) ∨
    (step.increment cluster = none ∧ (step.run cluster).stores = cluster.stores ∧
      (step.run cluster).made = cluster.made) ∨
    ∃ node key delta, step.increment cluster = some (node, key, delta) ∧ (step.run cluster).stores =
        Function.update cluster.stores node ((cluster node).syncRateLimitInc key delta) ∧
      (step.run cluster).made = Function.update cluster.made node
        (Function.update (cluster.made node) key (cluster.made node key + delta)) := by
  cases step with
  | inc node key delta => exact .inr (.inr ⟨node, key, delta, rfl, rfl, rfl⟩)
  | collect node timestamp => exact .inr (.inl ⟨rfl, rfl, rfl⟩)
  | deliver node update => exact .inl ⟨node, update, rfl, rfl, rfl⟩
  | check node limitPerSecond =>
    by_cases disabled : limitPerSecond = 0
    · refine .inr (.inl ⟨if_pos disabled, ?_, ?_⟩)
      · rw [run, checkGlobalRateLimit, if_pos disabled]
        exact update_eq_self ..
      · simp only [run, count, increment, if_pos disabled]
    · refine .inr (.inr ⟨node, _, _, if_neg disabled, ?_, ?_⟩)
      · rw [run, checkGlobalRateLimit, if_neg disabled]
      · simp only [run, count, increment, if_neg disabled]
  | reset node =>
    by_cases pos : 0 < ((cluster node).value globalRateLimitCounterKey).getD 0
    · refine .inr (.inr ⟨node, _, _, if_pos pos, ?_, ?_⟩)
      · rw [run, resetGlobalRateLimitCounter, if_pos pos]
      · simp only [run, count, increment, if_pos pos]
    · refine .inr (.inl ⟨if_neg pos, ?_, ?_⟩)
      · rw [run, resetGlobalRateLimitCounter, if_neg pos]
        exact update_eq_self ..
      · simp only [run, count, increment, if_neg pos]

/-! ### Runs -/

theorem Step.collected_bounded {step : Step ι} (enabled : step.Enabled cluster)
    (bounded : ∀ entry ∈ cluster.collected, entry.2.timestamp ≤ u64Max) :
    ∀ entry ∈ (step.run cluster).collected, entry.2.timestamp ≤ u64Max := by
  cases step with
  | collect node timestamp =>
    refine forall_mem_append.mpr ⟨bounded, forall_mem_map.mpr ?_⟩
    exact forall_mem_map.mpr fun _ _ => enabled
  | inc | check | reset | deliver => exact bounded

theorem Kept.step (kept : Kept start cluster) {step : Step ι} (enabled : step.Enabled cluster) :
    Kept start (step.run cluster) := by
  have collected := Step.collected_bounded enabled kept.bounded
  rcases step.run_stores cluster with ⟨node, update, rfl, -, stores⟩ | ⟨-, stores, -⟩ |
    ⟨node, key, delta, -, stores, -⟩
  · exact kept.change stores (RateLimitStore.receive_same update (cluster node))
      (RateLimitStore.receive_cases (kept.timely node) (kept.delivered enabled)).1 collected
  · exact ⟨fun probe => stores ▸ kept.same probe, fun probe => stores ▸ kept.timely probe, collected⟩
  · exact kept.change stores (RateLimitStore.syncRateLimitInc_same key delta (cluster node))
      (RateLimitStore.timely_syncRateLimitInc (kept.timely node)) collected

theorem Run.kept {allowed : Cluster ι ρ → Step ι → Prop} (run : Run allowed start steps cluster)
    (timely : ∀ node, Timely (start node).counters)
    (bounded : ∀ entry ∈ start.collected, entry.2.timestamp ≤ u64Max) : Kept start cluster := by
  induction run with
  | start => exact ⟨fun _ => ⟨_, rfl⟩, timely, bounded⟩
  | step step _ enabled _ ih => exact ih.step enabled

/-! ### A node's own shard -/

/-- What a node holds of its own shard of a key. -/
def ownShard (cluster : Cluster ι ρ) (node : ι) (key : String) : Int64 :=
  ((cluster.stores node).counters.get (shardKey key (cluster.stores node).selfName)).getD 0

/-- The steps that leave a node's own shards to itself: an update for one of them that is newer
than what the node holds carries the value the node holds, and the clock of an owner that
increments is not saturated. -/
def Undisturbed (cluster : Cluster ι ρ) (step : Step ι) : Prop :=
  (∀ node update, step = .deliver node update → (cluster.stores node).Newer update →
    ∀ key, shardKey update.key update.actor = shardKey key (cluster.stores node).selfName →
      update.value = ownShard cluster node key) ∧
  ∀ node key delta, step.increment cluster = some (node, key, delta) →
    (cluster.stores node).isOwner key = true → (cluster.stores node).counters.clock < u64Max

/-- Every owner holds of its own shards the increments it has made. -/
def Counted (cluster : Cluster ι ρ) : Prop :=
  ∀ node key, (cluster.stores node).isOwner key = true → ownShard cluster node key = cluster.made node key

theorem Counted.step (counted : Counted cluster) (kept : Kept start cluster) {step : Step ι}
    (enabled : step.Enabled cluster) (allowed : Undisturbed cluster step) : Counted (step.run cluster) := by
  intro node key owner
  have pre := counted node key
  rcases step.run_stores cluster with ⟨target, update, rfl, made, stores⟩ | ⟨-, stores, made⟩ |
    ⟨target, changed, delta, increment, stores, made⟩
  · rw [ownShard, made, stores]
    rw [stores] at owner
    by_cases here : node = target
    · subst here
      rw [update_self] at owner ⊢
      have same := RateLimitStore.receive_same update (cluster node)
      rw [same.isOwner] at owner
      rw [same.selfName, ← pre owner, ownShard]
      rcases (RateLimitStore.receive_cases (kept.timely node) (kept.delivered enabled)).2 with
        unchanged | ⟨newer, -, written⟩
      · rw [unchanged]
      · rw [written]
        split
        · rename_i own
          exact allowed.1 node update rfl newer key own.symm
        · rfl
    · rw [update_of_ne here] at owner ⊢
      exact pre owner
  · rw [ownShard, made, stores]
    exact pre (stores ▸ owner)
  · rw [ownShard, made, stores]
    rw [stores] at owner
    by_cases here : node = target
    · subst here
      simp only [update_self] at owner ⊢
      have same := RateLimitStore.syncRateLimitInc_same changed delta (cluster node)
      rw [same.isOwner] at owner
      have held := pre owner
      rw [same.selfName]
      by_cases owned : (cluster node).isOwner changed = true
      · rw [RateLimitStore.get_syncRateLimitInc (kept.timely node) owned
          (allowed.2 node changed delta increment owned)]
        by_cases equal : key = changed
        · subst equal
          rw [if_pos rfl, update_self, ← held]
          rfl
        · rw [if_neg (mt shardKey_inj.mp equal), update_of_ne equal]
          exact held
      · have equal : key ≠ changed := fun equal => owned (equal ▸ owner)
        rw [RateLimitStore.syncRateLimitInc, if_neg owned, update_of_ne equal]
        exact held
    · rw [update_of_ne here] at owner ⊢
      rw [update_of_ne here]
      exact pre owner

theorem Run.counted (empty : ∀ node, ∃ replicaId, (stores node).counters = .withReplicaId replicaId)
    (run : Run Undisturbed (.new stores) steps cluster) : Counted cluster := by
  induction run with
  | start =>
    intro node key _
    obtain ⟨replicaId, same⟩ := empty node
    change ((stores node).counters.get _).getD 0 = 0
    rw [same]
    rfl
  | step step run enabled allowed ih =>
    exact ih.step (run.kept (timely_of_empty empty) (forall_mem_nil _)) enabled allowed

/-- In undisturbed runs of nodes that start without counters, a node holds of its own shard the
sum of the increments it has made. -/
theorem own_shard_counts {stores : ι → RateLimitStore ρ}
    (empty : ∀ node, ∃ replicaId, (stores node).counters = .withReplicaId replicaId)
    {steps : List (Step ι)} {cluster : Cluster ι ρ} (run : Run Undisturbed (.new stores) steps cluster)
    (node : ι) (key : String) (owner : (cluster node).isOwner key = true) :
    ownShard cluster node key = cluster.made node key :=
  run.counted empty node key owner

/-- Two nodes that own every key. -/
def twoNodes (node : Bool) : RateLimitStore Nat where
  counters := .withReplicaId (if node then 1 else 2)
  isOwner _ := true
  selfName := if node then "a" else "b"
  replicaIdForActor actor := if actor = "a" then 3 else 4

/-- The first node's increment reaches the second node and comes back. -/
def returned : Cluster Bool Nat :=
  [.inc true "k" 1, .collect true 1000, .deliver false ⟨⟨"k", "a", 1⟩, 1000⟩, .collect false 2000,
    .deliver true ⟨⟨"k", "a", 1⟩, 2000⟩].foldl Step.run (.new twoNodes)

theorem run_returned : ∃ steps, Run Undisturbed (.new twoNodes) steps returned := by
  have collects : ∀ (cluster : Cluster Bool Nat) node timestamp,
      Undisturbed cluster (.collect node timestamp) := fun _ _ _ =>
    ⟨fun _ _ same => (by cases same), fun _ _ _ none => (by cases none)⟩
  have early : 1000 ≤ u64Max ∧ 2000 ≤ u64Max := by decide
  refine ⟨_, .step (.deliver _ _) (.step (.collect _ _) (.step (.deliver _ _) (.step (.collect _ _)
    (.step (.inc _ _ _) .start trivial ?_) early.1 (collects _ _ _)) ?_ ?_) early.2 (collects _ _ _)) ?_ ?_⟩
  · refine ⟨fun _ _ same => (by cases same), fun node key delta same _ => ?_⟩
    obtain ⟨rfl, -⟩ := Prod.mk.inj (Option.some.inj same)
    decide
  · exact ⟨true, by decide, by decide⟩
  · refine ⟨fun node update same _ key own => ?_, fun _ _ _ none => (by cases none)⟩
    -- the second node's own shards end in its name
    obtain ⟨rfl, rfl⟩ := Step.deliver.inj same
    have named : shardKey "k" "a" = shardKey key "b" := own
    have last := congrArg (fun shard => shard.toList.getLast?) named
    simp [shardKey, shardSeparator] at last
  · exact ⟨false, by decide, by decide⟩
  · refine ⟨fun node update same _ key own => ?_, fun _ _ _ none => (by cases none)⟩
    obtain ⟨rfl, rfl⟩ := Step.deliver.inj same
    obtain rfl : "k" = key := shardKey_inj.mp own
    decide

theorem returned_own_shard : ownShard returned true "k" = returned.made true "k" ∧
    ownShard returned true "k" = 1 := by
  obtain ⟨steps, run⟩ := run_returned
  exact ⟨own_shard_counts (fun node => ⟨_, rfl⟩) run true "k" rfl, by decide⟩

/-- A second increment is made before the echo of the first arrives. -/
def overtaken : Cluster Bool Nat :=
  [.inc true "k" 1, .collect true 1000, .deliver false ⟨⟨"k", "a", 1⟩, 1000⟩, .inc true "k" 1,
    .collect false 2000, .deliver true ⟨⟨"k", "a", 1⟩, 2000⟩].foldl Step.run (.new twoNodes)

theorem overtaken_own_shard : (∃ steps, Run (fun _ _ => True) (.new twoNodes) steps overtaken) ∧
      (overtaken true).isOwner "k" = true ∧
      ownShard overtaken true "k" = 1 ∧ overtaken.made true "k" = 2 := by
  have early : 1000 ≤ u64Max ∧ 2000 ≤ u64Max := by decide
  refine ⟨⟨_, .step (.deliver _ _) (.step (.collect _ _) (.step (.inc _ _ _) (.step (.deliver _ _)
    (.step (.collect _ _) (.step (.inc _ _ _) .start trivial trivial) ?_ trivial) ?_ trivial) trivial
    trivial) ?_ trivial) ?_ trivial⟩, rfl, by decide, by decide⟩
  · exact early.1
  · exact ⟨true, by decide, by decide⟩
  · exact early.2
  · exact ⟨false, by decide, by decide⟩

end ModelGateway.RateLimit
