import ModelGateway.RateLimitRuns

/-! The reset of the global counter at the end of a window. Every owner takes what it sees of the
whole counter off its own shard. -/
namespace ModelGateway.RateLimit
open CrdtMap CrdtWrites List Function KeyedMap RateLimitStore Prod Int64
open Step (deliver run)

variable {ι ρ : Type}

/-! ### Totals -/

/-- The sum of the shards of a counter. -/
def total (entries : KeyedMap String Int64) (key : String) : Int64 :=
  (shardValues entries key).sum

theorem getD_value (store : RateLimitStore ρ) (key : String) :
    (store.value key).getD 0 = total store.counters.store.entries key := by
  rw [RateLimitStore.value, aggregateCounter, total]
  cases shardValues store.counters.store.entries key with
  | nil => rfl
  | cons first rest => rfl

/-- The shards of a counter with their values. -/
def shards (entries : KeyedMap String Int64) (key : String) : List (String × Int64) :=
  entries.toList.filter fun entry => baseKey entry.1 = key

theorem nodup_shards (entries : KeyedMap String Int64) (key : String) : (shards entries key).Nodup := by
  have distinct := entries.keys_nodup
  rw [keys_eq] at distinct
  exact (List.Nodup.of_map _ distinct).filter _

variable {entries : KeyedMap String Int64} {key shard : String} {value : Int64}
  {first : KeyedMap String Int64} {cluster : Cluster ι ρ} {node : ι} {pre post start : Cluster ι ρ}
  {update : ShardUpdate} {steps : List (Step ι)} {limit : Nat}

theorem mem_shards :
    (shard, value) ∈ shards entries key ↔ entries.get? shard = some value ∧ baseKey shard = key := by
  rw [shards, mem_filter, mem_toList_iff, decide_eq_true_eq]

theorem sum_perm {first second : List (String × Int64)} (perm : first.Perm second) :
    (first.map snd).sum = (second.map snd).sum :=
  (perm.map snd).foldr_eq 0

theorem total_congr {second : KeyedMap String Int64}
    (same : ∀ shard, baseKey shard = key → first.get? shard = second.get? shard) :
    total first key = total second key := by
  refine sum_perm ((perm_ext_iff_of_nodup (nodup_shards first key) (nodup_shards second key)).mpr ?_)
  rintro ⟨shard, value⟩
  rw [mem_shards, mem_shards]
  refine and_congr_left fun base => ?_
  rw [same shard base]

theorem total_insert (entries : KeyedMap String Int64) (base : baseKey shard = key) (delta : Int64) :
    total (entries.insert shard ((entries.get? shard).getD 0 + delta)) key = total entries key + delta := by
  have front (value : Int64) (rest : List (String × Int64)) :
      ((shard, value) :: rest).filter (fun entry => decide (baseKey entry.1 = key)) =
        (shard, value) :: rest.filter fun entry => decide (baseKey entry.1 = key) :=
    filter_cons_of_pos (decide_eq_true base)
  have pre : total entries key =
      (entries.get? shard).getD 0 + ((shards (entries.erase shard) key).map snd).sum := by
    cases held : entries.get? shard with
    | none =>
      rw [erase_of_get?_none held, Option.getD_none, Int64.zero_add]
      rfl
    | some value =>
      refine (sum_perm ((toList_perm held).filter _)).trans ?_
      rw [front]
      rfl
  rw [total, shardValues, toList_insert, front]
  rw [pre, map_cons, sum_cons, Int64.add_assoc, Int64.add_comm delta, ← Int64.add_assoc]
  rfl

/-! ### What the owners hold -/

variable (cluster)

/-- A node's own shard of the global counter. -/
def own (node : ι) : String :=
  shardKey globalRateLimitCounterKey (cluster.stores node).selfName

/-- The global counter as a node computes it. -/
def seen (node : ι) : Int64 :=
  ((cluster.stores node).value globalRateLimitCounterKey).getD 0

/-- A node holds every node's own shard as that node does. -/
def Informed (node : ι) : Prop :=
  ∀ other, (cluster.stores node).counters.get (own cluster other) =
    (cluster.stores other).counters.get (own cluster other)

/-- A value of a shard is the one its node holds; of a shard no node owns, the one held here. -/
def Reflects (node : ι) (shard : String) (value : Int64) : Prop :=
  (∀ other, shard = own cluster other → (cluster.stores other).counters.get shard = some value) ∧
    ((∀ other, shard ≠ own cluster other) → (cluster.stores node).counters.get shard = some value)

/-- The nodes own the global counter, and their names can be told from their shards. -/
structure Owners : Prop where
  owner : ∀ node, (cluster.stores node).isOwner globalRateLimitCounterKey = true
  named : ∀ node, baseKey (own cluster node) = globalRateLimitCounterKey
  distinct : ∀ node other, (cluster.stores node).selfName = (cluster.stores other).selfName → node = other

/-- The owners hold the same shards of the global counter. -/
structure Converged : Prop extends Owners cluster where
  agree : ∀ node other shard, baseKey shard = globalRateLimitCounterKey →
    (cluster.stores node).counters.get shard = (cluster.stores other).counters.get shard

/-! ### The ledger -/

/-- The shards of the global counter as their own nodes hold them. -/
structure Ledger (entries : KeyedMap String Int64) : Prop where
  owned : ∀ node, (cluster.stores node).counters.get (own cluster node) = entries.get? (own cluster node)
  foreign : ∀ shard, baseKey shard = globalRateLimitCounterKey → (∀ node, shard ≠ own cluster node) →
    ∀ node, (cluster.stores node).counters.get shard = entries.get? shard

/-- A node holds the shards of the global counter as they are listed. -/
def Sees (node : ι) (entries : KeyedMap String Int64) : Prop :=
  ∀ shard, baseKey shard = globalRateLimitCounterKey → (cluster.stores node).counters.get shard = entries.get? shard

variable {cluster}

theorem Sees.total (sees : Sees cluster node entries) :
    seen cluster node = total entries globalRateLimitCounterKey := by
  rw [seen, getD_value]
  exact total_congr sees

theorem Ledger.sees (ledger : Ledger cluster entries) (informed : Informed cluster node) :
    Sees cluster node entries := by
  intro shard base
  by_cases owned : ∃ other, shard = own cluster other
  · obtain ⟨other, rfl⟩ := owned
    rw [informed other, ledger.owned]
  · exact ledger.foreign shard base (fun other same => owned ⟨other, same⟩) node

theorem Ledger.reflected (ledger : Ledger cluster entries)
    (base : baseKey shard = globalRateLimitCounterKey) (reflects : Reflects cluster node shard value) :
    entries.get? shard = some value := by
  by_cases owned : ∃ other, shard = own cluster other
  · obtain ⟨other, rfl⟩ := owned
    rw [← ledger.owned, reflects.1 other rfl]
  · have foreign : ∀ other, shard ≠ own cluster other := fun other same => owned ⟨other, same⟩
    rw [← ledger.foreign shard base foreign node, reflects.2 foreign]

theorem own_inj (owners : Owners cluster) {other : ι} (same : own cluster node = own cluster other) :
    node = other := by
  refine owners.distinct node other ?_
  rwa [own, own, shardKey, shardKey, String.append_right_inj] at same

/-- The nodes hold the same shards of the global counter as before. -/
def Alike (pre post : Cluster ι ρ) : Prop :=
  own post = own pre ∧ ∀ probe name, baseKey name = globalRateLimitCounterKey →
    (post.stores probe).counters.get name = (pre.stores probe).counters.get name

theorem alike_of_stores (same : post.stores = pre.stores) : Alike pre post := by
  refine ⟨funext fun probe => ?_, fun probe name _ => ?_⟩
  · rw [own, own, same]
  · rw [same]

theorem Sees.alike (alike : Alike pre post) (sees : Sees pre node entries) : Sees post node entries :=
  fun name base => (alike.2 node name base).trans (sees name base)

theorem Ledger.alike (alike : Alike pre post) (owners : Owners pre) (ledger : Ledger pre entries) :
    Ledger post entries := by
  refine ⟨fun probe => ?_, fun name base foreign probe => ?_⟩
  · rw [alike.1, alike.2 _ _ (owners.named probe)]
    exact ledger.owned probe
  · rw [alike.1] at foreign
    rw [alike.2 _ _ base]
    exact ledger.foreign name base foreign probe

/-- One node's copy of one shard of the global counter is rewritten. -/
def Rewrites [DecidableEq ι] (pre post : Cluster ι ρ) (node : ι) (shard : String) (value : Int64) : Prop :=
  own post = own pre ∧ ∀ probe name, baseKey name = globalRateLimitCounterKey →
    (post.stores probe).counters.get name = if probe = node ∧ name = shard then some value
      else (pre.stores probe).counters.get name

section Rewriting
variable [DecidableEq ι] {pre post : Cluster ι ρ} {node : ι} {shard : String} {value : Int64}
  {entries : KeyedMap String Int64}

variable (rewrites : Rewrites pre post node shard value)
include rewrites

theorem Sees.elsewhere {probe : ι} (other : probe ≠ node) (sees : Sees pre probe entries) :
    Sees post probe entries := by
  intro name base
  rw [rewrites.2 probe name base, if_neg fun both => other both.1]
  exact sees name base

theorem Sees.rewrite (sees : Sees pre node entries) : Sees post node (entries.insert shard value) := by
  intro name base
  rw [rewrites.2 node name base, get?_insert, sees name base]
  simp

theorem Sees.confirm (listed : entries.get? shard = some value) (sees : Sees pre node entries) :
    Sees post node entries := by
  intro name base
  rw [sees.rewrite rewrites name base, get?_insert]
  split
  · rename_i same
    rw [same, listed]
  · rfl

omit rewrites

theorem Ledger.relay (ledger : Ledger pre entries) (owners : Owners pre)
    (rewrites : Rewrites pre post node shard value) (reflects : Reflects pre node shard value) :
    Ledger post entries := by
  refine ⟨fun probe => ?_, fun name base foreign probe => ?_⟩
  · rw [rewrites.1, rewrites.2 probe _ (owners.named probe)]
    split
    · rename_i both
      rw [← ledger.owned probe, both.2]
      exact (reflects.1 probe both.2.symm).symm
    · exact ledger.owned probe
  · rw [rewrites.1] at foreign
    rw [rewrites.2 probe name base]
    split
    · rename_i both
      obtain ⟨rfl, rfl⟩ := both
      exact (ledger.reflected base reflects).symm
    · exact ledger.foreign name base foreign probe

theorem Ledger.change (ledger : Ledger pre entries) (owners : Owners pre)
    (rewrites : Rewrites pre post node (own pre node) value) :
    Ledger post (entries.insert (own pre node) value) := by
  refine ⟨fun probe => ?_, fun name base foreign probe => ?_⟩
  · rw [rewrites.1, rewrites.2 probe _ (owners.named probe), get?_insert]
    by_cases here : probe = node
    · subst here
      rw [if_pos ⟨rfl, rfl⟩, if_pos rfl]
    · rw [if_neg fun both => here both.1, if_neg fun same => here (own_inj owners same)]
      exact ledger.owned probe
  · rw [rewrites.1] at foreign
    rw [rewrites.2 probe name base, get?_insert, if_neg fun both => foreign node both.2, if_neg (foreign node)]
    exact ledger.foreign name base foreign probe

end Rewriting

theorem Kept.own (kept : Kept start cluster) : own cluster = own start := by
  funext node
  rw [RateLimit.own, RateLimit.own, (kept.same node).selfName]

theorem Kept.owners (kept : Kept start cluster) (owners : Owners start) : Owners cluster := by
  refine ⟨fun node => ?_, fun node => ?_, fun node other same => ?_⟩
  · rw [(kept.same node).isOwner]
    exact owners.owner node
  · rw [kept.own]
    exact owners.named node
  · rw [(kept.same node).selfName, (kept.same other).selfName] at same
    exact owners.distinct node other same

theorem rewrites_update [DecidableEq ι] {next : RateLimitStore ρ}
    (stores : post.stores = Function.update pre.stores node next)
    (same : SameNode (pre node) next) (gets : ∀ name, next.counters.get name =
      if name = shard then some value else (pre node).counters.get name) :
    Rewrites pre post node shard value := by
  refine ⟨funext fun probe => ?_, fun probe name _ => ?_⟩
  · rw [own, own, stores]
    by_cases here : probe = node
    · subst here
      rw [update_self, same.selfName]
    · rw [update_of_ne here]
  · rw [stores]
    by_cases here : probe = node
    · subst here
      rw [update_self, gets]
      simp
    · rw [update_of_ne here, if_neg fun both => here both.1]

/-- What the owners hold while they reset: the ledger is as it was at first or sums up to 0, with
one shard changed, and every owner sees it as it was or as it is. -/
structure Resets (first : KeyedMap String Int64) (cluster : Cluster ι ρ) (entries : KeyedMap String Int64) :
    Prop where
  ledger : Ledger cluster entries
  changed : entries = first ∨ total entries globalRateLimitCounterKey = 0 ∧
    ∃ node value, entries = first.insert (own cluster node) value
  sees : ∀ node, Sees cluster node first ∨ Sees cluster node entries

theorem Resets.alike (resets : Resets first pre entries) (owners : Owners pre)
    (alike : Alike pre post) : Resets first post entries := by
  refine ⟨resets.ledger.alike alike owners, ?_, fun probe => ?_⟩
  · rw [alike.1]
    exact resets.changed
  · exact (resets.sees probe).imp (Sees.alike alike) (Sees.alike alike)

variable [LinearOrder ρ]

/-- A delivery of a newer value of a global shard is one of the value its node holds. -/
def Relays (cluster : Cluster ι ρ) (node : ι) (update : ShardUpdate) : Prop :=
  baseKey (shardKey update.key update.actor) = globalRateLimitCounterKey → (cluster.stores node).Newer update →
      Reflects cluster node (shardKey update.key update.actor) update.value

/-- The steps of a reset: an owner resets when it holds every owner's shard as that owner does. -/
def Resetting (cluster : Cluster ι ρ) : Step ι → Prop
  | .reset node => Informed cluster node ∧ (cluster.stores node).counters.clock < u64Max
  | .collect _ _ => True
  | .deliver node update => Relays cluster node update
  | _ => False

/-- The steps of a window: requests are checked where every owner's shard is held as it is. -/
def Admitting (limit : Nat) (cluster : Cluster ι ρ) : Step ι → Prop
  | .check node limitPerSecond => limitPerSecond = limit ∧ Informed cluster node ∧
      (cluster.stores node).counters.clock < u64Max
  | .collect _ _ => True
  | .deliver node update => Relays cluster node update
  | _ => False

/-! ### Steps -/

variable [DecidableEq ι]

/-- A delivery leaves the global shards alone, or takes one over as it is. -/
theorem deliver_rewrites (kept : Kept start cluster) (enabled : (deliver node update).Enabled cluster)
    (relays : Relays cluster node update) : Alike cluster ((deliver node update).run cluster) ∨
    ∃ shard value, baseKey shard = globalRateLimitCounterKey ∧ Reflects cluster node shard value ∧
      Rewrites cluster ((deliver node update).run cluster) node shard value := by
  have same := receive_same update (cluster node)
  have owns : own ((deliver node update).run cluster) = own cluster := by
    rw [(kept.step enabled).own, kept.own]
  have untouched (unchanged : ∀ name, baseKey name = globalRateLimitCounterKey →
      ((cluster node).receive update).counters.get name = (cluster node).counters.get name) :
      Alike cluster ((deliver node update).run cluster) := by
    refine ⟨owns, fun probe name global => ?_⟩
    by_cases here : probe = node
    · subst here
      simp only [run, update_self]
      exact unchanged name global
    · simp only [run, update_of_ne here]
  rcases (receive_cases (kept.timely node) (kept.delivered enabled)).2 with
    unchanged | ⟨newer, -, written⟩
  · exact .inl (untouched fun name _ => unchanged name)
  · by_cases base : baseKey (shardKey update.key update.actor) = globalRateLimitCounterKey
    · exact .inr ⟨_, _, base, relays base newer, rewrites_update rfl same written⟩
    · refine .inl (untouched fun name global => ?_)
      rw [written, if_neg]
      rintro rfl
      exact base global

theorem increment_rewrites (kept : Kept start cluster) (owners : Owners cluster) {step : Step ι}
    {delta : Int64} (increment : step.increment cluster = some (node, globalRateLimitCounterKey, delta))
    (unsaturated : (cluster node).counters.clock < u64Max) :
    Rewrites cluster (step.run cluster) node (own cluster node)
      (((cluster node).counters.get (own cluster node)).getD 0 + delta) := by
  rcases step.run_stores cluster with ⟨_, _, rfl, -, -⟩ | ⟨none, -, -⟩ | ⟨_, _, _, same, stores, -⟩
  · cases increment
  · rw [none] at increment
    cases increment
  · rw [same] at increment
    cases increment
    refine rewrites_update stores (syncRateLimitInc_same _ _ _) fun name => ?_
    rw [get_syncRateLimitInc (kept.timely node) (owners.owner node) unsaturated]
    by_cases here : name = own cluster node
    · subst here
      rw [if_pos rfl]
      exact if_pos rfl
    · rw [if_neg here]
      exact if_neg here

/-! ### Resets -/

theorem Resets.deliver (resets : Resets first cluster entries) (kept : Kept start cluster)
    (owners : Owners cluster) (enabled : (deliver node update).Enabled cluster)
    (relays : Relays cluster node update) :
    Resets first ((deliver node update).run cluster) entries := by
  rcases deliver_rewrites kept enabled relays with alike | ⟨shard, value, base, reflects, rewrites⟩
  · exact resets.alike owners alike
  · have listed := resets.ledger.reflected base reflects
    refine ⟨resets.ledger.relay owners rewrites reflects, ?_, fun probe => ?_⟩
    · rw [rewrites.1]
      exact resets.changed
    · by_cases here : probe = node
      · subst here
        rcases resets.sees probe with pre | sees
        · rcases resets.changed with rfl | ⟨-, changer, changed, rfl⟩
          · exact .inl (pre.confirm rewrites listed)
          · -- the one shard that changed is taken over, or one that did not change
            by_cases news : shard = own cluster changer
            · subst news
              rw [get?_insert, if_pos rfl] at listed
              obtain rfl := Option.some.inj listed
              exact .inr (pre.rewrite rewrites)
            · rw [get?_insert, if_neg news] at listed
              exact .inl (pre.confirm rewrites listed)
        · exact .inr (sees.confirm rewrites listed)
      · exact (resets.sees probe).imp (Sees.elsewhere rewrites here) (Sees.elsewhere rewrites here)

theorem Resets.reset (resets : Resets first cluster entries) (kept : Kept start cluster)
    (owners : Owners cluster) (nonneg : 0 ≤ total first globalRateLimitCounterKey)
    (informed : Informed cluster node) (unsaturated : (cluster node).counters.clock < u64Max) :
    ∃ entries', Resets first ((Step.reset node).run cluster) entries' ∧
      total entries' globalRateLimitCounterKey = 0 := by
  have sees := resets.ledger.sees informed
  by_cases pos : 0 < seen cluster node
  · have increment : (Step.reset node).increment cluster =
        some (node, globalRateLimitCounterKey, -seen cluster node) := if_pos pos
    have rewrites := increment_rewrites kept owners increment unsaturated
    -- this is the first reset, for one before it would have left nothing to take off
    have unchanged : entries = first := by
      refine resets.changed.resolve_right fun ⟨zero, _⟩ => ?_
      rw [sees.total, zero] at pos
      exact absurd pos (by decide)
    subst unchanged
    have cleared : total (entries.insert (own cluster node)
        (((cluster node).counters.get (own cluster node)).getD 0 + -seen cluster node))
        globalRateLimitCounterKey = 0 := by
      rw [sees _ (owners.named node), total_insert entries (owners.named node), sees.total]
      exact Int64.add_right_neg _
    refine ⟨_, ⟨resets.ledger.change owners rewrites, .inr ⟨cleared, node, _, by rw [rewrites.1]⟩,
      fun probe => ?_⟩, cleared⟩
    by_cases here : probe = node
    · subst here
      exact .inr (sees.rewrite rewrites)
    · exact .inl ((resets.sees probe).elim (Sees.elsewhere rewrites here) (Sees.elsewhere rewrites here))
  · have zero : total entries globalRateLimitCounterKey = 0 := by
      rcases resets.changed with rfl | ⟨zero, -⟩
      · rw [sees.total] at pos
        exact Int64.le_antisymm (Int64.not_lt.mp pos) nonneg
      · exact zero
    have same : ((Step.reset node).run cluster).stores = cluster.stores := by
      simp only [run, resetGlobalRateLimitCounter]
      refine (congrArg _ (if_neg pos)).trans ?_
      exact update_eq_self ..
    exact ⟨entries, resets.alike owners (alike_of_stores same), zero⟩

/-- Over a run of resets, once an owner has reset the ledger sums up to 0. -/
theorem Run.resets (timely : ∀ node, Timely (start node).counters)
    (bounded : ∀ entry ∈ start.collected, entry.2.timestamp ≤ u64Max) (owners : Owners start)
    (initial : Resets first start first) (nonneg : 0 ≤ total first globalRateLimitCounterKey)
    (run : Run Resetting start steps cluster) : ∃ entries, Resets first cluster entries ∧
      ∀ node, .reset node ∈ steps → total entries globalRateLimitCounterKey = 0 := by
  induction run with
  | start => exact ⟨first, initial, fun _ mem => absurd mem not_mem_nil⟩
  | @step steps cluster step run enabled allowed ih =>
    have kept := run.kept timely bounded
    obtain ⟨entries, resets, zero⟩ := ih
    -- a step that is no reset keeps the ledger
    have later : (∀ node, step ≠ .reset node) → Resets first (step.run cluster) entries →
        ∃ entries, Resets first (step.run cluster) entries ∧
          ∀ node, .reset node ∈ steps ++ [step] → total entries globalRateLimitCounterKey = 0 := by
      intro other next
      refine ⟨entries, next, fun node mem => ?_⟩
      rcases mem_append.mp mem with pre | last
      · exact zero node pre
      · exact absurd (mem_singleton.mp last).symm (other node)
    cases step with
    | inc | check => exact allowed.elim
    | collect node timestamp =>
      exact later (fun _ same => by cases same) (resets.alike (kept.owners owners) (alike_of_stores rfl))
    | deliver node update =>
      exact later (fun _ same => by cases same) (resets.deliver kept (kept.owners owners) enabled allowed)
    | reset node =>
      obtain ⟨entries', next, cleared⟩ := resets.reset kept (kept.owners owners) nonneg allowed.1 allowed.2
      exact ⟨entries', next, fun _ _ => cleared⟩

/-! ### The next window -/

/-- The number of checks in a run. -/
def checks (steps : List (Step ι)) : Nat :=
  steps.countP fun step => match step with
    | .check _ _ => true
    | _ => false

theorem check_admits (pos : 0 < limit) (cluster : Cluster ι ρ) (node : ι) :
    ((Step.check node limit).run cluster).admitted = cluster.admitted +
      if ofNat limit < seen ((Step.check node limit).run cluster) node then 0 else 1 := by
  have enabled : limit ≠ 0 := Nat.ne_of_gt pos
  simp only [run, seen, update_self, checkGlobalRateLimit, if_neg enabled, decide_eq_true_eq]

theorem le_of_not_exceeded {count : Nat} (fits : limit < 2 ^ 64) (few : count < 2 ^ 63)
    (admitted : ¬ ofNat limit < ofNat count) : count ≤ limit := by
  rw [lt_iff_toInt_lt, toInt_ofNat_of_lt few] at admitted
  by_contra above
  rw [toInt_ofNat_of_lt (by omega)] at admitted
  omega

theorem Ledger.check (pos : 0 < limit) (ledger : Ledger cluster entries) (kept : Kept start cluster)
    (owners : Owners cluster) (informed : Informed cluster node)
    (unsaturated : (cluster node).counters.clock < u64Max) :
    ∃ entries', Ledger ((Step.check node limit).run cluster) entries' ∧
      total entries' globalRateLimitCounterKey = total entries globalRateLimitCounterKey + 1 ∧
      Sees ((Step.check node limit).run cluster) node entries' := by
  have increment : (Step.check node limit).increment cluster = some (node, globalRateLimitCounterKey, 1) :=
    if_neg (Nat.ne_of_gt pos)
  have rewrites := increment_rewrites kept owners increment unsaturated
  have sees := ledger.sees informed
  refine ⟨_, ledger.change owners rewrites, ?_, sees.rewrite rewrites⟩
  rw [sees _ (owners.named node), total_insert entries (owners.named node)]

/-- Over a run of checks, the ledger counts them and at most the limit is admitted. -/
theorem Run.admits (pos : 0 < limit) (fits : limit < 2 ^ 64) (timely : ∀ node, Timely (start node).counters)
    (bounded : ∀ entry ∈ start.collected, entry.2.timestamp ≤ u64Max) (owners : Owners start)
    (initial : Ledger start first) (zero : total first globalRateLimitCounterKey = 0)
    (run : Run (Admitting limit) start steps cluster) (few : checks steps < 2 ^ 63) :
    ∃ entries, Ledger cluster entries ∧ total entries globalRateLimitCounterKey = ofNat (checks steps) ∧
      cluster.admitted ≤ start.admitted + min (checks steps) limit := by
  induction run with
  | start => exact ⟨first, initial, zero, Nat.le_add_right _ _⟩
  | @step steps cluster step run enabled allowed ih =>
    have kept := run.kept timely bounded
    have grown : checks (steps ++ [step]) = checks steps + checks [step] := countP_append
    obtain ⟨entries, ledger, counted, admitted⟩ := ih (by omega)
    cases step with
    | inc | reset => exact allowed.elim
    | collect node timestamp =>
      have alike : Alike cluster ((Step.collect node timestamp).run cluster) := alike_of_stores rfl
      exact ⟨entries, ledger.alike alike (kept.owners owners), grown ▸ counted, grown ▸ admitted⟩
    | deliver node update =>
      refine ⟨entries, ?_, grown ▸ counted, grown ▸ admitted⟩
      rcases deliver_rewrites kept enabled allowed with alike | ⟨shard, value, -, reflects, rewrites⟩
      · exact ledger.alike alike (kept.owners owners)
      · exact ledger.relay (kept.owners owners) rewrites reflects
    | check node limitPerSecond =>
      obtain ⟨rfl, informed, unsaturated⟩ := allowed
      obtain ⟨entries', next, added, sees⟩ := ledger.check pos kept (kept.owners owners) informed unsaturated
      have one : checks [(Step.check node limitPerSecond : Step ι)] = 1 := rfl
      have sum : total entries' globalRateLimitCounterKey = ofNat (checks steps + 1) := by
        rw [added, counted]
        exact (ofNat_add _ _).symm
      rw [grown, one] at few ⊢
      refine ⟨entries', next, sum, ?_⟩
      rw [check_admits pos, sees.total, sum]
      split
      · omega
      · rename_i passes
        have := le_of_not_exceeded fits few passes
        omega

/-! ### Reset and next window -/

/-- From converged shards with a sum that is not negative, through resets by informed owners and
deliveries of the shards as they are: no owner sees a negative sum; and once all owners have reset
and hold each other's shards, each sees 0 and the next window admits at most its limit. -/
theorem resets_clear_window {stores : ι → RateLimitStore ρ}
    (empty : ∀ node, ∃ replicaId, (stores node).counters = .withReplicaId replicaId)
    {past : List (Step ι)} {start : Cluster ι ρ} (history : Run (fun _ _ => True) (.new stores) past start)
    (converged : Converged start) (nonneg : ∀ node, 0 ≤ seen start node)
    {steps : List (Step ι)} {cluster : Cluster ι ρ} (run : Run Resetting start steps cluster) :
    (∀ node, 0 ≤ seen cluster node) ∧ ((∀ node, .reset node ∈ steps) → (∀ node, Informed cluster node) →
        (∀ node, seen cluster node = 0) ∧ ∀ limit, 0 < limit → limit < 2 ^ 64 → ∀ window last,
            Run (Admitting limit) cluster window last → checks window < 2 ^ 63 →
              last.admitted ≤ cluster.admitted + limit) := by
  have origin := history.kept (timely_of_empty empty) (forall_mem_nil _)
  obtain ⟨first, sees, pos, alone⟩ : ∃ first : KeyedMap String Int64,
      (∀ node, Sees start node first) ∧ 0 ≤ total first globalRateLimitCounterKey ∧
        (IsEmpty ι → total first globalRateLimitCounterKey = 0) := by
    rcases isEmpty_or_nonempty ι with none | ⟨⟨node⟩⟩
    · exact ⟨∅, fun node => none.elim node, by decide, fun _ => rfl⟩
    · have sees : Sees start node (start node).counters.store.entries := fun _ _ => rfl
      exact ⟨_, fun other shard base => converged.agree other node shard base, sees.total ▸ nonneg node,
        fun none => none.elim node⟩
  have initial : Resets first start first :=
    ⟨⟨fun node => sees node _ (converged.named node), fun shard base _ node => sees node shard base⟩,
      .inl rfl, fun node => .inl (sees node)⟩
  obtain ⟨entries, resets, zero⟩ := run.resets origin.timely origin.bounded converged.toOwners initial pos
  have kept := run.kept origin.timely origin.bounded
  refine ⟨fun node => ?_, fun all informed => ?_⟩
  · rcases resets.sees node with pre | now
    · exact pre.total ▸ pos
    · rw [now.total]
      rcases resets.changed with rfl | ⟨cleared, -⟩
      · exact pos
      · exact cleared ▸ Int64.le_refl 0
  · have cleared : total entries globalRateLimitCounterKey = 0 := by
      rcases isEmpty_or_nonempty ι with none | ⟨⟨node⟩⟩
      · rcases resets.changed with rfl | ⟨cleared, -⟩
        · exact alone none
        · exact cleared
      · exact zero node (all node)
    refine ⟨fun node => ?_, fun limit some fits window last next few => ?_⟩
    · rw [(resets.ledger.sees (informed node)).total, cleared]
    · obtain ⟨_, -, -, admitted⟩ := next.admits some fits kept.timely kept.bounded
        (kept.owners converged.toOwners) resets.ledger cleared few
      omega

/-- Two owners have counted a request each and exchanged their shards. -/
def exchanged : Cluster Bool Nat :=
  [.inc true "global" 1, .inc false "global" 1, .collect true 1000, .collect false 1000,
    .deliver false ⟨⟨"global", "a", 1⟩, 1000⟩, .deliver true ⟨⟨"global", "b", 1⟩, 1000⟩].foldl
    Step.run (.new twoNodes)

theorem run_exchanged : ∃ past, Run (fun _ _ => True) (.new twoNodes) past exchanged := by
  have early : 1000 ≤ u64Max := by decide
  refine ⟨_, .step (.deliver _ _) (.step (.deliver _ _) (.step (.collect _ _) (.step (.collect _ _)
    (.step (.inc _ _ _) (.step (.inc _ _ _) .start trivial trivial) trivial trivial) early trivial) early
    trivial) ?_ trivial) ?_ trivial⟩
  · exact ⟨true, by decide, by decide⟩
  · exact ⟨false, by decide, by decide⟩

theorem converged_exchanged : Converged exchanged := by
  have agree (shard : String) : (exchanged true).counters.get shard = (exchanged false).counters.get shard := by
    show ((insert ∅ "global::actor:a" 1).insert "global::actor:b" 1).get? shard =
      ((insert ∅ "global::actor:b" 1).insert "global::actor:a" 1).get? shard
    by_cases second : shard = "global::actor:b" <;> simp [get?_insert, second]
  refine ⟨⟨fun node => ?_, fun node => ?_, fun node other => ?_⟩, fun node other shard _ => ?_⟩
  · cases node <;> rfl
  · cases node <;> decide
  · cases node <;> cases other <;> decide
  · cases node <;> cases other <;> simp only [agree]

/-- One owner resets, the other takes its shard over and resets in turn. -/
def resetInTurn : List (Step Bool) :=
  [.reset true, .collect true 2000, .deliver false ⟨⟨"global", "a", -1⟩, 2000⟩, .reset false]

theorem run_resetInTurn : Run Resetting exchanged resetInTurn (resetInTurn.foldl run exchanged) := by
  have early : 2000 ≤ u64Max := by decide
  refine .step (.reset _) (.step (.deliver _ _) (.step (.collect _ _) (.step (.reset _) .start trivial ?_)
    early trivial) ?_ ?_) trivial ?_
  · exact ⟨fun other => by cases other <;> decide, by decide⟩
  · exact ⟨true, by decide, by decide⟩
  · intro _ _
    refine ⟨fun other same => ?_, fun foreign => absurd (by decide) (foreign true)⟩
    cases other with
    | true => decide
    | false => exact absurd same (by decide)
  · exact ⟨fun other => by cases other <;> decide, by decide⟩

theorem reset_in_turn_clears :
    (∀ node, seen exchanged node = 2) ∧ ∀ node, seen (resetInTurn.foldl run exchanged) node = 0 := by
  obtain ⟨past, history⟩ := run_exchanged
  have two : ∀ node, seen exchanged node = 2 := fun node => by cases node <;> decide
  have clears := resets_clear_window (fun node => ⟨_, rfl⟩) history converged_exchanged
    (fun node => by rw [two]; decide) run_resetInTurn
  refine ⟨two, (clears.2 (fun node => ?_) fun node other => ?_).1⟩
  · cases node <;> simp [resetInTurn]
  · cases node <;> cases other <;> decide

/-- Both owners reset before they see each other's reset, exchange their shards, and one checks
four requests against a limit of 1. -/
def resetAtOnce : List (Step Bool) :=
  [.reset true, .reset false, .collect true 2000, .collect false 2000,
    .deliver false ⟨⟨"global", "a", -1⟩, 2000⟩, .deliver true ⟨⟨"global", "b", -1⟩, 2000⟩]

theorem reset_at_once_overshoots :
    (∃ past, Run (fun _ _ => True) (.new twoNodes) past exchanged) ∧ Converged exchanged ∧
      (∀ node, seen exchanged node = 2) ∧
      Run (fun _ _ => True) exchanged resetAtOnce (resetAtOnce.foldl run exchanged) ∧
      (∀ node, .reset node ∈ resetAtOnce) ∧ (∀ node, Informed (resetAtOnce.foldl run exchanged) node) ∧
      (∀ node, seen (resetAtOnce.foldl run exchanged) node = -2) ∧
      ([.check true 1, .check true 1, .check true 1, .check true 1].foldl run
        (resetAtOnce.foldl run exchanged)).admitted = 3 := by
  have early : 2000 ≤ u64Max := by decide
  refine ⟨run_exchanged, converged_exchanged, fun node => by cases node <;> decide, ?_, fun node => ?_,
    fun node other => ?_, fun node => by cases node <;> decide, by decide⟩
  · refine .step (.deliver _ _) (.step (.deliver _ _) (.step (.collect _ _) (.step (.collect _ _)
      (.step (.reset _) (.step (.reset _) .start trivial trivial) trivial trivial) early trivial) early
      trivial) ?_ trivial) ?_ trivial
    · exact ⟨true, by decide, by decide⟩
    · exact ⟨false, by decide, by decide⟩
  · cases node <;> simp [resetAtOnce]
  · cases node <;> cases other <;> decide

end ModelGateway.RateLimit
