import ModelGateway.CrdtReplicas

/-! Rate-limit shards in the replicated map (`crdt_kv/epoch_max_wins.rs`, `CrdtNamespace` of `kv.rs` and
`rate_limit_sync.rs`). A namespace is configured with a merge strategy, but its `put` is a plain insert,
so the map keeps the value of the latest put whatever the strategy is. -/
namespace ModelGateway.EpochMaxWins
open CrdtOperation CrdtMap CrdtLogProofs CrdtMapProofs CrdtView CrdtReplicas LastWriter List Option Function Nat
open OperationLog

abbrev Bytes := List UInt8
abbrev Key := List Char

/-! ### Values -/

/-- `EpochCount`: a `u64` and an `i64`. -/
structure EpochCount where
  epoch : Nat
  count : Int
  deriving DecidableEq, Repr

namespace EpochCount

def rank (value : EpochCount) : ℕ ×ₗ ℤ := toLex (value.epoch, value.count)

theorem rank_injective : Injective rank := by
  rintro ⟨epoch, count⟩ ⟨epoch', count'⟩ same
  simpa [rank] using same

/-- Epochs come first, then counts. -/
instance : LinearOrder EpochCount := LinearOrder.lift' rank rank_injective

theorem le_iff {first second : EpochCount} :
    first ≤ second ↔ first.epoch < second.epoch ∨ first.epoch = second.epoch ∧ first.count ≤ second.count :=
  Prod.Lex.le_iff

end EpochCount

def toBeBytes : Nat → Nat → Bytes
  | 0, _ => []
  | width + 1, number => toBeBytes width (number / 256) ++ [UInt8.ofNat number]

def fromBeBytes (bytes : Bytes) : Nat := bytes.foldl (fun number byte => number * 256 + byte.toNat) 0

/-- The `i64` with these bits. -/
def toSigned (bits : Nat) : Int := if bits < 2 ^ 63 then bits else bits - 2 ^ 64

def encodedLen : Nat := 16

def encode (epoch : Nat) (count : Int) : Bytes := toBeBytes 8 epoch ++ toBeBytes 8 (count % 2 ^ 64).toNat

def decode (bytes : Bytes) : Option EpochCount :=
  if bytes.length ≠ encodedLen then none
  else some ⟨fromBeBytes (bytes.take 8), toSigned (fromBeBytes (bytes.drop 8))⟩

def merge (held remote : Bytes) : Bytes :=
  match decode held, decode remote with
  | some l, some r =>
    let winner := if r.epoch < l.epoch then l else if l.epoch < r.epoch then r
      else ⟨l.epoch, max l.count r.count⟩
    encode winner.epoch winner.count
  | some _, none => held
  | none, some _ => remote
  | none, none => held

/-- The merge of values in an order. -/
def mergeAll : List Bytes → Option Bytes
  | [] => none
  | first :: rest => some (rest.foldl merge first)

/-- The value is a merge of all these values. -/
def IsMerge (values : List Bytes) (value : Bytes) : Prop :=
  ∃ order, order.Perm values ∧ mergeAll order = some value

@[simp] theorem length_toBeBytes (width number : Nat) : (toBeBytes width number).length = width := by
  induction width generalizing number with
  | zero => rfl
  | succ width ih => simp [toBeBytes, ih]

theorem fromBeBytes_toBeBytes (width number : Nat) : fromBeBytes (toBeBytes width number) = number % 256 ^ width := by
  induction width generalizing number with
  | zero => simp [toBeBytes, fromBeBytes, mod_one]
  | succ width ih =>
    have front := ih (number / 256)
    rw [fromBeBytes] at front
    rw [toBeBytes, fromBeBytes, foldl_append, front, Nat.pow_succ', mod_mul]
    simp
    omega

theorem fromBeBytes_lt (bytes : Bytes) : fromBeBytes bytes < 256 ^ bytes.length := by
  induction bytes using reverseRecOn with
  | nil => simp [fromBeBytes]
  | append_singleton front byte ih =>
    have small := byte.toNat_lt
    simp only [fromBeBytes, foldl_append, foldl_cons, foldl_nil, length_append,
      length_singleton, Nat.pow_succ] at ih ⊢
    omega

variable {bytes : Bytes} {value : EpochCount} {count : Int} {shards : List EpochCount}

theorem decode_encode {epoch : Nat} (small : epoch < 2 ^ 64) (low : -2 ^ 63 ≤ count)
    (high : count < 2 ^ 63) : decode (encode epoch count) = some ⟨epoch, count⟩ := by
  have whole : (encode epoch count).length = encodedLen := by simp [encode, encodedLen]
  have bits : (count % 2 ^ 64).toNat < 2 ^ 64 := by omega
  rw [decode, if_neg (not_not.mpr whole), encode, take_left' (length_toBeBytes ..),
    drop_left' (length_toBeBytes ..), fromBeBytes_toBeBytes, fromBeBytes_toBeBytes,
    mod_eq_of_lt (by omega), mod_eq_of_lt (by omega)]
  simp only [toSigned, some.injEq, EpochCount.mk.injEq, true_and]
  split <;> omega

theorem toBeBytes_fromBeBytes (bytes : Bytes) : toBeBytes bytes.length (fromBeBytes bytes) = bytes := by
  induction bytes using reverseRecOn with
  | nil => rfl
  | append_singleton front byte ih =>
    have small := byte.toNat_lt
    have value : fromBeBytes (front ++ [byte]) = fromBeBytes front * 256 + byte.toNat := by
      simp [fromBeBytes]
    have last : UInt8.ofNat (fromBeBytes front * 256 + byte.toNat) = byte := by
      rw [← UInt8.toNat_inj, UInt8.toNat_ofNat']
      omega
    rw [length_append, length_singleton, toBeBytes, value, last,
      show (fromBeBytes front * 256 + byte.toNat) / 256 = fromBeBytes front by omega, ih]

theorem encode_decode (decoded : decode bytes = some value) : encode value.epoch value.count = bytes := by
  have range := fromBeBytes_lt (bytes.drop 8)
  have front := toBeBytes_fromBeBytes (bytes.take 8)
  have back := toBeBytes_fromBeBytes (bytes.drop 8)
  unfold decode at decoded
  split at decoded
  · cases decoded
  · rename_i whole
    obtain rfl := some.inj decoded
    rw [not_not, encodedLen] at whole
    simp only [length_take, length_drop, whole] at range front back
    have bits : (toSigned (fromBeBytes (bytes.drop 8)) % 2 ^ 64).toNat = fromBeBytes (bytes.drop 8) := by
      unfold toSigned
      split <;> omega
    rw [encode, bits]
    exact (congrArg₂ (· ++ ·) front back).trans (take_append_drop 8 bytes)

open EpochCount (le_iff epoch)

theorem decode_merge (held remote : Bytes) :
    decode (merge held remote) = Option.merge max (decode held) (decode remote) := by
  unfold merge
  cases left : decode held with
  | none => cases right : decode remote <;> simp [left, right]
  | some l =>
    cases right : decode remote with
    | none => simp [left]
    | some r =>
      simp only [merge_some_some]
      rcases lt_trichotomy l.epoch r.epoch with lower | same | higher
      · rw [if_neg lower.le.not_gt, if_pos lower, max_eq_right (le_iff.mpr (.inl lower)), encode_decode right, right]
      · rw [if_neg same.ge.not_gt, if_neg same.le.not_gt]
        rcases le_total l.count r.count with below | above
        · rw [max_eq_right below, max_eq_right (le_iff.mpr (.inr ⟨same, below⟩)), same, encode_decode right, right]
        · rw [max_eq_left above, max_eq_left (le_iff.mpr (.inr ⟨same.symm, above⟩)), encode_decode left, left]
      · rw [if_pos higher, max_eq_left (le_iff.mpr (.inl higher)), encode_decode left, left]

theorem decode_foldl_merge (first : Bytes) (rest : List Bytes) :
    decode (rest.foldl merge first) = ((first :: rest).filterMap decode).max? := by
  induction rest generalizing first with
  | nil => cases only : decode first <;> simp [only]
  | cons next rest ih =>
    rw [foldl_cons, ih]
    have merged := decode_merge first next
    cases left : decode first <;> cases right : decode next <;>
      cases tail : (rest.filterMap decode).max? <;>
      simp_all [filterMap_cons, max?_cons, max_assoc]

theorem IsMerge.decode {values : List Bytes} {value : Bytes} (merged : IsMerge values value) :
    decode value = (values.filterMap decode).max? := by
  obtain ⟨order, perm, all⟩ := merged
  cases order with
  | nil => cases all
  | cons first rest =>
    obtain rfl := some.inj all
    rw [decode_foldl_merge]
    ext top
    simp only [max?_eq_some_iff, (perm.filterMap EpochMaxWins.decode).mem_iff]

theorem merge_eq (held remote : Bytes) :
    merge held remote = (Option.merge max (decode held) (decode remote)).elim held
      fun top => encode top.epoch top.count := by
  cases top : Option.merge max (decode held) (decode remote) with
  | some value => exact (encode_decode ((decode_merge held remote).trans top)).symm
  | none =>
    obtain ⟨left, right⟩ : decode held = none ∧ decode remote = none := by
      cases left : decode held <;> cases right : decode remote <;> simp [left, right] at top ⊢
    simp only [merge, left, right, elim_none]

theorem isSome_decode : (decode bytes).isSome = true ↔ bytes.length = encodedLen := by
  unfold decode
  split <;> simp_all

/-- The merge is associative and idempotent, commutes unless both values are malformed, and over a sequence
with a well-formed value gives the encoding of the greatest one. -/
theorem merge_laws : (∀ first second third, merge (merge first second) third = merge first (merge second third)) ∧
    (∀ value, merge value value = value) ∧
    (∀ first second, first.length = encodedLen ∨ second.length = encodedLen →
      merge first second = merge second first) ∧
    (∀ first rest, (∃ value ∈ first :: rest, value.length = encodedLen) →
      ∃ top ∈ (first :: rest).filterMap decode, (∀ other ∈ (first :: rest).filterMap decode,
          other.epoch < top.epoch ∨ other.epoch = top.epoch ∧ other.count ≤ top.count) ∧
        rest.foldl merge first = encode top.epoch top.count) ∧
    ∀ epoch count, epoch < 2 ^ 64 → -2 ^ 63 ≤ count → count < 2 ^ 63 →
      decode (encode epoch count) = some ⟨epoch, count⟩ := by
  refine ⟨fun first second third => ?_, fun value => ?_, fun first second formed => ?_, fun first rest formed => ?_,
    fun epoch count => decode_encode⟩
  · rw [merge_eq (merge first second), merge_eq first (merge second third), decode_merge, decode_merge,
      merge_eq first second]
    cases decode first <;> cases decode second <;> cases decode third <;> simp [max_assoc]
  · rw [merge_eq]
    cases held : decode value with
    | none => rfl
    | some top => simpa using encode_decode held
  · rw [← isSome_decode, ← isSome_decode] at formed
    rw [merge_eq, merge_eq]
    cases left : decode first <;> cases right : decode second <;> simp_all [max_comm]
  · obtain ⟨value, mem, whole⟩ := formed
    obtain ⟨top, decoded⟩ := isSome_iff_exists.mp (isSome_decode.mpr whole)
    have merged := decode_foldl_merge first rest
    cases greatest : ((first :: rest).filterMap decode).max? with
    | none =>
      rw [max?_eq_none_iff] at greatest
      exact absurd (mem_filterMap.mpr ⟨value, mem, decoded⟩) (greatest ▸ not_mem_nil)
    | some winner =>
      obtain ⟨inside, above⟩ := max?_eq_some_iff.mp greatest
      exact ⟨winner, inside, fun other among => le_iff.mp (above other among),
        (encode_decode (merged.trans greatest)).symm⟩

/-! ### Aggregates -/

def i64Max : Int := 2 ^ 63 - 1

def checkedAdd (first second : Int) : Option Int :=
  if -2 ^ 63 ≤ first + second ∧ first + second ≤ i64Max then some (first + second) else none

/-- The counts of the shards that are at the highest epoch. -/
def topCounts (shards : List EpochCount) : List Int :=
  match (shards.map EpochCount.epoch).max? with
  | none => []
  | some maxEpoch => (shards.filter (·.epoch = maxEpoch)).map EpochCount.count

def sumShards (shards : List EpochCount) : Int := ((topCounts shards).foldlM checkedAdd 0).getD i64Max

def shardKeys (counter : Key) (keys : List Key) : List Key :=
  keys.filter (("rl:".toList ++ counter ++ ":".toList).isPrefixOf ·)

def getAggregate {ρ : Type} (map : CrdtOrMap Key Bytes ρ) (counter : Key) : Int :=
  sumShards ((shardKeys counter map.store.entries.keys).filterMap fun key => (map.store.get key).bind decode)

theorem topCounts_perm {other : List EpochCount} (perm : shards.Perm other) :
    (topCounts shards).Perm (topCounts other) := by
  have same : (shards.map epoch).max? = (other.map epoch).max? := by
    ext top
    simp only [max?_eq_some_iff, (perm.map epoch).mem_iff]
  unfold topCounts
  rw [same]
  split
  · exact .nil
  · exact (perm.filter _).map _

theorem mem_topCounts (inside : count ∈ topCounts shards) : ∃ shard ∈ shards, shard.count = count := by
  unfold topCounts at inside
  split at inside
  · cases inside
  · obtain ⟨shard, mem, rfl⟩ := mem_map.mp inside
    exact ⟨shard, mem_of_mem_filter mem, rfl⟩

theorem foldlM_checkedAdd {counts : List Int} {total : Int} (start : 0 ≤ total)
    (pos : ∀ count ∈ counts, 0 ≤ count) (fits : total + counts.sum ≤ i64Max) :
    counts.foldlM checkedAdd total = some (total + counts.sum) := by
  induction counts generalizing total with
  | nil => simp
  | cons count rest ih =>
    obtain ⟨here, others⟩ := forall_mem_cons.mp pos
    have later := sum_nonneg others
    rw [sum_cons] at fits
    have added : checkedAdd total count = some (total + count) := if_pos (by omega)
    rw [foldlM_cons, added, bind_eq_bind, bind_some, sum_cons, ← add_assoc]
    exact ih (by omega) others (by omega)

/-! ### Runs of puts -/

inductive MergeStrategy where
  | lastWriterWins
  | maxValueWins
  | epochMaxWins

structure CrdtNamespace where
  scope : Key
  mergeStrategy : MergeStrategy

section Puts
variable {ι ρ : Type} [DecidableEq ι] [LinearOrder ρ]

/-- `put`; it panics on a key outside the namespace. -/
def CrdtNamespace.put (self : CrdtNamespace) (now : Nat) (key : Key) (value : Bytes)
    (map : CrdtOrMap Key Bytes ρ) : Option (CrdtOrMap Key Bytes ρ) :=
  if self.scope.isPrefixOf key then some (map.insert now key value).2 else none

/-- Clusters reached by puts through a namespace and merges of logs taken before, with the operations
that were put, while no clock saturates. -/
inductive PutRun (space : CrdtNamespace) (identity : ι → ρ) (keys : Finset Key) :
    List (Operation Key Bytes ρ) → Cluster ι Key Bytes ρ → Prop
  | start : PutRun space identity keys [] (.start identity)
  | put {puts cluster next} (run : PutRun space identity keys puts cluster) (replica : ι) (now : Nat)
      (key : Key) (value : Bytes) (inside : key ∈ keys)
      (written : space.put now key value (cluster.replicas replica) = some next)
      (unsaturated : next.clock < u64Max) :
      PutRun space identity keys (puts ++ [localInsert (cluster.replicas replica) key value])
        (cluster.advance replica next next.operationLog.operations)
  | snapshot {puts cluster} (run : PutRun space identity keys puts cluster) (replica : ι) :
      PutRun space identity keys puts (cluster.step (ε := Empty) (.snapshot replica))
  | merge {puts cluster} (run : PutRun space identity keys puts cluster) (replica : ι) (times : Key → Nat)
      (log : OperationLog Key Bytes ρ) (taken : log ∈ cluster.snapshots)
      (unsaturated : ((cluster.replicas replica).merge times log).clock < u64Max) :
      PutRun space identity keys puts (cluster.step (ε := Empty) (.merge replica times log))

variable {space : CrdtNamespace} {identity : ι → ρ} {keys : Finset Key} {cluster : Cluster ι Key Bytes ρ}
  {puts : List (Operation Key Bytes ρ)}

section Step
variable {replica : ι} {now : Nat} {key : Key} {value : Bytes} {next : CrdtOrMap Key Bytes ρ}

omit [DecidableEq ι] in
/-- A put is an insert that the map accepts, since the clock has passed what the map has seen. -/
theorem put_logged (consistent : Consistent identity keys cluster)
    (written : space.put now key value (cluster replica) = some next)
    (unsaturated : next.clock < u64Max) :
    next = ((cluster replica).insert now key value).2 ∧ next.operationLog =
      (cluster replica).operationLog.append (localInsert (cluster replica) key value) := by
  unfold CrdtNamespace.put at written
  split at written
  case isFalse => cases written
  obtain rfl := some.inj written
  have write := insert_write now key value (cluster replica)
  have ticked : tick (cluster replica).clock = (cluster replica).clock + 1 := by
    have clock := write.clock
    rw [clock, tick] at unsaturated
    rw [tick]
    omega
  have accepted : accepts (localInsert (cluster replica) key value) (slot (cluster replica) key) = true := by
    have above : ∀ top, Latest (cluster replica).operationLog.operations key top →
        top.version < toLex (tick (cluster replica).clock, (cluster replica).replicaId) := by
      intro top latest
      have seen := consistent.seen replica top latest.1
      exact Prod.Lex.toLex_lt_toLex.mpr (.inl (by simp only; omega))
    have shown := consistent.agrees replica key
    generalize slot (cluster replica) key = held at shown
    cases shown with
    | vacant _ => rfl
    | live top | dead top => exact accepts_insert_single.mpr (above _ top)
  refine ⟨rfl, write.log.trans (if_pos ?_)⟩
  exact accepted

omit [DecidableEq ι] in
/-- The log behind a put holds what was put, and nothing else that is new. -/
theorem mem_log_of_put (consistent : Consistent identity keys cluster)
    (few : keys.card ≤ autoCompactThreshold) (inside : key ∈ keys)
    (written : space.put now key value (cluster replica) = some next)
    (unsaturated : next.clock < u64Max) :
    localInsert (cluster replica) key value ∈ next.operationLog.operations ∧
      ∀ op ∈ next.operationLog.operations, op ∈ cluster.received replica ∨
        op = localInsert (cluster replica) key value := by
  obtain ⟨rfl, log⟩ := put_logged consistent written unsaturated
  have whole : ¬ Truncates (cluster replica).operationLog (localInsert (cluster replica) key value) :=
    not_truncates_of_keys few
      (fun held mem => consistent.within replica held (consistent.log_received mem)) inside
  have retains := append_retains whole
  rw [← log] at retains
  constructor
  · obtain ⟨held, mem, -, above⟩ := retains.2 _ (mem_append_right _ mem_cons_self)
    rcases mem_append.mp (retains.1 held mem) with old | new
    · have seen := consistent.seen replica held old
      have clock := (insert_write now key value (cluster replica)).clock
      rw [clock, tick] at unsaturated
      have late : held.timestamp < tick (cluster replica).clock := by
        rw [tick]
        omega
      have below := @Operation.version_lt_of_timestamp_lt _ _ _ held (localInsert (cluster replica) key value) _ late
      exact absurd above below.not_ge
    · exact mem_singleton.mp new ▸ mem
  · intro op mem
    exact (mem_append.mp (retains.1 op mem)).imp consistent.log_received mem_singleton.mp

end Step

/-! ### What a put leaves -/

def valuesPut (puts : List (Operation Key Bytes ρ)) (key : Key) : List Bytes :=
  puts.filterMap fun
    | .insert target value _ _ => if target = key then some value else none
    | .remove _ _ _ => none

/-- Every put has been delivered to every replica. -/
def Delivered (cluster : Cluster ι Key Bytes ρ) (puts : List (Operation Key Bytes ρ)) : Prop :=
  ∀ replica, ∀ op ∈ puts, op ∈ cluster.received replica

/-- The put of a key with the greatest timestamp and replica id carries the merge of all values put. -/
def LatestCarriesMerge (puts : List (Operation Key Bytes ρ)) (key : Key) : Prop :=
  ∀ value timestamp replicaId, Latest puts key (.insert key value timestamp replicaId) →
    IsMerge (valuesPut puts key) value

/-- The sum of the largest counts that the shards of a counter reported in the largest epoch. -/
def reportedTotal (puts : List (Operation Key Bytes ρ)) (counter : Key) : Int :=
  (topCounts ((shardKeys counter (puts.map Operation.key).dedup).filterMap fun key =>
    ((valuesPut puts key).filterMap decode).max?)).sum

section Run
variable (run : PutRun space identity keys puts cluster)
include run

theorem PutRun.inserts {op : Operation Key Bytes ρ} (mem : op ∈ puts) :
    ∃ value timestamp replicaId, op = .insert op.key value timestamp replicaId := by
  induction run with
  | start => cases mem
  | snapshot _ _ ih | merge _ _ _ _ _ _ ih => exact ih mem
  | put _ _ _ _ _ _ _ _ ih =>
    rcases mem_snoc.mp mem with old | rfl
    · exact ih old
    · exact ⟨_, _, _, rfl⟩

theorem PutRun.exists_latest {key : Key} : key ∈ puts.map Operation.key ↔
      ∃ value timestamp replicaId, Latest puts key (.insert key value timestamp replicaId) := by
  constructor
  · intro inside
    obtain ⟨op, mem, named⟩ := mem_map.mp inside
    obtain ⟨winner, top⟩ : ∃ winner, Latest puts key winner := greatest_exists mem named
    obtain ⟨value, timestamp, replicaId, same⟩ := run.inserts top.1
    have owned : winner.key = key := top.2.1
    rw [owned] at same
    exact ⟨value, timestamp, replicaId, same ▸ top⟩
  · rintro ⟨value, timestamp, replicaId, top⟩
    exact mem_map.mpr ⟨_, top.1, rfl⟩

variable (nodup : Injective identity) (few : keys.card ≤ autoCompactThreshold)
include nodup few

/-- In a run of puts the cluster is consistent, and what was put is what has been received somewhere. -/
theorem PutRun.received : Consistent identity keys cluster ∧
      ∀ op, (∃ replica, op ∈ cluster.received replica) ↔ op ∈ puts := by
  induction run with
  | start =>
    refine ⟨consistent_start identity keys, fun op => ⟨?_, fun none => nomatch none⟩⟩
    rintro ⟨replica, none⟩
    cases none
  | snapshot run replica ih => exact ⟨ih.1.snapshot replica, ih.2⟩
  | @merge puts cluster run replica times log taken unsaturated ih =>
    refine ⟨ih.1.merge nodup taken unsaturated, fun op => exists_received_advance.trans ?_⟩
    rw [← ih.2 op, or_iff_left_iff_imp]
    exact ih.1.archived log taken op
  | @put puts cluster next run replica now key value inside written unsaturated ih =>
    obtain ⟨rfl, -⟩ := put_logged ih.1 written unsaturated
    have called : Consistent identity keys (cluster.step (ε := Empty) (.call replica now (.insert key value))) :=
      ih.1.call nodup few inside unsaturated
    refine ⟨called, fun op => exists_received_advance.trans ?_⟩
    obtain ⟨new, old⟩ := mem_log_of_put ih.1 few inside written unsaturated
    rw [mem_append, mem_singleton, ← ih.2 op]
    constructor
    · rintro (known | logged)
      · exact .inl known
      · exact (old op logged).imp_left fun mem => ⟨replica, mem⟩
    · rintro (known | rfl)
      · exact .inl known
      · exact .inr new

theorem get_eq_some_iff (delivered : Delivered cluster puts) (replica : ι) (key : Key) (value : Bytes) :
    (cluster replica).get key = some value ↔
      ∃ timestamp replicaId, Latest puts key (.insert key value timestamp replicaId) := by
  obtain ⟨consistent, received⟩ := run.received nodup few
  have same : ∀ op, op ∈ cluster.received replica ↔ op ∈ puts := fun op =>
    ⟨fun mem => (received op).mp ⟨replica, mem⟩, delivered replica op⟩
  refine ((consistent.view_received replica key).1 value).trans ?_
  simp only [Latest, greatest_congr same]

end Run

/-- Once every put is delivered, every replica holds the merge of the values put for a key exactly when the
latest put of the key carries it; if so for all keys, counts that are not negative add up to the same
aggregate everywhere, within the range of the sum. -/
theorem put_values_merged_iff (nodup : Injective identity)
    (few : keys.card < autoCompactThreshold) (run : PutRun space identity keys puts cluster)
    (delivered : Delivered cluster puts) : (∀ key ∈ puts.map Operation.key, (∀ replica, ∃ value,
        (cluster replica).get key = some value ∧ IsMerge (valuesPut puts key) value) ↔
      LatestCarriesMerge puts key) ∧ ((∀ key, LatestCarriesMerge puts key) →
      (∀ key, ∀ report ∈ (valuesPut puts key).filterMap decode, 0 ≤ report.count) →
      ∀ counter, reportedTotal puts counter ≤ i64Max →
        ∀ replica, getAggregate (cluster replica) counter = reportedTotal puts counter) := by
  have get_iff := get_eq_some_iff run nodup few.le delivered
  constructor
  · intro key inside
    obtain ⟨value, timestamp, replicaId, top⟩ := run.exists_latest.mp inside
    constructor
    · intro stored other otherTime otherId otherTop
      obtain ⟨replica, -⟩ := (run.received nodup few.le).2 _ |>.mpr top.1
      obtain ⟨held, here, merged⟩ := stored replica
      have read := (get_iff replica key other).mpr ⟨otherTime, otherId, otherTop⟩
      rw [here, some.injEq] at read
      exact read ▸ merged
    · intro carries replica
      exact ⟨value, (get_iff replica key value).mpr ⟨timestamp, replicaId, top⟩, carries _ _ _ top⟩
  · intro carries pos counter fits replica
    have listed : (shardKeys counter (cluster replica).store.entries.keys).Perm
        (shardKeys counter (puts.map Operation.key).dedup) := by
      refine (perm_ext_iff_of_nodup ((KeyedMap.keys_nodup _).filter _) ((nodup_dedup _).filter _)).mpr fun key => ?_
      have held : key ∈ (cluster replica).store.entries.keys ↔ key ∈ puts.map Operation.key :=
        KeyedMap.mem_keys_iff.trans ((exists_congr (get_iff replica key)).trans run.exists_latest.symm)
      simp only [mem_filter, held, mem_dedup]
    have reads : ∀ key ∈ shardKeys counter (puts.map Operation.key).dedup,
        ((cluster replica).store.get key).bind decode = ((valuesPut puts key).filterMap decode).max? := by
      intro key inside
      obtain ⟨value, timestamp, replicaId, top⟩ := run.exists_latest.mp (mem_dedup.mp (mem_of_mem_filter inside))
      have read : (cluster replica).store.get key = some value :=
        (get_iff replica key value).mpr ⟨timestamp, replicaId, top⟩
      rw [read, bind_some, (carries key _ _ _ top).decode]
    have counts := topCounts_perm ((listed.filterMap fun key =>
      ((cluster replica).store.get key).bind decode).trans (.of_eq (filterMap_congr reads)))
    have total : (topCounts ((shardKeys counter (cluster replica).store.entries.keys).filterMap
        fun key => ((cluster replica).store.get key).bind decode)).sum = reportedTotal puts counter :=
      counts.sum_eq
    rw [getAggregate, sumShards, foldlM_checkedAdd le_rfl ?_ (by rw [zero_add, total]; exact fits), zero_add, total]
    · rfl
    · intro count inside
      obtain ⟨report, mem, rfl⟩ := mem_topCounts (counts.mem_iff.mp inside)
      obtain ⟨key, -, top⟩ := mem_filterMap.mp mem
      exact pos key report (max?_mem top)

end Puts

/-! ### Two nodes -/

def limits : CrdtNamespace := ⟨"rl:".toList, .epochMaxWins⟩

def shard : Key := "rl:c:a".toList

/-- A node puts a value for the shard. -/
def putAt (replica : Bool) (value : Bytes) (cluster : Cluster Bool Key Bytes Nat) :
    Cluster Bool Key Bytes Nat :=
  let next := ((cluster.replicas replica).insert 0 shard value).2
  cluster.advance replica next next.operationLog.operations

/-- The first node puts a count of 30, and the second one gets it and puts a count for the next epoch. -/
def nextCount : Cluster Bool Key Bytes Nat :=
  handOver true (putAt true (encode 6 10) (handOver false (putAt false (encode 5 30) (.start Bool.toNat))))

/-- Both nodes put a count in the same epoch, 30 and 10, and get each other's. -/
def twoCounts : Cluster Bool Key Bytes Nat :=
  handOver true (handOver false (putAt true (encode 5 10) (putAt false (encode 5 30) (.start Bool.toNat))))

def nextPuts : List (Operation Key Bytes Nat) :=
  [.insert shard (encode 5 30) 1 0, .insert shard (encode 6 10) 3 1]

def twoPuts : List (Operation Key Bytes Nat) :=
  [.insert shard (encode 5 30) 1 0, .insert shard (encode 5 10) 1 1]

theorem PutRun.handOver {cluster : Cluster Bool Key Bytes Nat} {puts : List (Operation Key Bytes Nat)}
    (run : PutRun limits Bool.toNat {shard} puts cluster) (replica : Bool)
    (unsaturated : ((cluster (!replica)).merge (fun _ => 0) (cluster replica).getOperationLog).clock < u64Max) :
    PutRun limits Bool.toNat {shard} puts (handOver replica cluster) :=
  .merge (.snapshot run replica) (!replica) _ _ (mem_append_right _ mem_cons_self) unsaturated

theorem nextCount_run : PutRun limits Bool.toNat {shard} nextPuts nextCount :=
  .handOver (.put (.handOver (.put .start false 0 shard (encode 5 30) (by decide) rfl (by decide)) false (by decide))
    true 0 shard (encode 6 10) (by decide) rfl (by decide)) true (by decide)

/-- The count of the later epoch is held and summed by both nodes. -/
theorem nextCount_merged : (∀ replica, ∃ value, (nextCount replica).get shard = some value ∧
        IsMerge (valuesPut nextPuts shard) value) ∧
      ∀ replica, getAggregate (nextCount replica) "c".toList = 10 := by
  have values : ∀ key, valuesPut nextPuts key = if shard = key then [encode 5 30, encode 6 10] else [] := by
    intro key
    unfold valuesPut nextPuts
    split <;> simp_all
  have carries : ∀ key, LatestCarriesMerge nextPuts key := by
    intro key value timestamp replicaId top
    rcases mem_pair.mp top.1 with early | late
    · injection early with keyed valued stamped named
      subst keyed valued stamped named
      exact absurd (top.2.2 _ (mem_pair.mpr (.inr rfl)) rfl) (by decide)
    · injection late with keyed valued
      subst keyed valued
      exact ⟨_, .refl _, by rw [values, if_pos rfl]; decide⟩
  obtain ⟨stored, summed⟩ := put_values_merged_iff (by decide) (by decide) nextCount_run (by unfold Delivered; decide)
  refine ⟨(stored shard (by decide)).mpr (carries shard), ?_⟩
  refine summed carries (fun key report inside => ?_) "c".toList (by decide)
  rw [values] at inside
  split at inside
  · revert report
    decide
  · cases inside

/-- Both nodes hold the smaller count of the put with the greater replica id, and sum it. -/
theorem greater_count_lost : PutRun limits Bool.toNat {shard} twoPuts twoCounts ∧ Delivered twoCounts twoPuts ∧
      (∀ replica, (twoCounts replica).get shard = some (encode 5 10) ∧
        getAggregate (twoCounts replica) "c".toList = 10) ∧
      ¬ IsMerge (valuesPut twoPuts shard) (encode 5 10) ∧ reportedTotal twoPuts "c".toList = 30 := by
  refine ⟨?_, by unfold Delivered; decide, by decide, fun merged => absurd merged.decode (by decide), by decide⟩
  refine .handOver (.handOver (.put (.put .start false 0 shard (encode 5 30) (by decide) rfl (by decide)) true 0
    shard (encode 5 10) (by decide) rfl (by decide)) false (by decide)) true (by decide)

end ModelGateway.EpochMaxWins
