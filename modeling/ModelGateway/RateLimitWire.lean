import ModelGateway.Bincode
import ModelGateway.CrdtMapProofs
import ModelGateway.RateLimit

/-! The bytes of a rate-limit update. The collector sends the `i64` of a shard (`collector.rs`); the receiver
first reads the bytes as an operation log, as older senders wrote it, and then as an `i64` (`controller.rs`).
How the bytes of a UUID are a replica id and the payload of a logged operation a counter is given. -/
namespace ModelGateway.RateLimit
open CrdtOperation Bincode Bincode.Reader List

/-- `StateUpdate`; the version is the timestamp. -/
structure StateUpdate where
  key : String
  value : Bytes
  actor : String
  timestamp : Nat

def writeI64 (value : Int64) : Bytes := toLeBytes 8 value.toUInt64.toNat

def readI64 : Reader Int64 := (fun bits => (UInt64.ofNat bits).toInt64) <$> uint 8

/-- What `collect_store` makes of a shard. -/
def Shard.toUpdate (timestamp : Nat) (shard : Shard) : StateUpdate :=
  ⟨shard.key, writeI64 shard.value, shard.actor, timestamp⟩

variable {ρ : Type} (replicaId : Bytes → ρ) (payload : Bytes → Int64) (value : Int64)

/-- The sixteen bytes of a UUID. -/
def readReplicaId : Reader ρ := do
  let content ← blob
  if content.length = 16 then pure (replicaId content) else failure

def readOperation : Reader (Operation String Int64 ρ) := do
  match ← uint 4 with
  | 0 => return .insert (String.ofList (← text)) (payload (← blob)) (← uint 8) (← readReplicaId replicaId)
  | 1 => return .remove (String.ofList (← text)) (← uint 8) (← readReplicaId replicaId)
  | _ => failure

def readOperationLog : Reader (OperationLog String Int64 ρ) :=
  OperationLog.mk <$> vec (readOperation replicaId payload)

theorem bits_lt : value.toUInt64.toNat < 256 ^ 8 := value.toUInt64.toNat_lt

theorem decode_readI64 : decode readI64 (writeI64 value) = some value := by
  have read := run_uint (bits_lt value) []
  rw [append_nil] at read
  rw [decode, readI64, StateT.run_map, writeI64, read, Option.map_eq_map, Option.map_some, Option.map_some,
    UInt64.ofNat_toNat]
  rfl

theorem decode_readOperationLog :
    decode (readOperationLog replicaId payload) (writeI64 value) = if value = 0 then some {} else none := by
  have zero : value.toUInt64.toNat = 0 ↔ value = 0 := by
    rw [← UInt64.toNat_zero, UInt64.toNat_inj]
    exact ⟨fun same => congrArg UInt64.toInt64 same, fun same => same ▸ rfl⟩
  have fails : (readOperation replicaId payload).run [] = none := rfl
  rw [decode, readOperationLog, StateT.run_map, writeI64, run_vec_alone fails (bits_lt value)]
  simp only [zero]
  split
  · rfl
  · rfl

variable [LinearOrder ρ]

/-- The receive path for `LocalStoreType::RateLimit`. -/
def receiveUpdate (update : StateUpdate) (store : RateLimitStore ρ) : RateLimitStore ρ :=
  match decode (readOperationLog replicaId payload) update.value with
  | some log => store.applyRemoteRateLimitCounter log
  | none =>
    match decode readI64 update.value with
    | some counterValue =>
      store.applyRemoteRateLimitCounterValue update.key update.actor counterValue update.timestamp
    | none => store

variable {replicaId payload}

theorem receiveUpdate_toUpdate (shard : Shard) (timestamp : Nat) (store : RateLimitStore ρ) :
    receiveUpdate replicaId payload (shard.toUpdate timestamp) store = store.receive ⟨shard, timestamp⟩ := by
  rw [receiveUpdate, Shard.toUpdate, decode_readOperationLog, decode_readI64, RateLimitStore.receive]
  by_cases zero : shard.value = 0
  · rw [if_pos zero, if_pos zero]
  · rw [if_neg zero, if_neg zero]

theorem rsplitOnce_ne_none {separator : List Char} (nonempty : separator ≠ []) (pre post : List Char) :
    rsplitOnce separator (pre ++ (separator ++ post)) ≠ none := by
  induction pre with
  | nil =>
    obtain ⟨char, rest, same⟩ := exists_cons_of_ne_nil (append_ne_nil_of_left_ne_nil nonempty post)
    have front : separator.isPrefixOf (char :: rest) = true := isPrefixOf_iff_prefix.mpr ⟨post, same⟩
    rw [nil_append, same, rsplitOnce]
    split
    · exact Option.some_ne_none _
    · rw [if_pos front]
      exact Option.some_ne_none _
  | cons char pre ih =>
    rw [cons_append, rsplitOnce]
    split
    · exact Option.some_ne_none _
    · exact absurd ‹_› ih

/-- Exactly a value other than 0 is applied, in every store, to the shard it was sent for, with the actor and
the timestamp of the update. -/
theorem nonzero_value_applied [Inhabited ρ] (shard : Shard) (timestamp : Nat) :
    (∀ store : RateLimitStore ρ, receiveUpdate replicaId payload (shard.toUpdate timestamp) store =
      store.applyRemoteRateLimitCounterValue shard.key shard.actor shard.value timestamp) ↔ shard.value ≠ 0 := by
  constructor
  · -- an owner without any counter keeps an empty log where it should log the value
    intro applied zero
    have kept := applied ⟨.withReplicaId default, fun _ => true, "", fun _ => default⟩
    rw [receiveUpdate_toUpdate, RateLimitStore.receive, if_pos zero, RateLimitStore.applyRemoteRateLimitCounterValue,
      RateLimitStore.applyCounterSnapshotPayload] at kept
    split at kept
    · rename_i absent
      have separated : shardSeparator.toList ≠ [] := by decide
      refine rsplitOnce_ne_none separated shard.key.toList shard.actor.toList ?_
      simpa [splitShardKey, shardKey] using absent
    · have logs := congrArg (fun store => store.counters.operationLog.operations.length) kept
      simp only [RateLimitStore.applyRemoteRateLimitCounter, CrdtMapProofs.merge_log, if_true] at logs
      exact Nat.zero_ne_one logs
  · intro nonzero store
    rw [receiveUpdate_toUpdate, RateLimitStore.receive, if_neg nonzero]

/-- A store with one shard. -/
def oneShard : RateLimitStore Nat :=
  (RateLimitStore.mk (.withReplicaId 0) (fun _ => true) "b" fun _ => 1).applyRemoteRateLimitCounterValue "k" "a" 5 1

theorem five_applied :
    (receiveUpdate length (fun _ => 0) (Shard.toUpdate 2 ⟨"k", "a", 5⟩) oneShard).value "k" = some 5 := by
  rw [(nonzero_value_applied ⟨"k", "a", 5⟩ 2).mpr (by decide)]
  decide

/-- The bytes of 0 are taken for an empty operation log, and the shard keeps its old value. -/
theorem zero_not_applied :
    (receiveUpdate length (fun _ => 0) (Shard.toUpdate 2 ⟨"k", "a", 0⟩) oneShard).value "k" = some 5 ∧
      (oneShard.applyRemoteRateLimitCounterValue "k" "a" 0 2).value "k" = some 0 := by
  rw [receiveUpdate_toUpdate]
  decide

end ModelGateway.RateLimit
