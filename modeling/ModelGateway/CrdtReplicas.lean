import ModelGateway.CrdtView

/-! A cluster of replicas that write locally and merge each other's operation
logs. A merged log is any snapshot taken earlier from any replica, so logs may be
late, reordered or repeated. Every replica shows the last-writer-wins view of its
own log, and replicas that have received the same operations show the same map. -/
namespace ModelGateway.CrdtReplicas
open CrdtOperation CrdtMap CrdtLogProofs CrdtMapProofs CrdtView LastWriter List Function Operation OperationLog

/-- The replicas, the log snapshots taken so far, and, for each replica, every
operation that has been in its log or in a log it merged. -/
structure Cluster (ι κ ν ρ : Type) where
  replicas : ι → CrdtOrMap κ ν ρ
  snapshots : List (OperationLog κ ν ρ)
  received : ι → List (Operation κ ν ρ)

instance {ι κ ν ρ : Type} : CoeFun (Cluster ι κ ν ρ) fun _ => ι → CrdtOrMap κ ν ρ := ⟨Cluster.replicas⟩

/-- A local call, a `get_operation_log` or the merge of some log, at one replica. -/
inductive Event (ι κ ν ρ ε : Type) where
  | call (replica : ι) (now : Nat) (call : Call κ ν ε)
  | snapshot (replica : ι)
  | merge (replica : ι) (times : κ → Nat) (log : OperationLog κ ν ρ)

namespace Cluster
variable {ι κ ν ρ ε : Type} [DecidableEq ι]

/-- Fresh replicas that have exchanged nothing. -/
def start (identity : ι → ρ) : Cluster ι κ ν ρ where
  replicas replica := CrdtOrMap.withReplicaId (identity replica)
  snapshots := []
  received _ := []

/-- A replica moves to its next state having received some operations. -/
def advance (cluster : Cluster ι κ ν ρ) (replica : ι) (next : CrdtOrMap κ ν ρ)
    (added : List (Operation κ ν ρ)) : Cluster ι κ ν ρ where
  replicas := update cluster.replicas replica next
  snapshots := cluster.snapshots
  received := update cluster.received replica (cluster.received replica ++ added)

variable [DecidableEq κ] [LinearOrder ρ] [Inhabited ν]

def step (cluster : Cluster ι κ ν ρ) : Event ι κ ν ρ ε → Cluster ι κ ν ρ
  | .call replica now call =>
    let next := call.run now (cluster.replicas replica)
    cluster.advance replica next next.operationLog.operations
  | .snapshot replica =>
    { cluster with
      snapshots := cluster.snapshots ++ [(cluster.replicas replica).getOperationLog] }
  | .merge replica times log =>
    cluster.advance replica ((cluster.replicas replica).merge times log) log.operations

end Cluster

/-- Calls stay within `keys`, and a merged log is one of the snapshots taken. -/
def Event.Allowed {ι κ ν ρ ε : Type} (keys : Finset κ) (cluster : Cluster ι κ ν ρ) :
    Event ι κ ν ρ ε → Prop
  | .call _ _ made => made.key ∈ keys
  | .snapshot _ => True
  | .merge _ _ log => log ∈ cluster.snapshots

section Runs
variable {ι κ ν ρ : Type} (ε : Type) [DecidableEq ι] [DecidableEq κ] [LinearOrder ρ] [Inhabited ν]

/-- The clusters reached by runs within `keys` in which no clock saturates. -/
inductive Reachable (identity : ι → ρ) (keys : Finset κ) : Cluster ι κ ν ρ → Prop where
  | start : Reachable identity keys (Cluster.start identity)
  | step {cluster : Cluster ι κ ν ρ} (reached : Reachable identity keys cluster)
      (event : Event ι κ ν ρ ε) (allowed : event.Allowed keys cluster)
      (unsaturated : ∀ replica, ((cluster.step event).replicas replica).clock < u64Max) :
      Reachable identity keys (cluster.step event)

end Runs

variable {ι κ ν ρ ε : Type} [DecidableEq κ] [LinearOrder ρ]
variable {identity : ι → ρ} {keys : Finset κ} {cluster : Cluster ι κ ν ρ}

/-- What holds of a cluster between events. -/
structure Consistent (identity : ι → ρ) (keys : Finset κ) (cluster : Cluster ι κ ν ρ) : Prop where
  named : ∀ replica, (cluster.replicas replica).replicaId = identity replica
  agrees : ∀ replica, Agrees (cluster.replicas replica)
  retains : ∀ replica, Retains (cluster.replicas replica).operationLog.operations (cluster.received replica)
  identify : ∀ left right, ∀ first ∈ cluster.received left, ∀ second ∈ cluster.received right,
    first.version = second.version → first = second
  owned : ∀ author reader, ∀ operation ∈ cluster.received reader, operation.replicaId = identity author →
      operation.timestamp ≤ (cluster.replicas author).clock
  seen : ∀ replica, ∀ operation ∈ (cluster.replicas replica).operationLog.operations,
    operation.timestamp ≤ (cluster.replicas replica).clock
  archived : ∀ log ∈ cluster.snapshots, ∀ operation ∈ log.operations, ∃ replica, operation ∈ cluster.received replica
  within : ∀ replica, ∀ operation ∈ cluster.received replica, operation.key ∈ keys

variable (consistent : Consistent identity keys cluster)
include consistent

theorem Consistent.log_received (held : op ∈ (cluster replica).operationLog.operations) :
    op ∈ cluster.received replica :=
  (consistent.retains replica).1 op held

theorem Consistent.log_identify (replica : ι) : StampsIdentify version (cluster replica).operationLog.operations :=
  fun first left second right => consistent.identify replica replica first
    (consistent.log_received left) second (consistent.log_received right)

theorem Consistent.view_received (replica : ι) : LwwView (cluster.received replica) (cluster replica).all := by
  have identify : StampsIdentify version (cluster.received replica) := consistent.identify replica replica
  refine lwwView_of_values identify fun key value => ?_
  rw [((consistent.agrees replica).lwwView (consistent.log_identify replica) key).1 value]
  simp only [Latest, (consistent.retains replica).greatest_iff identify]

omit consistent in
theorem consistent_start (identity : ι → ρ) (keys : Finset κ) :
    Consistent identity keys (Cluster.start (ν := ν) identity) where
  named _ := rfl
  agrees _ := agrees_withReplicaId _
  retains _ := Covers.refl _
  identify _ _ := forall_mem_nil _
  owned _ _ := forall_mem_nil _
  seen _ := forall_mem_nil _
  archived := forall_mem_nil _
  within _ := forall_mem_nil _

omit consistent in
/-- An operation nobody has received yet, stamped by `replica` past its clock. -/
structure Fresh (identity : ι → ρ) (keys : Finset κ) (cluster : Cluster ι κ ν ρ) (replica : ι)
    (next : CrdtOrMap κ ν ρ) (operation : Operation κ ν ρ) : Prop where
  key : operation.key ∈ keys
  replicaId : operation.replicaId = identity replica
  late : (cluster.replicas replica).clock < operation.timestamp
  ticked : operation.timestamp ≤ next.clock

variable {replica : ι} {next : CrdtOrMap κ ν ρ}

theorem Fresh.new (fresh : Fresh identity keys cluster replica next op)
    (mem : other ∈ cluster.received reader) : other.version ≠ op.version := by
  intro same
  have sameId := version_eq_iff.mp same
  simp only [operationId, Prod.mk.injEq] at sameId
  have bound := consistent.owned replica reader other mem (sameId.1.trans fresh.replicaId)
  have late := fresh.late
  omega

theorem Fresh.identify (fresh : Fresh identity keys cluster replica next op) : StampsIdentify version
      ((cluster replica).operationLog.operations ++ [op]) := by
  intro first firstMember second secondMember same
  rcases mem_append.mp firstMember with firstOld | firstNew <;>
    rcases mem_append.mp secondMember with secondOld | secondNew
  · exact consistent.log_identify replica first firstOld second secondOld same
  · rw [mem_singleton.mp secondNew] at same
    exact absurd same (fresh.new consistent (consistent.log_received firstOld))
  · rw [mem_singleton.mp firstNew] at same
    exact absurd same.symm (fresh.new consistent (consistent.log_received secondOld))
  · rw [mem_singleton.mp firstNew, mem_singleton.mp secondNew]

variable [DecidableEq ι] {added : List (Operation κ ν ρ)} {op : Operation κ ν ρ}

omit consistent in
omit [DecidableEq κ] [LinearOrder ρ] in
theorem exists_received_advance : (∃ reader, op ∈ (cluster.advance replica next added).received reader) ↔
      (∃ reader, op ∈ cluster.received reader) ∨ op ∈ added := by
  constructor
  · rintro ⟨reader, mem⟩
    by_cases same : reader = replica
    · subst same
      simp only [Cluster.advance, update_self, mem_append] at mem
      exact mem.imp_left fun old => ⟨_, old⟩
    · simp only [Cluster.advance, update_of_ne same] at mem
      exact .inl ⟨_, mem⟩
  · rintro (⟨reader, mem⟩ | new)
    · refine ⟨reader, ?_⟩
      by_cases same : reader = replica
      · subst same
        simp [Cluster.advance, mem]
      · simpa [Cluster.advance, same] using mem
    · exact ⟨replica, by simp [Cluster.advance, new]⟩

variable (nodup : Injective identity)
include nodup

/-- A replica may advance having received operations known somewhere in the
cluster and at most one fresh operation of its own. -/
theorem Consistent.advance (fresh : Option (Operation κ ν ρ))
    (named : next.replicaId = identity replica) (agrees : Agrees next)
    (retains : Retains next.operationLog.operations (cluster.received replica ++ added))
    (grows : (cluster replica).clock ≤ next.clock)
    (seen : ∀ op ∈ next.operationLog.operations, op.timestamp ≤ next.clock)
    (new : ∀ op ∈ fresh, Fresh identity keys cluster replica next op)
    (origin : ∀ op ∈ added, (∃ reader, op ∈ cluster.received reader) ∨ op ∈ fresh) :
    Consistent identity keys (cluster.advance replica next added) := by
  have known : ∀ {reader op}, op ∈ (cluster.advance replica next added).received reader →
      (∃ reader, op ∈ cluster.received reader) ∨ op ∈ fresh := by
    intro reader op mem
    exact (exists_received_advance.mp ⟨reader, mem⟩).elim .inl (origin op)
  have later : ∀ reader, (cluster reader).clock ≤ ((cluster.advance replica next added).replicas reader).clock :=
    (forall_update_iff cluster.replicas fun reader map =>
      (cluster reader).clock ≤ map.clock).mpr ⟨grows, fun _ _ => le_rfl⟩
  constructor
  case named =>
    exact (forall_update_iff cluster.replicas fun reader map =>
      map.replicaId = identity reader).mpr ⟨named, fun reader _ => consistent.named reader⟩
  case agrees =>
    exact (forall_update_iff cluster.replicas fun _ map => Agrees map).mpr
      ⟨agrees, fun reader _ => consistent.agrees reader⟩
  case retains =>
    intro reader
    by_cases same : reader = replica
    · subst same
      simpa [Cluster.advance] using retains
    · simpa [Cluster.advance, same] using consistent.retains reader
  case identify =>
    intro left right first firstMember second secondMember same
    rcases known firstMember with ⟨_, first_old⟩ | first_new <;>
      rcases known secondMember with ⟨_, second_old⟩ | second_new
    · exact consistent.identify _ _ first first_old second second_old same
    · exact absurd same ((new second second_new).new consistent first_old)
    · exact absurd same.symm ((new first first_new).new consistent second_old)
    · exact Option.mem_unique first_new second_new
  case owned =>
    intro author reader op mem authored
    rcases known mem with ⟨_, old⟩ | fresh
    · exact (consistent.owned author _ op old authored).trans (later author)
    · have made := new op fresh
      obtain rfl : replica = author := nodup (made.replicaId.symm.trans authored)
      simpa [Cluster.advance] using made.ticked
  case seen =>
    exact (forall_update_iff cluster.replicas fun _ map =>
      ∀ op ∈ map.operationLog.operations, op.timestamp ≤ map.clock).mpr
      ⟨seen, fun reader _ => consistent.seen reader⟩
  case archived =>
    intro log taken op mem
    exact exists_received_advance.mpr (.inl (consistent.archived log taken op mem))
  case within =>
    intro reader op mem
    rcases known mem with ⟨_, old⟩ | fresh
    · exact consistent.within _ op old
    · exact (new op fresh).key

theorem Consistent.unlogged (named : next.replicaId = identity replica) (agrees : Agrees next)
    (same : next.operationLog = (cluster replica).operationLog)
    (grows : (cluster replica).clock ≤ next.clock) : Consistent identity keys
      (cluster.advance replica next next.operationLog.operations) := by
  have held : Retains next.operationLog.operations (cluster.received replica ++ []) := by
    rw [same, List.append_nil]
    exact consistent.retains replica
  refine consistent.advance nodup none named agrees held.recollect grows ?_ ?_ ?_
  · intro op mem
    exact (consistent.seen replica op (same ▸ mem)).trans grows
  · intro op none
    cases none
  · intro op mem
    exact .inl ⟨replica, consistent.log_received (same ▸ mem)⟩

theorem Consistent.logged (named : next.replicaId = identity replica) (agrees : Agrees next)
    (fresh : Fresh identity keys cluster replica next op)
    (whole : ¬ Truncates (cluster replica).operationLog op)
    (grown : next.operationLog = (cluster replica).operationLog.append op) :
    Consistent identity keys (cluster.advance replica next next.operationLog.operations) := by
  have kept : Retains next.operationLog.operations _ := grown ▸ append_retains whole
  have retains := kept.trans ((consistent.retains replica).append _)
  have grows := fresh.late.le.trans fresh.ticked
  refine consistent.advance nodup (some op) named agrees retains.recollect grows ?_ ?_ ?_
  · intro held mem
    rcases mem_snoc.mp (kept.1 held mem) with old | rfl
    · exact (consistent.seen replica held old).trans grows
    · exact fresh.ticked
  · rintro held ⟨⟩
    exact fresh
  · intro held mem
    rcases mem_snoc.mp (retains.1 held mem) with old | rfl
    · exact .inl ⟨replica, old⟩
    · exact .inr rfl

variable [Inhabited ν]

/-- A local call keeps the cluster consistent: what it logs is fresh, because the
clock of its replica has passed everything the replica ever stamped. -/
theorem Consistent.call (few : keys.card ≤ autoCompactThreshold) {now : Nat}
    {call : Call κ ν ε} (allowed : call.key ∈ keys)
    (unsaturated : (call.run now (cluster replica)).clock < u64Max) :
    Consistent identity keys (cluster.step (.call replica now call)) := by
  have identity_eq := consistent.named replica
  rcases call_write now call (cluster replica) with
    same | ⟨op, attempted, write⟩
  · exact consistent.unlogged nodup (by rw [same, identity_eq])
      (by rw [same]; exact consistent.agrees replica) (by rw [same]) (by rw [same])
  obtain ⟨keyed, stamped, signed⟩ := attempt_stamp attempted
  have clock := write.clock
  rw [tick] at clock stamped
  have fresh : Fresh identity keys cluster replica (call.run now (cluster replica)) op :=
    ⟨keyed ▸ allowed, signed.trans identity_eq, by omega, by omega⟩
  have whole : ¬ Truncates (cluster replica).operationLog op := not_truncates_of_keys few
      (fun held mem => consistent.within replica held (consistent.log_received mem)) fresh.key
  have above : ∀ held ∈ (cluster replica).operationLog.operations,
      held.key = op.key → held.version < op.version := fun held mem _ =>
    version_lt_of_timestamp_lt ((consistent.seen replica held mem).trans_lt fresh.late)
  have named := write.replicaId.trans identity_eq
  have agrees := localWrite_agrees write (consistent.agrees replica) fun _ =>
    ⟨whole, fresh.identify consistent, above⟩
  have log := write.log
  split at log
  · exact consistent.logged nodup named agrees fresh whole log
  · exact consistent.unlogged nodup named agrees log (by omega)

/-- A merge keeps the cluster consistent: what it adds is known in the cluster,
and the clock moves past what it applies. -/
theorem Consistent.merge {times : κ → Nat} {log : OperationLog κ ν ρ} (taken : log ∈ cluster.snapshots)
    (unsaturated : ((cluster replica).merge times log).clock < u64Max) :
    Consistent identity keys (cluster.step (ε := ε) (.merge replica times log)) := by
  have known := consistent.archived log taken
  have identify : StampsIdentify version ((cluster replica).operationLog.operations ++ log.operations) := by
    have somewhere : ∀ op ∈ (cluster replica).operationLog.operations ++
        log.operations, ∃ reader, op ∈ cluster.received reader := by
      intro op mem
      exact (mem_append.mp mem).elim (fun mine => ⟨replica, consistent.log_received mine⟩) (known op)
    intro first firstMember second secondMember same
    obtain ⟨left, firstHeld⟩ := somewhere first firstMember
    obtain ⟨right, secondHeld⟩ := somewhere second secondMember
    exact consistent.identify left right first firstHeld second secondHeld same
  obtain ⟨grows, covers⟩ := fold_clock _ unsaturated
  refine consistent.advance nodup none ((fold_frame _).1.trans (consistent.named replica))
    (merge_agrees times (consistent.agrees replica) (consistent.log_identify replica)) ?_ grows ?_
    (fun op none => by cases none) (fun op mem => .inl (known op mem))
  · rw [merge_log]
    exact (compact_retains _).trans ((merge_retains identify).trans ((consistent.retains replica).append _))
  · intro op mem
    rw [merge_log] at mem
    rcases mem_of_mem_merge (compact_latest mem).1 with mine | ⟨-, unseen⟩
    · exact (consistent.seen replica op mine).trans grows
    · refine covers op (mem_unseen_iff.mpr ⟨mem, fun held inside same => ?_⟩)
      exact unseen (same ▸ mem_map_of_mem inside)

omit nodup in
theorem Consistent.snapshot (replica : ι) : Consistent identity keys (cluster.step (ε := ε) (.snapshot replica)) := by
  refine { consistent with archived := forall_mem_snoc.mpr ⟨consistent.archived, ?_⟩ }
  exact fun op mem => ⟨replica, consistent.log_received mem⟩

omit consistent

theorem reachable_consistent (few : keys.card ≤ autoCompactThreshold)
    (reached : Reachable ε identity keys cluster) : Consistent identity keys cluster := by
  induction reached with
  | start => exact consistent_start identity keys
  | @step cluster reached event allowed unsaturated ih =>
    cases event with
    | call replica now call =>
      refine ih.call nodup few allowed ?_
      simpa [Cluster.step, Cluster.advance] using unsaturated replica
    | snapshot replica => exact ih.snapshot replica
    | merge replica times log =>
      refine ih.merge nodup allowed ?_
      simpa [Cluster.step, Cluster.advance] using unsaturated replica

omit nodup

/-- Every replica of every run shows the last-writer-wins view of its own log, and
replicas that have received the same operations show the same map. -/
theorem replicas_show_lww_view (nodup : Injective identity) (few : keys.card < autoCompactThreshold)
    (reached : Reachable ε identity keys cluster) :
    (∀ replica, LwwView (cluster replica).operationLog.operations (cluster replica).all) ∧
    ∀ left right, (∀ operation, operation ∈ cluster.received left ↔ operation ∈ cluster.received right) →
      (cluster left).all = (cluster right).all := by
  have consistent := reachable_consistent nodup few.le reached
  refine ⟨fun replica => (consistent.agrees replica).lwwView (consistent.log_identify replica), ?_⟩
  intro left right same
  exact (consistent.view_received left).ext (consistent.view_received right) fun _ _ => greatest_congr same

/-- A replica hands its log to the other one. -/
def handOver {κ ν : Type} [DecidableEq κ] [Inhabited ν] (replica : Bool) (cluster : Cluster Bool κ ν Nat) :
    Cluster Bool κ ν Nat :=
  (cluster.step (ε := Empty) (.snapshot replica)).step (ε := Empty)
    (.merge (!replica) (fun _ => 0) (cluster replica).getOperationLog)

/-- Both replicas write a key, and the second one writes another key. -/
def written : Cluster Bool String Nat Nat :=
  (((Cluster.start Bool.toNat).step (ε := Empty) (.call false 0 (.insert "key" 7))).step (ε := Empty)
    (.call true 0 (.insert "key" 8))).step (ε := Empty) (.call true 0 (.insert "other" 3))

/-- The replicas hand each other their logs, and the first one removes the other key and hands over again. -/
def exchange : Cluster Bool String Nat Nat :=
  handOver false ((handOver true (handOver false written)).step (ε := Empty) (.call false 0 (.remove "other")))

private theorem Reachable.handOver {keys : Finset String} {cluster : Cluster Bool String Nat Nat}
    (reached : Reachable Empty Bool.toNat keys cluster) (replica : Bool)
    (unsaturated : ∀ other, (CrdtReplicas.handOver replica cluster other).clock < u64Max)
    (pre : ∀ other, (cluster other).clock < u64Max) :
    Reachable Empty Bool.toNat keys (CrdtReplicas.handOver replica cluster) :=
  .step (.step reached (.snapshot replica) trivial pre) _ (mem_append_right _ mem_cons_self) unsaturated

theorem exchange_shows_lww_view : Reachable Empty Bool.toNat {"key", "other"} exchange ∧
      LwwView (exchange true).operationLog.operations (exchange true).all ∧
      (exchange false).all = (exchange true).all ∧ (exchange true).get "key" = some 8 := by
  have key : "key" ∈ ({"key", "other"} : Finset String) := by decide
  have other : "other" ∈ ({"key", "other"} : Finset String) := by decide
  have began : Reachable Empty Bool.toNat {"key", "other"} written :=
    .step (.step (.step .start (.call false 0 (.insert "key" 7)) key (by decide)) (.call true 0 (.insert "key" 8)) key
      (by decide)) (.call true 0 (.insert "other" 3)) other (by decide)
  have both := (began.handOver false (by decide) (by decide)).handOver true (by decide) (by decide)
  have reached : Reachable Empty Bool.toNat {"key", "other"} exchange :=
    .handOver (.step both (.call false 0 (.remove "other")) other (by decide)) false (by decide) (by decide)
  have shown := replicas_show_lww_view (by decide) (by decide) reached
  have received : (exchange.received false ⊆ exchange.received true) ∧
      exchange.received true ⊆ exchange.received false := by decide
  exact ⟨reached, shown.1 true, shown.2 false true (fun operation => ⟨@received.1 _, @received.2 _⟩), by decide⟩

end ModelGateway.CrdtReplicas
