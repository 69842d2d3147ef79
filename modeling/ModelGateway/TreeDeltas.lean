import ModelGateway.TreeOps

/-! Deltas of a tree state (`apply_remote_tree_delta` of `mesh/src/sync.rs`): the operations between two versions
of a log.  A receiver that is sent pieces of one log in any order holds a beginning of the log, as long as no
piece begins before the version it holds and ends behind it. -/
namespace ModelGateway.TreeOps
open List Nat

structure TreeStateDelta where
  modelId : String
  operations : List TreeOperation
  baseVersion : UInt64
  newVersion : UInt64

/-- What `tree_configs` holds for a model: no bytes, bytes that are not a tree state, or a tree state. -/
inductive Config
  | empty
  | unreadable
  | state (state : TreeState)

def Config.version : Config → UInt64
  | .state held => held.version
  | _ => 0

/-- `apply_remote_tree_delta` on the entry of the model. -/
def applyRemoteTreeDelta (entry : Option Config) (delta : TreeStateDelta) : Option Config :=
  let applied (state : TreeState) := some (.state (delta.operations.foldl .addOperation state))
  match entry with
  | none => if 0 < delta.baseVersion then none else applied { modelId := delta.modelId }
  | some config =>
    if config.version < delta.baseVersion ∨ delta.newVersion ≤ config.version then entry
    else
      match config with
      | .empty => applied { modelId := delta.modelId }
      | .unreadable => entry
      | .state state => applied state

variable (log : List TreeOperation)

/-- The operations between two versions of a log. -/
structure TreeStateDelta.CutFrom (delta : TreeStateDelta) : Prop where
  ordered : delta.baseVersion ≤ delta.newVersion
  within : delta.newVersion.toNat ≤ log.length
  operations : delta.operations = (log.take delta.newVersion.toNat).drop delta.baseVersion.toNat

/-- A state holds as many operations of a log as its version says, unless they are too many to be kept. -/
def TreeState.Begins (state : TreeState) : Prop :=
  state.version.toNat ≤ log.length ∧
    (state.version.toNat ≤ maxTreeOperations → state.operations = log.take state.version.toNat)

/-- An entry without operations, or with a beginning of a log. -/
def HoldsPrefix : Option Config → Prop
  | none | some .empty => True
  | some .unreadable => False
  | some (.state state) => state.Begins log

/-- The delta does not begin before the version that is held and end behind it. -/
def Apart : Option Config → TreeStateDelta → Prop
  | none, _ => True
  | some config, delta => delta.newVersion ≤ config.version ∨ config.version ≤ delta.baseVersion

/-- No delta overlaps the version it is delivered to. -/
def AllApart : Option Config → List TreeStateDelta → Prop
  | _, [] => True
  | entry, delta :: rest => Apart entry delta ∧ AllApart (applyRemoteTreeDelta entry delta) rest

variable {log : List TreeOperation} {delta : TreeStateDelta} {entry : Option Config} {state : TreeState}

theorem version_addOperations (operations : List TreeOperation) :
    (operations.foldl .addOperation state).version = state.version + UInt64.ofNat operations.length := by
  induction operations generalizing state with
  | nil => simp
  | cons op rest ih =>
    rw [foldl_cons, ih, length_cons, Nat.add_comm, UInt64.ofNat_add, ← UInt64.add_assoc]
    rfl

theorem TreeState.Begins.applied (begins : state.Begins log) (cut : delta.CutFrom log)
    (next : state.version = delta.baseVersion) :
    (delta.operations.foldl .addOperation state).Begins log := by
  have ordered : delta.baseVersion.toNat ≤ delta.newVersion.toNat := UInt64.le_iff_toNat_le.mp cut.ordered
  have length : delta.operations.length = delta.newVersion.toNat - delta.baseVersion.toNat := by
    rw [cut.operations, length_drop, length_take, min_eq_left cut.within]
  have version : (delta.operations.foldl .addOperation state).version = delta.newVersion := by
    rw [version_addOperations, next, length, UInt64.ofNat_sub ordered, UInt64.ofNat_toNat, UInt64.ofNat_toNat,
      UInt64.add_comm, UInt64.sub_add_cancel]
  rw [TreeState.Begins, version]
  refine ⟨cut.within, fun room => ?_⟩
  have held : state.operations = log.take delta.baseVersion.toNat := by
    rw [begins.2 (next ▸ ordered.trans room), next]
  have few : (log.take delta.baseVersion.toNat).length ≤ delta.baseVersion.toNat := length_take_le _ _
  have split := take_append_drop delta.baseVersion.toNat (log.take delta.newVersion.toNat)
  rw [take_take, min_eq_left ordered, ← cut.operations] at split
  rw [operations_addOperations (by rw [held, length]; omega), held, split]

/-- One delivery keeps a beginning of the log. -/
theorem HoldsPrefix.apply (held : HoldsPrefix log entry) (cut : delta.CutFrom log) (apart : Apart entry delta) :
    HoldsPrefix log (applyRemoteTreeDelta entry delta) := by
  have fresh (zero : delta.baseVersion = 0) :
      (delta.operations.foldl .addOperation (TreeState.mk delta.modelId [] 0)).Begins log :=
    TreeState.Begins.applied ⟨zero_le _, fun _ => rfl⟩ cut zero.symm
  cases entry with
  | none =>
    dsimp only [applyRemoteTreeDelta]
    split
    · trivial
    · next first =>
      exact fresh (UInt64.le_antisymm (UInt64.not_lt.mp first) (UInt64.le_iff_toNat_le.mpr (zero_le _)))
  | some config =>
    dsimp only [applyRemoteTreeDelta]
    split
    · exact held
    · next accepted =>
      have reached : config.version = delta.baseVersion := by
        rw [not_or, UInt64.not_lt, UInt64.not_le] at accepted
        rcases apart with old | ahead
        · exact absurd old (UInt64.not_le.mpr accepted.2)
        · exact UInt64.le_antisymm ahead accepted.1
      cases config with
      | empty => exact fresh reached.symm
      | unreadable => exact held
      | state state => exact TreeState.Begins.applied held cut reached

/-- Deltas of one log, delivered in any order, again and again or not at all, leave the receiver with a
beginning of the log when none of them overlaps the version it is delivered to. -/
theorem deltas_hold_prefix {deltas : List TreeStateDelta} (start : HoldsPrefix log entry)
    (cut : ∀ delta ∈ deltas, delta.CutFrom log) (apart : AllApart entry deltas) :
    HoldsPrefix log (deltas.foldl applyRemoteTreeDelta entry) := by
  induction deltas generalizing entry with
  | nil => exact start
  | cons delta rest ih =>
    rw [forall_mem_cons] at cut
    exact ih (start.apply cut.1 apart.1) cut.2 apart.2

/-- A log of three operations, and its pieces. -/
def threeOperations : List TreeOperation := [.remove ⟨"a"⟩, .remove ⟨"b"⟩, .remove ⟨"c"⟩]

def piece (base new : UInt64) : TreeStateDelta :=
  ⟨"m", (threeOperations.take new.toNat).drop base.toNat, base, new⟩

theorem piece_cut {base new : UInt64} (ordered : base ≤ new) (within : new.toNat ≤ 3) :
    (piece base new).CutFrom threeOperations := ⟨ordered, within, rfl⟩

/-- A gap, a piece, the piece again, and the rest. -/
theorem pieces_hold_prefix : HoldsPrefix threeOperations
    ([piece 1 3, piece 0 1, piece 0 1, piece 1 3].foldl applyRemoteTreeDelta none) :=
  deltas_hold_prefix trivial (by simp [piece_cut]) ⟨trivial, trivial, .inl (by decide), .inr (by decide), trivial⟩

/-- A piece that begins before the version that is held and ends behind it is appended whole: what it shares
with the state stands there twice. -/
theorem overlap_appended_twice : (∀ delta ∈ [piece 0 2, piece 1 3], delta.CutFrom threeOperations) ∧
    [piece 0 2, piece 1 3].foldl applyRemoteTreeDelta none = some (.state
      ⟨"m", [.remove ⟨"a"⟩, .remove ⟨"b"⟩, .remove ⟨"b"⟩, .remove ⟨"c"⟩], 4⟩) ∧
    ¬ HoldsPrefix threeOperations ([piece 0 2, piece 1 3].foldl applyRemoteTreeDelta none) :=
  ⟨by simp [piece_cut], rfl, fun held => absurd held.1 (by decide)⟩

end ModelGateway.TreeOps
