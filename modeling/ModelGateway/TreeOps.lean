import ModelGateway.StringTreeTexts

/-! The operations that stand for a snapshot of a string tree (`mesh/src/tree_ops.rs`).  The nodes of the
snapshot are read in pre-order, with a stack of the prefixes of their parents; the operations go into a log
that drops its older ones when it is full. -/
namespace ModelGateway.TreeOps
open StringTree PathCover List Nat KeyedMap

inductive TreeKey
  | text (text : List Char)
  | tokens (tokens : List UInt32)

structure TreeInsertOp where
  key : TreeKey
  tenant : TenantId

structure TreeRemoveOp where
  tenant : TenantId

inductive TreeOperation
  | insert (op : TreeInsertOp)
  | remove (op : TreeRemoveOp)

def maxTreeOperations : Nat := 2048

structure TreeState where
  modelId : String
  operations : List TreeOperation := []
  version : UInt64 := 0

def TreeState.addOperation (self : TreeState) (operation : TreeOperation) : TreeState :=
  let operations := self.operations ++ [operation]
  { self with
      version := self.version + 1
      operations :=
        if maxTreeOperations < operations.length then
          operations.drop (operations.length - maxTreeOperations / 2)
        else operations }

/-- Where the reading of a snapshot is. The stack has its top first; an entry is the prefix a parent hangs
under and the number of its children that are still to come. -/
structure Reading where
  pathStack : List (List Char × Nat)
  currentPrefix : List Char
  treeState : TreeState

/-- Pops completed parents from the stack, and counts a child of the first that is not. -/
def popCompleted : List (List Char × Nat) → List Char → List (List Char × Nat) × List Char
  | [], currentPrefix => ([], currentPrefix)
  | (parentPrefix, 0) :: rest, _ => popCompleted rest parentPrefix
  | (parentPrefix, remaining + 1) :: rest, currentPrefix =>
    ((parentPrefix, remaining) :: rest, currentPrefix)

def Reading.popped (self : Reading) : List (List Char × Nat) × List Char :=
  popCompleted self.pathStack self.currentPrefix

/-- One turn of the loop of `from_snapshot`. -/
def Reading.next (self : Reading) (node : SnapshotNode) : Reading :=
  let nodePrefix := self.popped.2 ++ node.edge
  let treeState := node.tenants.foldl (fun state entry =>
    if nodePrefix.isEmpty then state
    else state.addOperation (.insert ⟨.text nodePrefix, entry.1⟩)) self.treeState
  if node.childCount.toNat = 0 then ⟨self.popped.1, self.popped.2, treeState⟩
  else ⟨(self.popped.2, node.childCount.toNat) :: self.popped.1, nodePrefix, treeState⟩

def TreeState.fromSnapshot (modelId : String) (snapshot : TreeSnapshot) (version : UInt64) : TreeState :=
  { (snapshot.nodes.foldl Reading.next ⟨[], [], { modelId }⟩).treeState with version }

/-! ### The log -/

variable {state : TreeState} {operations : List TreeOperation}

theorem length_addOperations_le (few : state.operations.length ≤ maxTreeOperations) :
    (operations.foldl TreeState.addOperation state).operations.length ≤ maxTreeOperations := by
  induction operations generalizing state with
  | nil => exact few
  | cons operation rest ih =>
    refine ih ?_
    unfold TreeState.addOperation
    dsimp only
    split
    · rw [length_drop]
      unfold maxTreeOperations at *
      omega
    · exact Nat.le_of_not_lt ‹_›

theorem operations_addOperations (room : state.operations.length + operations.length ≤ maxTreeOperations) :
    (operations.foldl TreeState.addOperation state).operations = state.operations ++ operations := by
  induction operations generalizing state with
  | nil => exact (append_nil _).symm
  | cons operation rest ih =>
    rw [length_cons] at room
    have kept : (state.addOperation operation).operations = state.operations ++ [operation] := by
      refine if_neg ?_
      rw [length_append, length_singleton]
      omega
    rw [foldl_cons, ih, kept, append_assoc, singleton_append]
    rw [kept, length_append, length_singleton]
    omega

/-! ### Reading a snapshot -/

/-- The insertions that make up the entries of a tree: the path of each node for each of its tenants. -/
def insertions (entries : Entries Char Node) : List TreeOperation :=
  entries.flatMap fun entry =>
    entry.2.tenantLastAccessTime.toList.map fun held => .insert ⟨.text entry.1, held.1⟩

variable {reading : Reading} {node : SnapshotNode}

theorem popped_next :
    (reading.next node).popped = popCompleted ((reading.popped.2, node.childCount.toNat) :: reading.popped.1)
      (reading.popped.2 ++ node.edge) := by
  unfold Reading.next
  dsimp only
  split
  · next leaf =>
    rw [leaf]
    rfl
  · rfl

theorem treeState_next : (reading.next node).treeState = node.tenants.foldl (fun state entry =>
    if (reading.popped.2 ++ node.edge).isEmpty then state
    else state.addOperation (.insert ⟨.text (reading.popped.2 ++ node.edge), entry.1⟩))
      reading.treeState := by
  unfold Reading.next
  dsimp only
  split <;> rfl

/-- Reading the listing of some children adds their insertions, and goes on as before them. -/
theorem reads_children {children : Children} {above : Node} (linked : Forest.Hangs Linked above children)
    (distinct : children.Distinct) {outer path : List Char} {count : Nat}
    {parents : List (List Char × Nat)} {reading : Reading}
    (here : reading.popped = popCompleted ((outer, count + (listed children).length) :: parents) path) :
    ((flat children).foldl Reading.next reading).popped = popCompleted ((outer, count) :: parents) path ∧
      ((flat children).foldl Reading.next reading).treeState =
        (insertions (shift path (paths edgeOf children))).foldl TreeState.addOperation
          reading.treeState := by
  induction children generalizing above outer path count parents reading with
  | nil => exact ⟨here, rfl⟩
  | cons key node below rest ihBelow ihRest =>
    obtain ⟨⟨starts, -, -⟩, linkedBelow, linkedRest⟩ := Forest.hangs_cons.mp linked
    obtain ⟨-, distinctBelow, distinctRest⟩ := distinct
    have top : reading.popped = ((outer, count + (listed rest).length) :: parents, path) := here
    have order : flat (.cons key node below rest) = ⟨node.text.text, node.tenantLastAccessTime.toList,
        (listed below).length.toUInt32⟩ :: (flat below ++ flat rest) := rfl
    rw [order, foldl_cons, foldl_append]
    -- the node itself, the nodes below it, and the nodes beside it
    obtain ⟨poppedBelow, stateBelow⟩ := @ihBelow node linkedBelow distinctBelow path
      (path ++ node.text.text) 0 ((outer, count + (listed rest).length) :: parents)
      (reading.next ⟨node.text.text, node.tenantLastAccessTime.toList, (listed below).length.toUInt32⟩)
      (by rw [popped_next, top, zero_add, toNat_childCount distinctBelow])
    obtain ⟨poppedRest, stateRest⟩ := ihRest linkedRest distinctRest poppedBelow
    refine ⟨poppedRest, ?_⟩
    have visible : (path ++ node.text.text).isEmpty = false := by
      cases text : node.text.text with
      | nil => rw [text] at starts; cases starts
      | cons first more => simp
    rw [stateRest, stateBelow, treeState_next, top]
    simp only [visible, Bool.false_eq_true, if_false]
    rw [paths, shift_append, shift_branch, branch]
    simp only [insertions, cons_append, flatMap_cons, flatMap_append, foldl_append, foldl_map, edgeOf]

variable {tree : Tree} {children : Children}

theorem fromSnapshot_snapshot (sound : Sound tree) (modelId : String) (version : UInt64) :
    (TreeState.fromSnapshot modelId (snapshot tree) version).operations =
      ((insertions (paths edgeOf (sortDeep tree.children))).foldl TreeState.addOperation { modelId }).operations := by
  let root : SnapshotNode := ⟨[], tree.root.tenantLastAccessTime.toList,
    (listed (sortDeep tree.children)).length.toUInt32⟩
  have distinct := (shuffled_sortDeep _).distinct.1.mpr sound.distinct
  have order : (snapshot tree).nodes = root :: flat (sortDeep tree.children) := by
    rw [snapshot, snapshotChildren_eq, snapshotNode, sound.rootText]
    rfl
  -- the root has an empty path and no operation
  have still : ((⟨[], [], { modelId }⟩ : Reading).next root).treeState = { modelId } :=
    treeState_next.trans (foldl_fixed' (fun _ => rfl) _)
  have start : ((⟨[], [], { modelId }⟩ : Reading).next root).popped =
      popCompleted [([], 0 + (listed (sortDeep tree.children)).length)] [] := by
    rw [popped_next, show root.childCount.toNat = _ from toNat_childCount distinct, zero_add]
    rfl
  obtain ⟨-, read⟩ := reads_children ((shuffled_sortDeep _).hangs.mpr sound.linked) distinct start
  rw [TreeState.fromSnapshot, order, foldl_cons, read, still]
  simp [shift]

/-! ### Inserting the operations -/

/-- The insertions of texts among the operations, in order, each at its time. -/
def replay (epochs : Nat → Nat) (operations : List TreeOperation) : List Call :=
  operations.zipIdx.filterMap fun
    | (.insert ⟨.text text, tenant⟩, place) => some (.insertText text tenant (epochs place))
    | _ => none

/-- The texts inserted for a tenant. -/
def textsOf (tenant : TenantId) (operations : List TreeOperation) : List (List Char) :=
  operations.filterMap fun
    | .insert ⟨.text text, owner⟩ => if owner = tenant then some text else none
    | _ => none

variable {epochs : Nat → Nat} {text : List Char} {tenant : TenantId}

theorem mem_textsOf : text ∈ textsOf tenant operations ↔ .insert ⟨.text text, tenant⟩ ∈ operations := by
  rw [textsOf, mem_filterMap]
  constructor
  · rintro ⟨operation, mem, shown⟩
    split at shown
    · split at shown
      · next same => cases same; cases shown; exact mem
      · cases shown
    · cases shown
  · exact fun mem => ⟨_, mem, if_pos rfl⟩

theorem mem_replay : (text, tenant) ∈ (replay epochs operations).filterMap Call.insertion ↔
      text ∈ textsOf tenant operations := by
  rw [mem_textsOf, replay, filterMap_filterMap, mem_filterMap]
  constructor
  · rintro ⟨⟨operation, place⟩, mem, shown⟩
    have inside := fst_mem_of_mem_zipIdx mem
    match operation, shown with
    | .insert ⟨.text _, _⟩, rfl => exact inside
  · intro mem
    obtain ⟨place, found⟩ := getElem?_of_mem mem
    exact ⟨(_, place), mem_zipIdx_iff_getElem?.mpr found, rfl⟩

theorem covers_insertions {entries : Entries Char Node} {word : List Char} :
    Covers (owns tenant) entries word ↔ ∃ text ∈ textsOf tenant (insertions entries), word <+: text := by
  simp only [mem_textsOf, insertions, mem_flatMap, mem_map]
  constructor
  · rintro ⟨entry, mem, carried, begins⟩
    obtain ⟨epoch, held⟩ := Option.isSome_iff_exists.mp carried
    exact ⟨entry.1, ⟨entry, mem, (tenant, epoch), mem_toList_iff.mpr held, rfl⟩, begins⟩
  · rintro ⟨_, ⟨entry, mem, held, inside, same⟩, begins⟩
    cases same
    refine ⟨entry, mem, ?_, begins⟩
    show (entry.2.tenantLastAccessTime.get? held.1).isSome = true
    rw [mem_toList_iff.mp inside]
    rfl

/-- From the snapshot of a tree that calls have built, the operations are one insertion for each node below
the root and each of its tenants, and inserting them gives a tree that matches the same, exactly when there
are not more of them than the log holds. -/
theorem snapshot_operations_exact (calls : List Call) (modelId : String) (version : UInt64) :
    let tree := afterCalls calls
    let operations := (TreeState.fromSnapshot modelId (snapshot tree) version).operations
    (operations.Perm (insertions (paths edgeOf tree.children)) ∧ ∀ epochs query tenant epoch,
        (prefixMatchTenant (afterCalls (replay epochs operations)) query tenant epoch).1 =
          (prefixMatchTenant tree query tenant epoch).1) ↔
      (insertions (paths edgeOf tree.children)).length ≤ maxTreeOperations := by
  intro tree operations
  obtain ⟨sound, tidy, -⟩ := afterCalls_orderly calls
  have listing : (insertions (paths edgeOf (sortDeep tree.children))).Perm
      (insertions (paths edgeOf tree.children)) := (paths_shuffled (shuffled_sortDeep _)).flatMap_right _
  have read : operations = _ := fromSnapshot_snapshot sound modelId version
  constructor
  · rintro ⟨exact_, -⟩
    rw [← exact_.length_eq, read]
    exact length_addOperations_le (zero_le _)
  · intro few
    rw [operations_addOperations (by rw [length_nil, zero_add, listing.length_eq]; exact few)] at read
    have whole : operations.Perm (insertions (paths edgeOf tree.children)) := read ▸ listing
    refine ⟨whole, fun epochs query tenant epoch => congrArg (query.take ·) ?_⟩
    obtain ⟨soundAfter, tidyAfter, -⟩ := afterCalls_orderly (replay epochs operations)
    have texts : ∀ text, text ∈ textsOf tenant operations ↔
        text ∈ textsOf tenant (insertions (paths edgeOf tree.children)) := fun text => by
      rw [mem_textsOf, mem_textsOf, whole.mem_iff]
    have pre := sound.matchedChars_eq (tidy.upward tenant) (fun word _ => covers_insertions) query
    refine Eq.trans ?_ pre.symm
    refine soundAfter.matchedChars_eq (tidyAfter.upward tenant) (fun word some => ?_) query
    rw [afterCalls_covers _ tenant some]
    simp only [mem_replay, texts, tree]

theorem snapshot_operations_one :
    (insertions (paths edgeOf (afterCalls [.insertText ['a'] "t" 1]).children)).length ≤ maxTreeOperations ∧
      (TreeState.fromSnapshot "m" (snapshot (afterCalls [.insertText ['a'] "t" 1])) 1).operations.Perm
        (insertions (paths edgeOf (afterCalls [.insertText ['a'] "t" 1]).children)) :=
  ⟨by decide, ((snapshot_operations_exact _ "m" 1).mpr (by decide)).1⟩

/-- Insertions of one text for as many tenants. -/
def crowd (count : Nat) : List Call :=
  (range count).map fun place => .insertText ['a'] (String.ofList (replicate place 'w')) 0

def TreeOperation.owner : TreeOperation → TenantId
  | .insert op => op.tenant
  | .remove op => op.tenant

theorem le_length_crowd (count : Nat) :
    count ≤ (insertions (paths edgeOf (afterCalls (crowd count)).children)).length := by
  have named : (range count).map (fun place => String.ofList (replicate place 'w')) ⊆
      (insertions (paths edgeOf (afterCalls (crowd count)).children)).map TreeOperation.owner := by
    intro name mem
    obtain ⟨place, inside, rfl⟩ := mem_map.mp mem
    have covers := (afterCalls_covers (crowd count) _ (cons_ne_nil 'a' [])).mpr
      ⟨['a'], mem_filterMap.mpr ⟨_, mem_map_of_mem inside, rfl⟩, prefix_rfl⟩
    obtain ⟨text, held, -⟩ := covers_insertions.mp covers
    exact mem_map.mpr ⟨_, mem_textsOf.mp held, rfl⟩
  have once : ((range count).map fun place => String.ofList (replicate place 'w')).Nodup := by
    refine nodup_range.map fun first second same => ?_
    simpa using congrArg String.length same
  simpa using (subperm_of_subset once named).length_le

/-- The log has no room for the operations of 2049 tenants. -/
theorem snapshot_operations_dropped :
    ¬ (TreeState.fromSnapshot "m" (snapshot (afterCalls (crowd 2049))) 1).operations.Perm
      (insertions (paths edgeOf (afterCalls (crowd 2049)).children)) := by
  intro whole
  have most := le_length_crowd 2049
  rw [← whole.length_eq, fromSnapshot_snapshot (afterCalls_orderly _).sound] at most
  exact absurd (most.trans (length_addOperations_le (zero_le _))) (by decide)

end ModelGateway.TreeOps
