import ModelGateway.StringTree

/-! Snapshots of the string tree and the merge of one tree into another. -/
namespace ModelGateway.StringTree
open StringText

/-! ### Merging -/

/-- Merges tenants into a node, the newer epoch winning; a tenant that is new there is
counted with the node's characters. -/
def mergeTenants (edgeChars : Nat) : List (TenantId × Nat) → Node → Ledger → Node × Ledger
  | [], node, ledger => (node, ledger)
  | (tenant, epoch) :: rest, node, ledger =>
    match node.tenantLastAccessTime.get? tenant with
    | none => mergeTenants edgeChars rest (node.credit tenant epoch) (ledger.add tenant edgeChars)
    | some localEpoch =>
      if localEpoch < epoch then mergeTenants edgeChars rest (node.credit tenant epoch) ledger
      else mergeTenants edgeChars rest node ledger

/-- `clone_subtree` of every child; also returns the next unused identity. -/
def cloneChildren (parent : Nat) : Children → Nat → Children × Nat
  | .nil, nextId => (.nil, nextId)
  | .cons key node below rest, nextId =>
    let clonedBelow := cloneChildren nextId below (nextId + 1)
    let clonedRest := cloneChildren parent rest clonedBelow.2
    (.cons key { node with id := nextId, parent := some parent } clonedBelow.1 clonedRest.1, clonedRest.2)

/-- Hangs a copy of a subtree under a node and counts its tenants. -/
def graft (parent : Nat) (key : Char) (node : Node) (below : Children) (children : Children)
    (ledger : Ledger) : Children × Ledger :=
  let copy := { node with id := ledger.nextId, parent := some parent }
  let cloned := cloneChildren ledger.nextId below (ledger.nextId + 1)
  (children.put key copy cloned.1,
    ⟨accumulateTenantCounts ledger.tenantCharCount (.cons key copy cloned.1 .nil), cloned.2⟩)

/-- The remote child under one key merged into the local children; `descend` merges the
children of the remote child. -/
def mergeChild (descend : Nat → Children → Ledger → Children × Ledger) (localId : Nat)
    (key : Char) (remoteChild : Node) (remoteBelow : Children) (children : Children)
    (ledger : Ledger) : Children × Ledger :=
  match children.find? key with
  | none => graft localId key remoteChild remoteBelow children ledger
  | some (localChild, localBelow) =>
    let localEdge := localChild.text.text
    let remoteEdge := remoteChild.text.text
    let shared := sharedPrefixCount localEdge remoteEdge
    let remoteTenants := remoteChild.tenantLastAccessTime.toList
    if shared = localEdge.length ∧ shared = remoteEdge.length then
      -- Case 1: the edges are equal
      let merged := mergeTenants localChild.text.charCount remoteTenants localChild ledger
      let next := descend localChild.id localBelow merged.2
      (children.put key merged.1 next.1, next.2)
    else if shared = localEdge.length then
      -- Case 2: the remote edge goes on after the local edge
      let merged := mergeTenants localEdge.length remoteTenants localChild ledger
      let remainder := advanceByChars remoteEdge shared
      match remainder with
      | [] => (children.put key merged.1 localBelow, merged.2)
      | first :: _ =>
        match localBelow.find? first with
        | some (deeper, deeperBelow) =>
          -- the source does not compare the remainder with the deeper edge
          let mergedDeeper := mergeTenants deeper.text.charCount remoteTenants deeper merged.2
          let next := descend deeper.id deeperBelow mergedDeeper.2
          (children.put key merged.1 (localBelow.put first mergedDeeper.1 next.1), next.2)
        | none =>
          let grafted := graft localChild.id first { remoteChild with text := .new remainder }
            remoteBelow localBelow merged.2
          (children.put key merged.1 grafted.1, grafted.2)
    else
      -- Case 3: the edges part, or the remote edge ends inside the local edge
      let split := localChild.text.splitAtChar shared
      match split.2.firstChar with
      | none => (children, ledger)
      | some localFirst =>
        let splitNode : Node := ⟨ledger.nextId, split.1, localChild.tenantLastAccessTime, some localId,
          localChild.lastTenant⟩
        let merged := mergeTenants shared remoteTenants splitNode ledger.allocate
        let pushed := Forest.nil.put localFirst
          { localChild with text := split.2, parent := some splitNode.id } localBelow
        let remainder := advanceByChars remoteEdge shared
        match remainder with
        | [] => (children.put key merged.1 pushed, merged.2)
        | first :: _ =>
          let grafted := graft splitNode.id first { remoteChild with text := .new remainder }
            remoteBelow pushed merged.2
          (children.put key merged.1 grafted.1, grafted.2)

/-- `merge_nodes` on the children of two nodes. -/
def mergeChildren : Children → Nat → Children → Ledger → Children × Ledger
  | .nil, _, children, ledger => (children, ledger)
  | .cons key remoteChild remoteBelow rest, localId, children, ledger =>
    let merged := mergeChild (mergeChildren remoteBelow) localId key remoteChild remoteBelow children
      ledger
    mergeChildren rest localId merged.1 merged.2

def mergeTree (tree remote : Tree) : Tree :=
  let merged := mergeTenants tree.root.text.charCount remote.root.tenantLastAccessTime.toList tree.root
    tree.ledger
  let next := mergeChildren remote.children tree.root.id tree.children merged.2
  ⟨merged.1, next.1, next.2⟩

/-! ### Snapshots -/

structure SnapshotNode where
  edge : List Char
  tenants : List (TenantId × Nat)
  childCount : UInt32
  deriving DecidableEq, Repr

structure TreeSnapshot where
  nodes : List SnapshotNode

/-- A node before its children. -/
def snapshotNode (node : Node) (children : List (Char × List SnapshotNode)) : List SnapshotNode :=
  ⟨node.text.text, node.tenantLastAccessTime.toList, children.length.toUInt32⟩ :: children.flatMap Prod.snd

/-- The snapshots of all children, sorted by their keys. -/
def snapshotChildren : Children → List (Char × List SnapshotNode)
  | .nil => []
  | .cons key node below rest =>
    (snapshotChildren rest).orderedInsert (fun left right => left.1 ≤ right.1)
      (key, snapshotNode node (snapshotChildren below))

def snapshot (tree : Tree) : TreeSnapshot := ⟨snapshotNode tree.root (snapshotChildren tree.children)⟩

/-- Passes over the next subtrees. -/
def skip : Nat → List SnapshotNode → List SnapshotNode
  | 0, nodes => nodes
  | _, [] => []
  | pending + 1, node :: nodes => skip (pending + node.childCount.toNat) nodes

def restoreTenants (edgeChars : Nat) : List (TenantId × Nat) → Node → Ledger → Node × Ledger
  | [], node, ledger => (node, ledger)
  | (tenant, epoch) :: rest, node, ledger =>
    restoreTenants edgeChars rest (node.credit tenant epoch) (ledger.add tenant edgeChars)

/-- The loop over the remaining children of the node `target`; also returns the unread nodes.
Every round reads a node, so as much fuel as there are nodes is enough. -/
def restoreChildren : Nat → Nat → Nat → List SnapshotNode → Children → Ledger →
    Children × List SnapshotNode × Ledger
  | 0, _, _, nodes, children, ledger => (children, nodes, ledger)
  | _ + 1, _, 0, nodes, children, ledger => (children, nodes, ledger)
  | _ + 1, _, _ + 1, [], children, ledger => (children, [], ledger)
  | fuel + 1, target, count + 1, snapNode :: nodes, children, ledger =>
    match snapNode.edge with
    | [] => restoreChildren fuel target count (skip 1 (snapNode :: nodes)) children ledger
    | first :: _ =>
      let restored := restoreTenants snapNode.edge.length snapNode.tenants
        ⟨ledger.nextId, .new snapNode.edge, ∅, some target, none⟩ ledger.allocate
      let below := restoreChildren fuel restored.1.id snapNode.childCount.toNat nodes .nil restored.2
      restoreChildren fuel target count below.2.1 (children.put first restored.1 below.1) below.2.2

def fromSnapshot (snapshot : TreeSnapshot) : Tree :=
  match snapshot.nodes with
  | [] => Tree.new
  | snapNode :: nodes =>
    let restored := restoreTenants snapNode.edge.length snapNode.tenants
      { Tree.new.root with text := .new snapNode.edge } Tree.new.ledger
    let below := restoreChildren nodes.length restored.1.id snapNode.childCount.toNat nodes .nil restored.2
    ⟨restored.1, below.1, below.2.2⟩

def mergeSnapshot (tree : Tree) (snapshot : TreeSnapshot) : Tree :=
  if snapshot.nodes.isEmpty then tree else mergeTree tree (fromSnapshot snapshot)

end ModelGateway.StringTree
