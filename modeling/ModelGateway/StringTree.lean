import ModelGateway.KeyedForest
import ModelGateway.KeyedMap
import ModelGateway.StringText

/-! The string radix tree that routes requests by the prefixes each tenant holds. Nodes are
told apart by an identity, as by their `Arc` pointers, and `parent` is the identity a `Weak`
pointer refers to. Epochs, the iteration order of the hash maps and the order of equal
timestamps are arguments of the operations. -/
namespace ModelGateway.StringTree
open StringText

abbrev TenantId := String

/-- A node without its children. -/
structure Node where
  id : Nat
  text : NodeText
  tenantLastAccessTime : KeyedMap TenantId Nat
  parent : Option Nat
  lastTenant : Option TenantId

namespace Node

def carries (node : Node) (tenant : TenantId) : Bool := node.tenantLastAccessTime.contains tenant

/-- `tenant_last_access_time.insert`. -/
def credit (tenant : TenantId) (epoch : Nat) (node : Node) : Node :=
  { node with tenantLastAccessTime := node.tenantLastAccessTime.insert tenant epoch }

/-- `tenant_last_access_time.remove`. -/
def release (tenant : TenantId) (node : Node) : Node :=
  { node with tenantLastAccessTime := node.tenantLastAccessTime.erase tenant }

/-- Changes the node with the given identity. -/
def writeAt (id : Nat) (change : Node → Node) (node : Node) : Node :=
  if node.id = id then change node else node

end Node

/-- The `children` maps: nodes under the first character of their text. -/
abbrev Children := Forest Char Node

/-- `entry(tenant).and_modify(|c| *c += chars).or_insert(chars)`. -/
def addChars (counts : KeyedMap TenantId Nat) (tenant : TenantId) (chars : Nat) :
    KeyedMap TenantId Nat :=
  counts.insert tenant ((counts.get? tenant).getD 0 + chars)

/-- The character counts, and the identity the next new node gets. -/
structure Ledger where
  tenantCharCount : KeyedMap TenantId Nat
  nextId : Nat

namespace Ledger

def add (ledger : Ledger) (tenant : TenantId) (chars : Nat) : Ledger :=
  { ledger with tenantCharCount := addChars ledger.tenantCharCount tenant chars }

def allocate (ledger : Ledger) : Ledger := { ledger with nextId := ledger.nextId + 1 }

end Ledger

structure Tree where
  root : Node
  children : Children
  ledger : Ledger

namespace Tree

variable (tree : Tree)

abbrev tenantCharCount : KeyedMap TenantId Nat := tree.ledger.tenantCharCount

def new : Tree := ⟨⟨0, .empty, ∅, none, none⟩, .nil, ⟨∅, 1⟩⟩

/-- All nodes with their children, the root first. -/
def nodes : List (Node × Children) :=
  (tree.root, tree.children) :: (tree.children.spots tree.root).map fun spot => (spot.node, spot.below)

/-- Follows a pointer. -/
def lookup (id : Nat) : Option (Node × Children) :=
  tree.nodes.find? fun node => node.1.id == id

/-- Writes a node through a pointer. -/
def modify (id : Nat) (change : Node → Node) : Tree :=
  { tree with
    root := tree.root.writeAt id change
    children := tree.children.map (Node.writeAt id change) }

/-- `children.remove` through a pointer to the parent. -/
def removeChild (parent : Nat) (key : Char) : Tree :=
  let pruned := tree.children.prune (fun node => node.id == parent) key
  { tree with children := if tree.root.id = parent then pruned.remove key else pruned }

end Tree

/-! ### Insertion -/

variable (tree : Tree) (tenant : TenantId)

/-- A tenant that is new at a node passed on the way is attached to it, without a timestamp. -/
def attachTenant (chars : Nat) (node : Node) (ledger : Ledger) : Node × Ledger :=
  if node.carries tenant then (node, ledger) else (node.credit tenant 0, ledger.add tenant chars)

/-- The loop of `insert_text`, from the node `prev` with its children on. -/
def insertLoop (tenant : TenantId) (epoch : Nat) :
    Nat → Node → Children → List Char → Ledger → Node × Children × Ledger
  | 0, prev, children, _, ledger => (prev, children, ledger)
  | _ + 1, prev, children, [], ledger => (prev.credit tenant epoch, children, ledger)
  | fuel + 1, prev, children, first :: rest, ledger =>
    let remaining := first :: rest
    match children.find? first with
    | none =>
      let leaf : Node := ⟨ledger.nextId, .new remaining, (∅ : KeyedMap TenantId Nat).insert tenant epoch,
        some prev.id, some tenant⟩
      (prev, children.put first leaf .nil, (ledger.add tenant remaining.length).allocate)
    | some (matched, below) =>
      let sharedCount := sharedPrefixCount remaining matched.text.text
      if sharedCount < matched.text.charCount then
        let split := matched.text.splitAtChar sharedCount
        match split.2.firstChar with
        | none => (prev, children, ledger)
        | some firstNew =>
          let contracted := { matched with text := split.2, parent := some ledger.nextId }
          let attached := attachTenant tenant sharedCount
            ⟨ledger.nextId, split.1, matched.tenantLastAccessTime, some prev.id, matched.lastTenant⟩
            ledger.allocate
          let next := insertLoop tenant epoch fuel attached.1 (Forest.nil.put firstNew contracted below)
            (advanceByChars remaining sharedCount) attached.2
          (prev, children.put first next.1 next.2.1, next.2.2)
      else
        let attached := attachTenant tenant matched.text.charCount matched ledger
        let next := insertLoop tenant epoch fuel attached.1 below
          (advanceByChars remaining sharedCount) attached.2
        (prev, children.put first next.1 next.2.1, next.2.2)

def insertText (text : List Char) (tenant : TenantId) (epoch : Nat) : Tree :=
  let root := if tree.root.carries tenant then tree.root else tree.root.credit tenant 0
  let ledger := if tree.tenantCharCount.contains tenant then tree.ledger else tree.ledger.add tenant 0
  let done := insertLoop tenant epoch (text.length + 1) root tree.children text ledger
  ⟨done.1, done.2.1, done.2.2⟩

/-! ### Matching -/

/-- The nodes a match walks through and the characters it matches. -/
structure Walk where
  visited : List Node
  matchedChars : Nat

/-- The loop of the two match functions, which enter a child only where `enter` allows it. -/
def walk (enter : Node → Bool) : Nat → Children → List Char → Walk
  | 0, _, _ => ⟨[], 0⟩
  | _ + 1, _, [] => ⟨[], 0⟩
  | fuel + 1, children, first :: rest =>
    match children.find? first with
    | none => ⟨[], 0⟩
    | some (node, below) =>
      if enter node then
        let sharedCount := sharedPrefixCount (first :: rest) node.text.text
        if sharedCount = node.text.charCount then
          let next := walk enter fuel below (advanceByChars (first :: rest) sharedCount)
          ⟨node :: next.visited, sharedCount + next.matchedChars⟩
        else ⟨[node], sharedCount⟩
      else ⟨[], 0⟩

structure PrefixMatchResult where
  tenant : TenantId
  matchedCharCount : Nat
  inputCharCount : Nat
  deriving DecidableEq, Repr

/-- The cached tenant if it still holds, else the first tenant in iteration order, which is
then cached. -/
def Node.selectTenant (order : Nat) (node : Node) : TenantId × Node :=
  let first := ((node.tenantLastAccessTime.keys.rotate order).head?).getD "empty"
  match node.lastTenant with
  | some tenant =>
    if node.carries tenant then (tenant, node) else (first, { node with lastTenant := some first })
  | none => (first, { node with lastTenant := some first })

/-- What a match writes to the node it ends at. -/
def Node.recordMatch (order epoch : Nat) (node : Node) : Node :=
  let selected := node.selectTenant order
  if epoch % 8 = 0 ∧ selected.1 ≠ "empty" then selected.2.credit selected.1 epoch else selected.2

def matchPrefixWithCounts (text : List Char) (order epoch : Nat) :
    PrefixMatchResult × Tree :=
  let walked := walk (fun _ => true) (text.length + 1) tree.children text
  let curr := walked.visited.getLastD tree.root
  (⟨(curr.selectTenant order).1, walked.matchedChars, text.length⟩,
    tree.modify curr.id (Node.recordMatch order epoch))

def prefixMatchTenant (text : List Char) (tenant : TenantId) (epoch : Nat) :
    List Char × Tree :=
  let walked := walk (fun node => node.carries tenant) (text.length + 1) tree.children text
  let curr := walked.visited.getLastD tree.root
  (takeChars text walked.matchedChars,
    if curr.carries tenant then tree.modify curr.id (Node.credit tenant epoch) else tree)

/-! ### Eviction -/

/-- Whether a child in a `children` map carries the tenant. -/
def anyChildCarries (children : Children) : Bool :=
  children.tops.any fun child => child.carries tenant

/-- The tenants for which a node is a leaf: no child of it carries them. -/
def leafOf (node : Node) (children : Children) : List TenantId :=
  node.tenantLastAccessTime.keys.filter fun tenant => !anyChildCarries tenant children

structure EvictionEntry where
  timestamp : Nat
  tenant : TenantId
  node : Nat
  deriving DecidableEq, Repr

def leafEntries (node : Node × Children) : List EvictionEntry :=
  (leafOf node.1 node.2).filterMap fun tenant =>
    (node.1.tenantLastAccessTime.get? tenant).map fun timestamp => ⟨timestamp, tenant, node.1.id⟩

/-- Pops an entry with the least timestamp; `tie` chooses among several. -/
def popEntry (tie : Nat) (queue : List EvictionEntry) : Option (EvictionEntry × List EvictionEntry) :=
  let least := queue.filter fun entry => queue.all fun other => entry.timestamp ≤ other.timestamp
  ((least.rotate tie).head?).map fun entry => (entry, queue.erase entry)

/-- The parent becomes a leaf for the tenant once no child of it carries the tenant. -/
def parentEntry (parent : Nat) : Option EvictionEntry :=
  match tree.lookup parent with
  | none => none
  | some (node, children) =>
    if node.carries tenant ∧ anyChildCarries tenant children = false then
      (node.tenantLastAccessTime.get? tenant).map fun timestamp => ⟨timestamp, tenant, parent⟩
    else none

/-- Takes the tenant from a node that is a leaf for it; a node left without tenants and
children is unlinked from its parent. -/
def evictLeaf (node : Node) (children : Children) :
    List EvictionEntry × Tree :=
  let counts := match tree.tenantCharCount.get? tenant with
    | some count => tree.tenantCharCount.insert tenant (count - node.text.charCount)
    | none => tree.tenantCharCount
  let released := { tree.modify node.id (Node.release tenant) with
    ledger := { tree.ledger with tenantCharCount := counts } }
  match node.parent with
  | none => ([], released)
  | some parent =>
    let unlinked :=
      if children.isEmpty ∧ (node.release tenant).tenantLastAccessTime.isEmpty then
        match node.text.firstChar with
        | some first => released.removeChild parent first
        | none => released
      else released
    ((parentEntry unlinked tenant parent).toList, unlinked)

/-- One round of the eviction loop. -/
def evictEntry (maxSize : Nat) (tree : Tree) (entry : EvictionEntry) : List EvictionEntry × Tree :=
  if (tree.tenantCharCount.get? entry.tenant).any (· ≤ maxSize) then ([], tree)
  else match tree.lookup entry.node with
    | none => ([], tree)
    | some (node, children) =>
      if node.carries entry.tenant ∧ anyChildCarries entry.tenant children = false then
        evictLeaf tree entry.tenant node children
      else ([], tree)

/-- The eviction loop; returns what is left of the queue. -/
def evictLoop (maxSize : Nat) (ties : Nat → Nat) :
    Nat → List EvictionEntry → Tree → List EvictionEntry × Tree
  | 0, queue, tree => (queue, tree)
  | fuel + 1, queue, tree =>
    match popEntry (ties fuel) queue with
    | none => (queue, tree)
    | some (entry, rest) =>
      let round := evictEntry maxSize tree entry
      evictLoop maxSize ties fuel (round.1 ++ rest) round.2

/-- The tenants carried by nodes, each counted once per node. -/
def Tree.ownerships : Nat :=
  tree.root.tenantLastAccessTime.size + tree.children.total fun node => node.tenantLastAccessTime.size

/-- Every round takes an entry from the queue, and adds one only when a node loses a tenant. -/
def evictTenantBySize (maxSize : Nat) (ties : Nat → Nat) : Tree :=
  let queue := tree.nodes.flatMap leafEntries
  (evictLoop maxSize ties (queue.length + tree.ownerships) queue tree).2

/-- The nodes below the root that carry the tenant, with their timestamps. -/
def collectTenantNodes : List (Nat × Nat) :=
  (tree.children.spots tree.root).filterMap fun spot =>
    (spot.node.tenantLastAccessTime.get? tenant).map fun timestamp => (spot.node.id, timestamp)

def removeTenantFromNode (id : Nat) : Tree :=
  tree.modify id (Node.release tenant)

/-- Removes the tenant from the nodes in turn until enough characters are evicted; also
returns how many were. -/
def evictNodes (tenant : TenantId) (charsToEvict : Nat) :
    List (Nat × Nat) → Nat → Tree → Nat × Tree
  | [], evicted, tree => (evicted, tree)
  | (id, _) :: rest, evicted, tree =>
    if charsToEvict ≤ evicted then (evicted, tree)
    else
      let nodeChars := match tree.lookup id with
        | some (node, _) => if node.carries tenant then node.text.charCount else 0
        | none => 0
      evictNodes tenant charsToEvict rest (evicted + nodeChars) (removeTenantFromNode tree tenant id)

/-- `order` decides between equal timestamps. -/
def evictTenantEntries (charsToEvict : Nat) (order : Nat → Nat) :
    Tree :=
  if charsToEvict = 0 then tree
  else
    let sorted := (collectTenantNodes tree tenant).insertionSort fun left right =>
      left.2 < right.2 ∨ left.2 = right.2 ∧ order left.1 ≤ order right.1
    let done := evictNodes tenant charsToEvict sorted 0 tree
    match done.2.tenantCharCount.get? tenant with
    | some count => { done.2 with
        ledger := { done.2.ledger with
          tenantCharCount := done.2.tenantCharCount.insert tenant (count - done.1) } }
    | none => done.2

def evictByTenant (maxChars : Nat) (order : Nat → Nat) : Tree :=
  let currentCount := (tree.tenantCharCount.get? tenant).getD 0
  if currentCount ≤ maxChars then tree
  else evictTenantEntries tree tenant (currentCount - maxChars) order

def removeTenantAll : Tree :=
  let rootless := removeTenantFromNode tree tenant tree.root.id
  let done := (collectTenantNodes rootless tenant).foldl
    (fun tree node => removeTenantFromNode tree tenant node.1) rootless
  { done with ledger := { done.ledger with
      tenantCharCount := done.tenantCharCount.erase tenant } }

def clear : Tree :=
  { tree with
    root := { tree.root with text := .new [], tenantLastAccessTime := ∅ }
    children := .nil
    ledger := { tree.ledger with tenantCharCount := ∅ } }

/-! ### Sizes -/

/-- Adds a node's characters to the count of each tenant it carries. -/
def countNode (counts : KeyedMap TenantId Nat) (node : Node) : KeyedMap TenantId Nat :=
  node.tenantLastAccessTime.keys.foldl (fun counts tenant => addChars counts tenant node.text.charCount) counts

def accumulateTenantCounts (counts : KeyedMap TenantId Nat) : Children → KeyedMap TenantId Nat
  | .nil => counts
  | .cons _ node below rest =>
    accumulateTenantCounts (accumulateTenantCounts (countNode counts node) below) rest

/-- The sizes recomputed from all nodes. -/
def getUsedSizePerTenant : KeyedMap TenantId Nat :=
  accumulateTenantCounts (countNode ∅ tree.root) tree.children

end ModelGateway.StringTree
