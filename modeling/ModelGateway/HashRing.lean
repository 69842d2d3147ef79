import ModelGateway.FirstOccurrences
import ModelGateway.KeyedMap

/-! The consistent hash ring that chooses the owners of a rate-limit key (`consistent_hash.rs`).
The 64-bit hash of a string is a parameter. -/
namespace ModelGateway.HashRing

def virtualNodesPerNode : Nat := 150

def numOwners : Nat := 3

abbrev Hash := Fin (2 ^ 64)

structure ConsistentHashRing where
  ring : KeyedMap Hash String := ∅
  nodeHashes : KeyedMap String (KeyedSet Hash) := ∅

namespace ConsistentHashRing

def new : ConsistentHashRing := {}

def virtualNode (nodeName : String) (i : Nat) : String := nodeName ++ ":" ++ toString i

variable (hash : String → Hash)

/-- The positions of a node, in the order they are computed. -/
def virtualHashes (nodeName : String) : List Hash :=
  (List.range virtualNodesPerNode).map fun i => hash (virtualNode nodeName i)

def addNode (nodeName : String) (self : ConsistentHashRing) :
    ConsistentHashRing :=
  if self.nodeHashes.contains nodeName then self
  else
    { ring := (virtualHashes hash nodeName).foldl (fun ring h => ring.insert h nodeName) self.ring
      nodeHashes := self.nodeHashes.insert nodeName ((virtualHashes hash nodeName).foldl KeyedSet.insert ∅) }

def removeNode (nodeName : String) (self : ConsistentHashRing) : ConsistentHashRing :=
  match self.nodeHashes.get? nodeName with
  | none => self
  | some hashes =>
    { ring := hashes.toList.foldl KeyedMap.erase self.ring
      nodeHashes := self.nodeHashes.erase nodeName }

def updateMembership (nodes : List String) (self : ConsistentHashRing) :
    ConsistentHashRing :=
  let currentNodes := self.nodeHashes.keys
  let newNodes := (nodes.foldl KeyedSet.insert ∅ : KeyedSet String).toList
  let removed := (currentNodes.filter (· ∉ newNodes)).foldl (fun ring node => ring.removeNode node) self
  (newNodes.filter (· ∉ currentNodes)).foldl (fun ring node => ring.addNode hash node) removed

/-- The loop of `get_owners`. `iter` holds the nodes the iterator has still to give; `all` is what
it gives after wrapping around. `none` is a loop that has not ended within the fuel. -/
def ownersLoop (all : List String) (totalUniqueNodes : Nat) :
    Nat → List String → List String → KeyedSet String → Option (List String)
  | 0, _, _, _ => none
  | fuel + 1, iter, owners, seenNodes =>
    if owners.length < numOwners ∧ seenNodes.size < totalUniqueNodes then
      match iter with
      | node :: iter =>
        if node ∈ seenNodes then ownersLoop all totalUniqueNodes fuel iter owners seenNodes
        else ownersLoop all totalUniqueNodes fuel iter (owners ++ [node]) (seenNodes.insert node)
      | [] => ownersLoop all totalUniqueNodes fuel all owners seenNodes
    else some owners

/-- `range(key_hash..)`. -/
def rangeFrom (keyHash : Hash) (self : ConsistentHashRing) : List (Hash × String) :=
  self.ring.ascending.filter fun entry => keyHash ≤ entry.1

def getOwners (fuel : Nat) (key : String) (self : ConsistentHashRing) :
    Option (List String) :=
  if self.ring.isEmpty then some []
  else ownersLoop (self.ring.ascending.map Prod.snd) self.nodeHashes.size fuel
    ((self.rangeFrom (hash key)).map Prod.snd) [] ∅

/-- The call returns these owners: the loop ends, however much fuel there is beyond. -/
def Returns (key : String) (self : ConsistentHashRing) (owners : List String) :
    Prop :=
  ∃ enough, ∀ fuel, enough ≤ fuel → self.getOwners hash fuel key = some owners

/-- The ring built from a listing of nodes. -/
def build (listing : List String) : ConsistentHashRing :=
  listing.foldl (fun ring node => ring.addNode hash node) new

/-- Equal maps: the same positions for the same nodes, and for each node the same set. -/
def Same (first second : ConsistentHashRing) : Prop :=
  (∀ h, first.ring.get? h = second.ring.get? h) ∧
    ∀ node, Option.Rel (fun hashes others => ∀ h, h ∈ hashes ↔ h ∈ others)
      (first.nodeHashes.get? node) (second.nodeHashes.get? node)

/-- A call that changes the ring. -/
inductive Call
  | add (nodeName : String)
  | remove (nodeName : String)
  | update (nodes : List String)

def Call.run (self : ConsistentHashRing) : Call → ConsistentHashRing
  | .add nodeName => self.addNode hash nodeName
  | .remove nodeName => self.removeNode nodeName
  | .update nodes => self.updateMembership hash nodes

/-- The node set a call makes out of a node set. -/
def Call.nodes (nodes : Finset String) : Call → Finset String
  | .add nodeName => insert nodeName nodes
  | .remove nodeName => nodes.erase nodeName
  | .update listing => listing.toFinset

/-- Virtual nodes of two nodes of the set never share a position. -/
def CollisionFree (nodes : Finset String) : Prop :=
  ∀ first ∈ nodes, ∀ second ∈ nodes, ∀ h, h ∈ virtualHashes hash first →
    h ∈ virtualHashes hash second → first = second

/-- The rings that histories of calls leave, each with the resulting node set. No node set on the
way has colliding virtual nodes. -/
inductive Reached (hash : String → Hash) : ConsistentHashRing → Finset String → Prop
  | new : Reached hash new ∅
  | call {self : ConsistentHashRing} {nodes : Finset String} (call : Call) : Reached hash self nodes →
      CollisionFree hash (call.nodes nodes) → Reached hash (call.run hash self) (call.nodes nodes)

end ConsistentHashRing
end ModelGateway.HashRing
