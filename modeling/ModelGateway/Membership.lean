import ModelGateway.KeyedMap

/-! Cluster membership: the node lists that gossip merges (`ping_server.rs`), the answers to pings
and the failure detector (`controller.rs`). A ping carries the full list of the node that sends it;
its answer may be adopted any time later. -/
namespace ModelGateway.Membership
open List Function KeyedMap Option Nat

inductive NodeStatus
  | init
  | alive
  | suspected
  | down
  | leaving
  deriving DecidableEq, Repr

structure NodeState where
  name : String
  address : String
  status : NodeStatus
  version : Nat
  metadata : List (String × List UInt8)
  deriving DecidableEq, Repr

/-- The answer to a ping. -/
structure NodeUpdate where
  name : String
  address : String
  status : NodeStatus
  deriving DecidableEq, Repr

/-- `ClusterState`: the members a node knows, by name. -/
abbrev ClusterState := KeyedMap String NodeState

/-- One incoming node of `merge_state`. -/
def mergeNode (state : ClusterState) (node : NodeState) : ClusterState :=
  match state.get? node.name with
  | some entry => if entry.version < node.version then state.insert node.name node else state
  | none => state.insert node.name node

def mergeState (incomingNodes : List NodeState) (state : ClusterState) : ClusterState :=
  incomingNodes.foldl mergeNode state

/-- The answer of a node to a ping: its own status as it stands in its list. -/
def nodeUpdate (selfName advertiseAddr : String) (state : ClusterState) : NodeUpdate :=
  ⟨selfName, advertiseAddr, ((state.get? selfName).map NodeState.status).getD .alive⟩

/-- What a successful ping makes of the entry of the peer. -/
def updatedPeer (update : NodeUpdate) : Option NodeState → NodeState
  | some entry => { entry with status := update.status, address := update.address }
  | none => ⟨update.name, update.address, update.status, 1, []⟩

/-- A successful ping: the peer's status is adopted when it is alive or leaving. -/
def adopt (update : NodeUpdate) (state : ClusterState) : ClusterState :=
  if update.status = .alive ∨ update.status = .leaving then
    state.insert update.name (updatedPeer update (state.get? update.name))
  else state

/-- What is broadcast of a peer that neither answers nor is reached by others. Versions wrap. -/
def unreachableNode (entry : NodeState) : NodeState :=
  { entry with
    status := if entry.status = .suspected then .down else .suspected
    version := (entry.version + 1) % 2 ^ 64 }

/-! ### Gossip -/

/-- The nodes, the lists sent so far with their senders, and the answers not yet adopted with the
nodes they are for. -/
structure Cluster (ι : Type) where
  name : ι → String
  address : ι → String
  states : ι → ClusterState
  sent : List (ι × List NodeState)
  answers : List (ι × NodeUpdate)

instance {ι : Type} : CoeFun (Cluster ι) fun _ => ι → ClusterState := ⟨Cluster.states⟩

/-- Every node knows itself at first. -/
def Cluster.new {ι : Type} (name address : ι → String) : Cluster ι where
  name := name
  address := address
  states node := insert ∅ (name node) ⟨name node, address node, .alive, 1, []⟩
  sent := []
  answers := []

/-- A node sends its full list; a peer that is pinged merges the list and answers; a node merges a
list that was broadcast; a node adopts an answer; a node broadcasts that a peer is unreachable. -/
inductive Step (ι : Type)
  | send (node : ι)
  | ping (node peer : ι) (list : List NodeState)
  | merge (node : ι) (list : List NodeState)
  | adopt (node : ι) (update : NodeUpdate)
  | unreachable (node : ι) (peerName : String)

namespace Step
variable {ι : Type}

def Enabled (cluster : Cluster ι) : Step ι → Prop
  | .send _ => True
  | .ping node _ list => (node, list) ∈ cluster.sent
  | .merge _ list => ∃ sender, (sender, list) ∈ cluster.sent
  | .adopt node update => (node, update) ∈ cluster.answers
  | .unreachable node peerName => (cluster.states node).contains peerName = true

variable [DecidableEq ι]

def run (cluster : Cluster ι) : Step ι → Cluster ι
  | .send node => { cluster with sent := cluster.sent ++ [(node, (cluster.states node).values)] }
  | .ping node peer list =>
    let merged := mergeState list (cluster.states peer)
    { cluster with
      states := update cluster.states peer merged
      answers := cluster.answers ++ [(node, nodeUpdate (cluster.name peer) (cluster.address peer) merged)] }
  | .merge node list => { cluster with
      states := update cluster.states node (mergeState list (cluster.states node)) }
  | .adopt node update => { cluster with
      states := Function.update cluster.states node (Membership.adopt update (cluster.states node)) }
  | .unreachable node peerName => { cluster with
      sent := cluster.sent ++ [(node, ((cluster.states node).get? peerName).toList.map unreachableNode)] }

end Step

inductive Reachable {ι : Type} [DecidableEq ι] (allowed : Cluster ι → Step ι → Prop) : Cluster ι → Prop
  | new (name address : ι → String) : Reachable allowed (.new name address)
  | step {cluster : Cluster ι} (step : Step ι) : Reachable allowed cluster → step.Enabled cluster →
      allowed cluster step → Reachable allowed (step.run cluster)

/-- A node's list after it has merged the full lists of some nodes, as they are, in an order. -/
def exchange {ι : Type} (cluster : Cluster ι) (order : List ι) (node : ι) : ClusterState :=
  order.foldl (fun state other => mergeState (cluster.states other).values state) (cluster.states node)

/-! ### Merging -/

/-- Members are listed under their names. -/
def Named (state : ClusterState) : Prop := ∀ name node, state.get? name = some node → node.name = name

theorem named_new (name : String) {node : NodeState} (same : node.name = name) : Named (insert ∅ name node) := by
  intro probe found held
  rw [get?_insert] at held
  split at held
  · rename_i here
    obtain rfl := some.inj held
    rw [same, here]
  · cases held

theorem mergeNode_cases (state : ClusterState) (node : NodeState) :
    (mergeNode state node = state.insert node.name node ∧
        ∀ entry, state.get? node.name = some entry → entry.version < node.version) ∨
      (mergeNode state node = state ∧ ∃ entry, state.get? node.name = some entry ∧ node.version ≤ entry.version) := by
  rw [mergeNode]
  cases held : state.get? node.name with
  | none => exact .inl ⟨rfl, fun _ found => (by cases found)⟩
  | some entry =>
    by_cases newer : entry.version < node.version
    · refine .inl ⟨if_pos newer, fun other found => ?_⟩
      obtain rfl := some.inj found
      exact newer
    · exact .inr ⟨if_neg newer, entry, rfl, not_lt.mp newer⟩

/-- What a node holds of a member after a merge. -/
structure Merged (incoming : List NodeState) (pre post : ClusterState) : Prop where
  named : Named post
  source : ∀ name node, post.get? name = some node → pre.get? name = some node ∨ node ∈ incoming
  kept : ∀ name node, pre.get? name = some node →
    ∃ later, post.get? name = some later ∧ node.version ≤ later.version
  taken : ∀ node ∈ incoming, ∃ later, post.get? node.name = some later ∧ node.version ≤ later.version

variable {state : ClusterState} {ι : Type} {node : ι} {name : String} {entry : NodeState}

theorem merged_node (named : Named state) (node : NodeState) : Merged [node] state (mergeNode state node) := by
  rcases mergeNode_cases state node with ⟨same, newer⟩ | ⟨same, entry, held, older⟩
  · rw [same]
    refine ⟨forall_insert named rfl, forall_insert (fun _ _ => .inl) (.inr mem_cons_self),
      fun name found held => ?_, fun other mem => ?_⟩
    · rw [get?_insert]
      by_cases here : name = node.name
      · rw [if_pos here]
        exact ⟨node, rfl, le_of_lt (newer found (here ▸ held))⟩
      · rw [if_neg here]
        exact ⟨found, held, le_rfl⟩
    · obtain rfl := mem_singleton.mp mem
      exact ⟨other, get?_insert_self .., le_rfl⟩
  · rw [same]
    refine ⟨named, fun _ _ found => .inl found, fun _ found found' => ⟨found, found', le_rfl⟩, ?_⟩
    intro other mem
    obtain rfl := mem_singleton.mp mem
    exact ⟨entry, held, older⟩

theorem Merged.trans {first second : List NodeState} {pre middle post : ClusterState}
    (one : Merged first pre middle) (two : Merged second middle post) :
    Merged (first ++ second) pre post := by
  refine ⟨two.named, fun name node held => ?_, fun name node held => ?_, fun node mem => ?_⟩
  · rcases two.source name node held with earlier | new
    · exact (one.source name node earlier).imp_right (mem_append_left _)
    · exact .inr (mem_append_right _ new)
  · obtain ⟨later, held', above⟩ := one.kept name node held
    obtain ⟨last, held'', above'⟩ := two.kept name later held'
    exact ⟨last, held'', le_trans above above'⟩
  · rcases mem_append.mp mem with old | new
    · obtain ⟨later, held', above⟩ := one.taken node old
      obtain ⟨last, held'', above'⟩ := two.kept node.name later held'
      exact ⟨last, held'', le_trans above above'⟩
    · exact two.taken node new

theorem merged_mergeState (incoming : List NodeState) (named : Named state) :
    Merged incoming state (mergeState incoming state) := by
  induction incoming generalizing state with
  | nil =>
    exact ⟨named, fun _ _ held => .inl held, fun _ node held => ⟨node, held, le_rfl⟩, forall_mem_nil _⟩
  | cons node rest ih =>
    have first := merged_node named node
    exact first.trans (ih first.named)

theorem exchange_eq (cluster : Cluster ι) (order : List ι) (node : ι) :
    exchange cluster order node = mergeState (order.flatMap fun other => (cluster other).values) (cluster node) :=
  foldl_flatMap.symm

theorem mergeState_keeps {incoming : List NodeState} (held : state.get? name = some entry)
    (newest : ∀ node ∈ incoming, node.name = name → node.version ≤ entry.version) :
    (mergeState incoming state).get? name = some entry := by
  induction incoming generalizing state with
  | nil => exact held
  | cons node rest ih =>
    refine ih ?_ fun other mem => newest other (mem_cons_of_mem _ mem)
    rcases mergeNode_cases state node with ⟨same, newer⟩ | ⟨same, -⟩
    · rw [same, get?_insert, if_neg, held]
      rintro rfl
      exact absurd (newer entry held) (not_lt.mpr (newest node mem_cons_self rfl))
    · rw [same, held]

theorem exchange_keeps {cluster : Cluster ι} (held : (cluster node).get? name = some entry)
    (newest : ∀ other, ∀ state ∈ (cluster other).values, state.name = name →
      state.version ≤ entry.version) (order : List ι) :
    (exchange cluster order node).get? name = some entry := by
  rw [exchange_eq]
  refine mergeState_keeps held fun state mem => ?_
  obtain ⟨other, -, inside⟩ := mem_flatMap.mp mem
  exact newest other state inside

/-! ### One status for one version -/

section Runs
variable {ι : Type}

/-- Another state of the same member and version says the same status. -/
def Agree (first second : NodeState) : Prop :=
  first.name = second.name → first.version = second.version → first.status = second.status

/-- Every state that a node holds or a list carries. -/
def Present (cluster : Cluster ι) (state : NodeState) : Prop :=
  (∃ node, state ∈ (cluster.states node).values) ∨ ∃ message ∈ cluster.sent, state ∈ message.2

/-- The steps that never give a version of a member a second status: an adopted status is that of
every such state another node holds or a list carries, and so is the status of a state that is
broadcast. -/
def Distinguishing (cluster : Cluster ι) : Step ι → Prop
  | .adopt node update => update.status = .alive ∨ update.status = .leaving →
      (∀ other, other ≠ node → ∀ state ∈ (cluster.states other).values,
        Agree state (updatedPeer update ((cluster.states node).get? update.name))) ∧
      ∀ message ∈ cluster.sent, ∀ state ∈ message.2,
        Agree state (updatedPeer update ((cluster.states node).get? update.name))
  | .unreachable node peerName => ∀ entry, (cluster.states node).get? peerName = some entry →
      (∀ other, ∀ state ∈ (cluster.states other).values, Agree state (unreachableNode entry)) ∧
      ∀ message ∈ cluster.sent, ∀ state ∈ message.2, Agree state (unreachableNode entry)
  | _ => True

structure Coherent (cluster : Cluster ι) : Prop where
  named : ∀ node, Named (cluster.states node)
  agree : ∀ first second, Present cluster first → Present cluster second → Agree first second

theorem coherent_new (name address : ι → String) : Coherent (.new name address) := by
  refine ⟨fun node => named_new _ rfl, fun first second present present' _ _ => ?_⟩
  have alive : ∀ state, Present (.new name address) state → state.status = .alive := by
    rintro state (⟨node, mem⟩ | ⟨_, mem, -⟩)
    · obtain ⟨probe, held⟩ := mem_values_iff.mp mem
      simp only [Cluster.new, get?_insert] at held
      split at held
      · obtain rfl := some.inj held
        rfl
      · cases held
    · cases mem
  rw [alive first present, alive second present']

variable {pre post cluster : Cluster ι} {node : ι} {next : ClusterState}

theorem Coherent.of_present (coherent : Coherent pre) (named : ∀ node, Named (post node))
    (present : ∀ state, Present post state → Present pre state) : Coherent post :=
  ⟨named, fun first second left right => coherent.agree first second (present first left) (present second right)⟩

theorem Agree.symm {first second : NodeState} (agree : Agree first second) : Agree second first :=
  fun named level => (agree named.symm level.symm).symm

theorem Coherent.of_new (coherent : Coherent pre) (named : ∀ node, Named (post node)) (new : NodeState)
    (present : ∀ state, Present post state → state = new ∨ Present pre state ∧ Agree state new) :
    Coherent post := by
  refine ⟨named, fun first second left right => ?_⟩
  rcases present first left with rfl | ⟨old, agrees⟩ <;> rcases present second right with rfl | ⟨old', agrees'⟩
  · exact fun _ _ => rfl
  · exact agrees'.symm
  · exact agrees
  · exact coherent.agree first second old old'

variable [DecidableEq ι] {state : NodeState} {list : List NodeState}

theorem named_update (coherent : Coherent cluster) (named : Named next) :
    ∀ probe, Named (update cluster.states node next probe) :=
  (forall_update_iff _ fun _ => Named).mpr ⟨named, fun probe _ => coherent.named probe⟩

theorem mem_values_update {probe : ι} (mem : state ∈ (update cluster.states node next probe).values) :
    state ∈ next.values ∨ probe ≠ node ∧ state ∈ (cluster probe).values := by
  by_cases here : probe = node
  · subst here
    rw [update_self] at mem
    exact .inl mem
  · rw [update_of_ne here] at mem
    exact .inr ⟨here, mem⟩

theorem Coherent.merge (coherent : Coherent cluster) {sender : ι}
    (mem : (sender, list) ∈ cluster.sent) (states : post.states = update cluster.states
      node (mergeState list (cluster node))) (sent : post.sent = cluster.sent) :
    Coherent post := by
  have merged := merged_mergeState list (coherent.named node)
  refine coherent.of_present (fun probe => ?_) fun state present => ?_
  · rw [states]
    exact named_update coherent merged.named probe
  · rcases present with ⟨probe, held⟩ | carried
    · rw [states] at held
      rcases mem_values_update held with here | ⟨-, elsewhere⟩
      · obtain ⟨name, found⟩ := mem_values_iff.mp here
        rcases merged.source name state found with pre | incoming
        · exact .inl ⟨node, mem_values_iff.mpr ⟨name, pre⟩⟩
        · exact .inr ⟨_, mem, incoming⟩
      · exact .inl ⟨probe, elsewhere⟩
    · rw [sent] at carried
      exact .inr carried

omit [DecidableEq ι] in
theorem present_sent (present : Present { cluster with sent := cluster.sent ++ [(node, list)] } state) :
    Present cluster state ∨ state ∈ list := by
  rcases present with held | ⟨message, mem, inside⟩
  · exact .inl (.inl held)
  · rcases mem_snoc.mp mem with pre | rfl
    · exact .inl (.inr ⟨message, pre, inside⟩)
    · exact .inr inside

theorem Coherent.send (coherent : Coherent cluster) (node : ι) : Coherent ((Step.send node).run cluster) :=
  coherent.of_present coherent.named fun _ present =>
    (present_sent present).elim id fun inside => .inl ⟨node, inside⟩

theorem named_updatedPeer {state : ClusterState} (named : Named state) (update : NodeUpdate) :
    (updatedPeer update (state.get? update.name)).name = update.name := by
  cases held : state.get? update.name with
  | none => rfl
  | some entry => exact named _ entry held

theorem Coherent.adopt (coherent : Coherent cluster) {update : NodeUpdate}
    (allowed : Distinguishing cluster (.adopt node update)) :
    Coherent ((Step.adopt node update).run cluster) := by
  by_cases adopts : update.status = .alive ∨ update.status = .leaving
  · obtain ⟨elsewhere, carried⟩ := allowed adopts
    have same : Membership.adopt update (cluster node) = (cluster node).insert update.name
        (updatedPeer update ((cluster node).get? update.name)) := if_pos adopts
    have peerName := named_updatedPeer (coherent.named node) update
    have named : Named (Membership.adopt update (cluster node)) := by
      rw [same]
      exact forall_insert (coherent.named node) peerName
    refine coherent.of_new (named_update coherent named) (updatedPeer update ((cluster node).get? update.name)) ?_
    rintro state (⟨probe, mem⟩ | ⟨message, mem, inside⟩)
    · rcases mem_values_update mem with here | ⟨other, pre⟩
      · rw [same] at here
        obtain ⟨name, found⟩ := mem_values_iff.mp here
        rw [get?_insert] at found
        split at found
        · exact .inl (some.inj found).symm
        · next differs =>
          refine .inr ⟨.inl ⟨node, mem_values_iff.mpr ⟨name, found⟩⟩, fun same => ?_⟩
          rw [coherent.named node name state found, peerName] at same
          exact absurd same differs
      · exact .inr ⟨.inl ⟨probe, pre⟩, elsewhere probe other state pre⟩
    · exact .inr ⟨.inr ⟨message, mem, inside⟩, carried message mem state inside⟩
  · have same : (Step.adopt node update).run cluster = cluster := by
      simp only [Step.run, Membership.adopt, if_neg adopts, update_eq_self]
    rw [same]
    exact coherent

theorem Coherent.unreachable (coherent : Coherent cluster) {peerName : String}
    (allowed : Distinguishing cluster (.unreachable node peerName)) :
    Coherent ((Step.unreachable node peerName).run cluster) := by
  cases found : (cluster node).get? peerName with
  | none =>
    refine coherent.of_present coherent.named fun state present => ?_
    refine (present_sent present).resolve_right fun inside => ?_
    rw [found] at inside
    cases inside
  | some entry =>
    obtain ⟨everywhere, carried⟩ := allowed entry found
    refine coherent.of_new coherent.named (unreachableNode entry) ?_
    intro state present
    rcases present_sent present with old | inside
    · refine .inr ⟨old, ?_⟩
      rcases old with ⟨probe, held⟩ | ⟨message, mem, inside⟩
      · exact everywhere probe state held
      · exact carried message mem state inside
    · rw [found] at inside
      exact .inl (mem_singleton.mp inside)

theorem Reachable.coherent (reachable : Reachable Distinguishing cluster) : Coherent cluster := by
  induction reachable with
  | new name address => exact coherent_new name address
  | step step _ enabled allowed ih =>
    cases step with
    | send node => exact ih.send node
    | ping node peer list => exact ih.merge enabled rfl rfl
    | merge node list =>
      obtain ⟨sender, mem⟩ := enabled
      exact ih.merge mem rfl rfl
    | adopt node update => exact ih.adopt allowed
    | unreachable node peerName => exact ih.unreachable allowed

/-- In runs that never give a version of a member a second status, all nodes come to the same
status for every member when each merges the full lists of all, in any order. -/
theorem exchanged_statuses_agree {cluster : Cluster ι} (reachable : Reachable Distinguishing cluster)
    {orders : ι → List ι} (complete : ∀ node other, other ∈ orders node) (node other : ι) (name : String) :
    ((exchange cluster (orders node) node).get? name).map NodeState.status =
      ((exchange cluster (orders other) other).get? name).map NodeState.status := by
  have coherent := reachable.coherent
  have merged : ∀ node, Merged ((orders node).flatMap fun other => (cluster other).values)
      (cluster node) (exchange cluster (orders node) node) := by
    intro node
    rw [exchange_eq]
    exact merged_mergeState _ (coherent.named node)
  -- what a node ends with some node held before, and every other node has been offered
  have offered : ∀ node held, (exchange cluster (orders node) node).get? name = some held →
      held.name = name ∧ (∃ origin, held ∈ (cluster origin).values) ∧
      ∀ other, ∃ later, (exchange cluster (orders other) other).get? name = some later ∧
        held.version ≤ later.version := by
    intro node held found
    have named := (merged node).named name held found
    obtain ⟨origin, mem⟩ : ∃ origin, held ∈ (cluster origin).values := by
      rcases (merged node).source name held found with pre | incoming
      · exact ⟨node, mem_values_iff.mpr ⟨name, pre⟩⟩
      · obtain ⟨origin, -, mem⟩ := mem_flatMap.mp incoming
        exact ⟨origin, mem⟩
    refine ⟨named, ⟨origin, mem⟩, fun other => ?_⟩
    rw [← named]
    exact (merged other).taken held (mem_flatMap.mpr ⟨origin, complete other origin, mem⟩)
  cases first : (exchange cluster (orders node) node).get? name with
  | none =>
    cases second : (exchange cluster (orders other) other).get? name with
    | none => rfl
    | some held =>
      obtain ⟨later, found, -⟩ := (offered other held second).2.2 node
      rw [first] at found
      cases found
  | some held =>
    obtain ⟨named, ⟨origin, mem⟩, others⟩ := offered node held first
    obtain ⟨held', second, above⟩ := others other
    obtain ⟨named', ⟨origin', member'⟩, others'⟩ := offered other held' second
    obtain ⟨again, found, below⟩ := others' node
    obtain rfl := some.inj (first.symm.trans found)
    rw [second]
    exact congrArg some (coherent.agree held held' (.inl ⟨origin, mem⟩) (.inl ⟨origin', member'⟩)
      (named.trans named'.symm) (le_antisymm above below))

end Runs

/-- Three nodes, the third of which has pinged the others. -/
def introduced : List (Step (Fin 3)) :=
  [.send 2, .ping 2 0 [⟨"c", "3", .alive, 1, []⟩], .ping 2 1 [⟨"c", "3", .alive, 1, []⟩]]

def threeNodes : Cluster (Fin 3) := .new (fun node => ["a", "b", "c"].get node) fun node => ["1", "2", "3"].get node

/-- The second node finds the third unreachable, and the first two merge that. -/
def suspected : List (Step (Fin 3)) :=
  [.unreachable 1 "c", .merge 0 [⟨"c", "3", .suspected, 2, []⟩], .merge 1 [⟨"c", "3", .suspected, 2, []⟩]]

theorem reachable_suspected : Reachable Distinguishing ((introduced ++ suspected).foldl Step.run threeNodes) := by
  refine .step (.merge _ _) (.step (.merge _ _) (.step (.unreachable _ _) (.step (.ping _ _ _) (.step
    (.ping _ _ _) (.step (.send _) (.new _ _) trivial trivial) ?_ trivial) ?_ trivial) rfl ?_) ?_ trivial) ?_
    trivial
  · exact mem_cons_self
  · exact mem_cons_self
  · -- nothing of the third node is in its second version yet
    intro entry held
    obtain rfl : (⟨"c", "3", .alive, 1, []⟩ : NodeState) = entry := some.inj held
    unfold Agree
    decide
  · exact ⟨1, by decide⟩
  · exact ⟨1, by decide⟩

theorem suspected_agrees : ((exchange ((introduced ++ suspected).foldl Step.run threeNodes) [0, 1, 2] 0).get? "c").map
        NodeState.status =
      ((exchange ((introduced ++ suspected).foldl Step.run threeNodes) [0, 1, 2] 2).get? "c").map
        NodeState.status := by
  have complete : ∀ node other : Fin 3, other ∈ (fun _ => [0, 1, 2] : Fin 3 → List (Fin 3)) node := by
    decide
  exact exchanged_statuses_agree reachable_suspected complete 0 2 "c"

/-- The first node's ping of the third is answered before it merges that the third is suspected,
and the answer is adopted after. -/
def lateAnswer : List (Step (Fin 3)) :=
  introduced ++ [.send 0, .ping 0 2 [⟨"c", "3", .alive, 1, []⟩, ⟨"a", "1", .alive, 1, []⟩]] ++ suspected ++
    [.adopt 0 ⟨"c", "3", .alive⟩]

/-- However the nodes exchange their lists then, the first keeps the third alive and the second
keeps it suspected, both in version 2. -/
theorem late_answer_divides : Reachable (fun _ _ => True) (lateAnswer.foldl Step.run threeNodes) ∧ ∀ order order',
      ((exchange (lateAnswer.foldl Step.run threeNodes) order 0).get? "c").map NodeState.status = some .alive ∧
      ((exchange (lateAnswer.foldl Step.run threeNodes) order' 1).get? "c").map NodeState.status =
        some .suspected := by
  refine ⟨?_, fun order order' => ?_⟩
  · refine .step (.adopt _ _) (.step (.merge _ _) (.step (.merge _ _) (.step (.unreachable _ _) (.step
      (.ping _ _ _) (.step (.send _) (.step (.ping _ _ _) (.step (.ping _ _ _) (.step (.send _) (.new _ _)
      trivial trivial) ?_ trivial) ?_ trivial) trivial trivial) ?_ trivial) rfl trivial) ?_ trivial) ?_
      trivial) ?_ trivial
    · exact mem_cons_self
    · exact mem_cons_self
    · exact mem_cons_of_mem _ mem_cons_self
    · exact ⟨1, by decide⟩
    · exact ⟨1, by decide⟩
    · unfold Step.Enabled
      decide
  · have newest : ∀ other, ∀ state ∈ ((lateAnswer.foldl Step.run threeNodes).states other).values,
        state.name = "c" → state.version ≤ 2 := by decide
    have first : ((lateAnswer.foldl Step.run threeNodes).states 0).get? "c" =
      some ⟨"c", "3", .alive, 2, []⟩ := by decide
    have second : ((lateAnswer.foldl Step.run threeNodes).states 1).get? "c" =
      some ⟨"c", "3", .suspected, 2, []⟩ := by decide
    rw [exchange_keeps first newest order, exchange_keeps second newest order']
    exact ⟨rfl, rfl⟩

end ModelGateway.Membership
