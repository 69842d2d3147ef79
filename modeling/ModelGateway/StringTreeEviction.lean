import ModelGateway.StringTreeInvariants

/-! Taking tenants from nodes: the eviction loop, the eviction of one tenant and the removal
of a tenant. -/
namespace ModelGateway.StringTree
open StringText List KeyedMap Forest Option Node Prod Function

variable {fits : Node → Char → Node → Prop} {tree : Tree} {node : Node} {below : Children}
  {tenant : TenantId} {id : Nat} {probe : TenantId} {spot : Spot Char Node} {maxSize : Nat}

theorem hangs_at (hangs : Hangs fits tree.root tree.children) (mem : (node, below) ∈ tree.nodes) :
    Hangs fits node below := by
  rcases mem_nodes.mp mem with same | ⟨spot, inside, same⟩
  · cases same
    exact hangs
  · cases same
    exact hangs.below inside

theorem anyChildCarries_iff {children : Children} : anyChildCarries tenant children = false ↔
      ∀ node ∈ children.tops, node.carries tenant = false := by
  simp [anyChildCarries]

theorem hangs_removeChild (hangs : Hangs fits tree.root tree.children) (parent : Nat) (key : Char) :
    Hangs fits tree.root (tree.removeChild parent key).children := by
  simp only [Tree.removeChild]
  split
  · exact (hangs.prune _ _).remove _
  · exact hangs.prune _ _

theorem kept_removeChild (keeps : Node → Prop) (parent : Nat) (key : Char) (sound : Sound tree)
    (kept : ∀ spot ∈ tree.children.spots tree.root, keeps spot.node ∨ spot.above.id = parent ∧ spot.key = key) :
    Hangs (fun _ _ node => keeps node) tree.root (tree.removeChild parent key).children := by
  have elsewhere : ∀ spot ∈ tree.children.spots tree.root,
      keeps spot.node ∨ (spot.above.id == parent) = true ∧ spot.key = key := by
    simpa only [beq_iff_eq] using kept
  obtain ⟨plain, removed⟩ := hangs_prune keeps (fun node => node.id == parent) key sound.distinct elsewhere
  simp only [Tree.removeChild]
  split
  · exact removed (by simpa using ‹tree.root.id = parent›)
  · exact plain (by simpa using ‹¬ tree.root.id = parent›)

theorem Sound.removeChild (sound : Sound tree) (parent : Nat) (key : Char) : Sound (tree.removeChild parent key) := by
  have fewer : ∀ weight, (tree.removeChild parent key).children.total weight ≤ tree.children.total weight := by
    intro weight
    have pruned := total_prune_le weight (fun node => node.id == parent) key tree.children
    simp only [Tree.removeChild]
    split
    · exact (total_remove_le weight key _).trans pruned
    · exact pruned
  have bound : ∀ id, (tree.removeChild parent key).idCount id ≤ tree.idCount id := fun id =>
    Nat.add_le_add_left (fewer _) _
  refine ⟨hangs_removeChild sound.linked parent key, ?_, sound.rootText, sound.rootParent,
    fun id => (bound id).trans (sound.ids id),
    fun id past => Nat.le_zero.mp ((bound id).trans (sound.fresh id past).le)⟩
  · simp only [Tree.removeChild]
    split
    · exact ((sound.distinct.prune _ _).remove _).2
    · exact sound.distinct.prune _ _

/-! ### Evicting a leaf -/

/-- A node of the tree that is a leaf for a tenant. -/
structure LeafFor (tree : Tree) (tenant : TenantId) (node : Node) (below : Children) : Prop where
  mem : (node, below) ∈ tree.nodes
  carried : node.carries tenant = true
  last : ∀ child ∈ below.tops, child.carries tenant = false

/-- The tree in which the tenant is taken from a node, before the node may be unlinked. -/
def releasedTree (tree : Tree) (tenant : TenantId) (node : Node) : Tree :=
  { tree.modify node.id (release tenant) with
    ledger := { tree.ledger with
      tenantCharCount := match tree.tenantCharCount.get? tenant with
        | some count => tree.tenantCharCount.insert tenant (count - node.text.charCount)
        | none => tree.tenantCharCount } }

theorem evictLeaf_cases (tree : Tree) (tenant : TenantId) (node : Node) (below : Children) :
    ((evictLeaf tree tenant node below).2 = releasedTree tree tenant node ∧
        (below.isEmpty = true → (node.release tenant).tenantLastAccessTime.isEmpty = true →
          node.parent = none ∨ node.text.firstChar = none)) ∨
      ∃ parent first, node.parent = some parent ∧ node.text.firstChar = some first ∧
        below.isEmpty = true ∧ (node.release tenant).tenantLastAccessTime.isEmpty = true ∧
        (evictLeaf tree tenant node below).2 = (releasedTree tree tenant node).removeChild parent first := by
  rw [evictLeaf]
  cases pointer : node.parent with
  | none => exact .inl ⟨rfl, fun _ _ => .inl rfl⟩
  | some parent =>
    simp only
    split
    · rename_i emptied
      cases starts : node.text.firstChar with
      | none => exact .inl ⟨rfl, fun _ _ => .inr rfl⟩
      | some first => exact .inr ⟨parent, first, rfl, rfl, emptied.1, emptied.2, rfl⟩
    · rename_i kept
      exact .inl ⟨rfl, fun leaf emptied => absurd ⟨leaf, emptied⟩ kept⟩

theorem releasedTree_sound (sound : Sound tree) (tenant : TenantId) (node : Node) :
    Sound (releasedTree tree tenant node) :=
  sound.map ((inPlace_release tenant).writeAt node.id) _

theorem evictLeaf_sound (sound : Sound tree) (tenant : TenantId) (node : Node) (below : Children) :
    Sound (evictLeaf tree tenant node below).2 := by
  rcases evictLeaf_cases tree tenant node below with ⟨same, -⟩ | ⟨parent, first, -, -, -, -, same⟩
  · exact same ▸ releasedTree_sound sound tenant node
  · exact same ▸ (releasedTree_sound sound tenant node).removeChild parent first

theorem carries_writeAt_release : (node.writeAt id (release tenant)).carries probe = true ↔
      node.carries probe = true ∧ ¬ (node.id = id ∧ probe = tenant) := by
  rw [writeAt]
  split
  · rename_i same
    simp [same, and_comm]
  · rename_i other
    simp [other]

section Leaf
variable (leaf : LeafFor tree tenant node below)
include leaf

theorem LeafFor.child (sound : Sound tree) (mem : spot ∈ tree.children.spots tree.root)
    (hung : spot.above.id = node.id) : spot.node.carries tenant = false := by
  obtain ⟨siblings, inside, found⟩ := sound.hung mem
  have same := sound.unique leaf.mem inside hung
  cases same
  exact leaf.last spot.node (mem_tops_of_find? found)

theorem released_owned (sound : Sound tree) (tidy : Tidy tree) :
    Hangs (fun above _ child => ∀ probe, child.carries probe = true → above.carries probe = true)
      (releasedTree tree tenant node).root (releasedTree tree tenant node).children := by
  refine (hangs_map (writeAt node.id (release tenant)) tree.root).mpr fun spot mem probe carried => ?_
  obtain ⟨carried, -⟩ := carries_writeAt_release.mp carried
  refine carries_writeAt_release.mpr ⟨(tidy spot mem).2 probe carried, fun hit => ?_⟩
  rw [hit.2, leaf.child sound mem hit.1] at carried
  cases carried

theorem LeafFor.others (sound : Sound tree) (tidy : Tidy tree)
    (mem : spot ∈ tree.children.spots tree.root) :
    (∃ probe, (spot.node.writeAt node.id (release tenant)).carries probe = true) ∨ spot.node = node := by
  by_cases same : spot.node.id = node.id
  · exact .inr (congrArg fst (sound.unique leaf.mem (node_mem_nodes mem) same))
  · obtain ⟨probe, carried⟩ := (tidy spot mem).1
    exact .inl ⟨probe, carries_writeAt_release.mpr ⟨carried, fun hit => same hit.1⟩⟩

theorem LeafFor.childless (tidy : Tidy tree)
    (emptied : (node.release tenant).tenantLastAccessTime.isEmpty = true) : below = .nil := by
  have nested := hangs_at tidy leaf.mem
  cases below with
  | nil => rfl
  | cons key child childBelow rest =>
    obtain ⟨⟨⟨probe, carried⟩, owned⟩, -⟩ := hangs_cons.mp nested
    have held : (node.release tenant).carries probe = true := by
      rw [carries_release, owned probe carried, Bool.and_true, Bool.not_eq_true', decide_eq_false_iff_not]
      rintro rfl
      cases carried.symm.trans (leaf.last child mem_cons_self)
    rw [Node.carries, KeyedMap.contains, KeyedMap.isEmpty_iff.mp emptied] at held
    cases held

/-- Evicting a leaf leaves no node without tenants. -/
theorem LeafFor.tidy (sound : Sound tree) (tidy : Tidy tree) : Tidy (evictLeaf tree tenant node below).2 := by
  have owned := released_owned leaf sound tidy
  by_cases emptied : (node.release tenant).tenantLastAccessTime.isEmpty = true
  · obtain rfl := leaf.childless tidy emptied
    rcases mem_nodes.mp leaf.mem with root | ⟨spot, inside, same⟩
    · -- the root had no children
      obtain ⟨rfl, bare⟩ := mk.inj root
      rcases evictLeaf_cases tree tenant tree.root .nil with ⟨same, -⟩ | ⟨parent, first, pointer, -⟩
      · rw [same, Tidy, releasedTree, Tree.modify, ← bare]
        exact hangs_nil
      · rw [sound.rootParent] at pointer
        cases pointer
    · obtain ⟨rfl, bare⟩ := mk.inj same
      obtain ⟨starts, length, pointer⟩ := sound.linked spot inside
      rcases evictLeaf_cases tree tenant spot.node .nil with
        ⟨-, stuck⟩ | ⟨parent, first, pointer', starts', -, -, same⟩
      · rcases stuck rfl emptied with missing | missing
        · cases pointer.symm.trans missing
        · cases starts.symm.trans missing
      · -- the emptied node hangs under the key that is removed
        obtain rfl := some.inj (pointer.symm.trans pointer')
        obtain rfl := some.inj (starts.symm.trans starts')
        have tenanted := kept_removeChild (fun child => ∃ probe, child.carries probe = true)
          spot.above.id spot.key (releasedTree_sound sound tenant spot.node) ?_
        · rw [same]
          exact fun child mem => ⟨tenanted child mem,
            hangs_removeChild owned spot.above.id spot.key child mem⟩
        · intro child mem
          obtain ⟨other, held, rfl⟩ := (mem_spots_map (writeAt _ _)).mp mem
          refine (leaf.others sound tidy held).imp_right fun equal => ?_
          obtain ⟨otherStarts, -, otherPointer⟩ := sound.linked other held
          rw [equal] at otherStarts otherPointer
          exact ⟨(((inPlace_release tenant).writeAt _ other.above).1).trans
            (some.inj (otherPointer.symm.trans pointer)),
            some.inj (otherStarts.symm.trans starts)⟩
  · rcases evictLeaf_cases tree tenant node below with ⟨same, -⟩ | ⟨_, _, _, _, _, bare, _⟩
    · rw [same]
      refine fun spot mem => ⟨?_, owned spot mem⟩
      obtain ⟨other, held, rfl⟩ := (mem_spots_map (writeAt _ _)).mp mem
      refine (leaf.others sound tidy held).elim id fun equal => ?_
      have written : other.node.writeAt node.id (release tenant) = node.release tenant := by
        rw [equal, writeAt, if_pos rfl]
      rw [written]
      by_contra none
      refine emptied (isEmpty_iff.mpr fun probe => ?_)
      exact not_isSome_iff_eq_none.mp fun held => none ⟨probe, held⟩
    · exact absurd bare emptied

end Leaf

/-! ### Sizes under eviction -/

/-- What a tenant holds on nodes that are reached from the root through nodes it holds. -/
def connected (tenant : TenantId) (children : Children) : Nat :=
  children.reached (fun node => node.carries tenant) fun node => node.text.charCount

/-- Every tenant holds at most `maxSize` characters on nodes cut off from the root. -/
def Slack (maxSize : Nat) (tree : Tree) : Prop :=
  ∀ tenant, tree.children.total (chars tenant) ≤ connected tenant tree.children + maxSize

theorem writeAt_elsewhere {change : Node → Node} (other : hasId id node = false) : node.writeAt id change = node := by
  rw [writeAt, if_neg (by simpa [hasId] using other)]

theorem Sound.single (sound : Sound tree) (id : Nat) : tree.children.total (mark (hasId id)) ≤ 1 :=
  (Nat.le_add_left _ _).trans (sound.ids id)

theorem release_other (other : probe ≠ tenant) (node : Node) :
    (node.writeAt id (release tenant)).carries probe = node.carries probe ∧
      chars probe (node.writeAt id (release tenant)) = chars probe node := by
  have carries : (node.writeAt id (release tenant)).carries probe = node.carries probe := by
    rw [Bool.eq_iff_iff, carries_writeAt_release]
    simp [other]
  refine ⟨carries, ?_⟩
  rw [chars, chars, carries, ((inPlace_release tenant).writeAt id node).2.1]

theorem release_total_other (other : probe ≠ tenant) (children : Children) :
    (children.map (writeAt id (release tenant))).total (chars probe) = children.total (chars probe) := by
  rw [total_map]
  exact congrArg (total · children) (funext fun node => (release_other other node).2)

theorem releasedTree_ledger (tree : Tree) (tenant : TenantId) (node : Node) (probe : TenantId) :
    (releasedTree tree tenant node).ledger.chars probe =
        tree.ledger.chars probe - (if probe = tenant then node.text.charCount else 0) ∧
      (releasedTree tree tenant node).ledger.holds probe = tree.ledger.holds probe := by
  simp only [releasedTree, Ledger.chars, Ledger.holds]
  cases held : tree.tenantCharCount.get? tenant with
  | none =>
    by_cases same : probe = tenant
    · simp [same, held]
    · simp [same]
  | some count =>
    by_cases same : probe = tenant
    · simp [same, held, KeyedMap.contains]
    · simp [same, get?_insert]

section BelowRoot
variable (sound : Sound tree) (mem : spot ∈ tree.children.spots tree.root)
include sound mem

theorem Sound.same_place {other : Spot Char Node} (member' : other ∈ tree.children.spots tree.root)
    (above : other.above.id = spot.above.id) (key : other.key = spot.key) :
    other.node = spot.node ∧ other.below = spot.below := by
  obtain ⟨siblings, inside, found⟩ := sound.hung mem
  obtain ⟨siblings', inside', found'⟩ := sound.hung member'
  have same := congrArg snd (sound.unique inside inside' above)
  simp only at same
  rw [key, same, found] at found'
  have equal := mk.inj (some.inj found')
  exact ⟨equal.1.symm, equal.2.symm⟩

/-- Unlinking a node without tenants and children changes no size. -/
theorem removeChild_sizes (bare : ∀ tenant, spot.node.carries tenant = false) (leaf : spot.below = .nil) :
    (∀ weight : Node → Nat, weight spot.node = 0 →
      (tree.removeChild spot.above.id spot.key).children.total weight = tree.children.total weight) ∧
    ∀ tenant, connected tenant (tree.removeChild spot.above.id spot.key).children =
      connected tenant tree.children := by
  have there : ∀ other ∈ tree.children.spots tree.root, (other.above.id == spot.above.id) = true →
      other.key = spot.key → other.node = spot.node ∧ other.below = spot.below :=
    fun other inside above key => sound.same_place mem inside (by simpa using above) key
  refine ⟨fun weight light => ?_, fun tenant => ?_⟩
  · have totals := reached_prune (fun _ => true) weight (fun node => node.id == spot.above.id) spot.key
      fun other inside above key => by
        obtain ⟨node, below⟩ := there other inside above key
        rw [node, below, leaf, light]
        rfl
    simp only [reached_all] at totals
    simp only [Tree.removeChild]
    split
    · exact totals.2 (by simpa using ‹tree.root.id = spot.above.id›)
    · exact totals.1
  · have reaches := reached_prune (fun node : Node => node.carries tenant)
      (fun node => node.text.charCount) (fun node => node.id == spot.above.id) spot.key
      fun other inside above key => by
        rw [(there other inside above key).1, bare]
        rfl
    simp only [Tree.removeChild, connected]
    split
    · exact reaches.2 (by simpa using ‹tree.root.id = spot.above.id›)
    · exact reaches.1

theorem release_total (tenant : TenantId) :
    (tree.children.map (writeAt spot.node.id (release tenant))).total (chars tenant) +
      chars tenant spot.node = tree.children.total (chars tenant) := by
  have change := total_change (sound.single spot.node.id) mem (by simp [hasId]) (chars tenant)
    (chars tenant ∘ writeAt spot.node.id (release tenant))
    fun node other => by rw [comp, writeAt_elsewhere other]
  have post : (chars tenant ∘ writeAt spot.node.id (release tenant)) spot.node = 0 := by
    simp [chars, writeAt]
  rw [total_map]
  omega

theorem Sound.below_root : tree.root.id ≠ spot.node.id := by
  intro same
  have equal := sound.ids spot.node.id
  have below : 1 ≤ idCount spot.node.id tree.children := one_le_total_mark mem (by simp [hasId])
  rw [Tree.idCount, mark_hasId, if_pos same] at equal
  omega

theorem releasedTree_root (tenant : TenantId) :
    (releasedTree tree tenant spot.node).root = tree.root := if_neg (sound.below_root mem)

/-- Unlinking the emptied node changes nothing that depends on the tenants of the nodes. -/
theorem Sound.unlinked (tenant : TenantId) :
    let post := (evictLeaf tree tenant spot.node spot.below).2
    let released := releasedTree tree tenant spot.node
    post.root = released.root ∧ post.ledger = released.ledger ∧
      (∀ weight : Node → Nat, (∀ node : Node, (∀ tenant, node.carries tenant = false) → weight node = 0) →
        post.children.total weight = released.children.total weight) ∧
      (∀ probe, connected probe post.children = connected probe released.children) ∧
      ∀ fits, Hangs fits released.root released.children → Hangs fits post.root post.children := by
  rcases evictLeaf_cases tree tenant spot.node spot.below with
    ⟨same, -⟩ | ⟨parent, first, pointer, starts, childless, emptied, same⟩
  · rw [same]
    exact ⟨rfl, rfl, fun _ _ => rfl, fun _ => rfl, fun _ hangs => hangs⟩
  · obtain ⟨starts', -, pointer'⟩ := sound.linked spot mem
    obtain rfl := some.inj (pointer'.symm.trans pointer)
    obtain rfl := some.inj (starts'.symm.trans starts)
    have bare : ∀ probe, (spot.node.writeAt spot.node.id (release tenant)).carries probe = false := by
      intro probe
      simp only [writeAt, if_true]
      rw [Node.carries, KeyedMap.contains, KeyedMap.isEmpty_iff.mp emptied]
      rfl
    obtain ⟨totals, reaches⟩ := removeChild_sizes (releasedTree_sound sound tenant spot.node)
      ((mem_spots_map (writeAt _ _)).mpr ⟨spot, mem, rfl⟩) bare (by
        cases shape : spot.below with
        | nil => rfl
        | cons => simp [shape, Forest.isEmpty] at childless)
    have id : (spot.above.writeAt spot.node.id (release tenant)).id = spot.above.id :=
      ((inPlace_release tenant).writeAt _ spot.above).1
    simp only [id] at totals reaches
    rw [same]
    exact ⟨rfl, rfl, fun weight light => totals weight (light _ bare), reaches, fun fits hangs =>
      hangs_removeChild hangs _ _⟩

variable (leaf : LeafFor tree tenant spot.node spot.below)
include leaf

/-- Taking the tenant from a node below the root takes its characters from the tenant's total,
and from its connected part at most. -/
theorem LeafFor.released_sizes :
    ((releasedTree tree tenant spot.node).children.total (chars tenant) + spot.node.text.charCount =
        tree.children.total (chars tenant) ∧
      (connected tenant (releasedTree tree tenant spot.node).children = connected tenant tree.children ∨
        connected tenant (releasedTree tree tenant spot.node).children + spot.node.text.charCount =
          connected tenant tree.children)) ∧ ∀ probe, probe ≠ tenant →
      (releasedTree tree tenant spot.node).children.total (chars probe) = tree.children.total (chars probe) ∧
        connected probe (releasedTree tree tenant spot.node).children = connected probe tree.children := by
  have texts : (fun node : Node => node.text.charCount) ∘ writeAt spot.node.id (release tenant) =
      fun node => node.text.charCount := funext fun node => by
    rw [comp, ((inPlace_release tenant).writeAt spot.node.id node).2.1]
  have reaches : ∀ probe, connected probe (releasedTree tree tenant spot.node).children = tree.children.reached
        ((fun node : Node => node.carries probe) ∘ writeAt spot.node.id (release tenant))
        fun node => node.text.charCount := by
    intro probe
    exact (reached_map _ _ _).trans (by rw [texts])
  refine ⟨⟨?_, ?_⟩, fun probe other => ?_⟩
  · have held : chars tenant spot.node = spot.node.text.charCount := if_pos leaf.carried
    rw [← held]
    exact release_total sound mem tenant
  · rw [reaches]
    exact reached_change (sound.single spot.node.id) mem (by simp [hasId])
      (fun node other => by rw [comp, writeAt_elsewhere other]) (by simp [writeAt]) leaf.last
  · rw [reaches]
    exact ⟨release_total_other other tree.children, congrArg (reached · _ tree.children)
      (funext fun node => (release_other other node).1)⟩

theorem LeafFor.released_balanced (balanced : Balanced tree) : Balanced (releasedTree tree tenant spot.node) := by
  have root := releasedTree_root sound mem tenant
  obtain ⟨⟨own, -⟩, others⟩ := leaf.released_sizes sound mem
  refine ⟨(hangs_map (writeAt _ _) tree.root).mpr fun other held probe carried => ?_, fun probe => ?_,
    fun probe => ?_⟩
  · rw [root]
    exact balanced.inside other held probe (carries_writeAt_release.mp carried).1
  · rw [(releasedTree_ledger tree tenant spot.node probe).2, root, balanced.held]
  · rw [(releasedTree_ledger tree tenant spot.node probe).1, balanced.sums]
    by_cases same : probe = tenant
    · subst same
      rw [if_pos rfl]
      omega
    · rw [if_neg same, (others probe same).1, Nat.sub_zero]

theorem LeafFor.released_slack (slack : Slack maxSize tree) : Slack maxSize (releasedTree tree tenant spot.node) := by
  obtain ⟨⟨own, reaches⟩, others⟩ := leaf.released_sizes sound mem
  intro probe
  have pre := slack probe
  by_cases same : probe = tenant
  · subst same
    omega
  · rw [(others probe same).1, (others probe same).2]
    exact pre

theorem LeafFor.balanced (balanced : Balanced tree) (slack : Slack maxSize tree) :
    Balanced (evictLeaf tree tenant spot.node spot.below).2 ∧
      Slack maxSize (evictLeaf tree tenant spot.node spot.below).2 := by
  have released := leaf.released_balanced sound mem balanced
  have slackReleased := leaf.released_slack sound mem slack
  obtain ⟨root, ledger, totals, reaches, hangs⟩ := sound.unlinked mem tenant
  have sums : ∀ probe, _ := fun probe => totals (chars probe) fun node bare => by simp [chars, bare]
  refine ⟨⟨?_, fun probe => ?_, fun probe => ?_⟩, fun probe => ?_⟩
  · have inside := hangs _ released.inside
    rwa [← root] at inside
  · rw [root, ledger, released.held]
  · rw [ledger, sums, released.sums]
  · rw [sums, reaches]
    exact slackReleased probe

end BelowRoot

/-! ### The eviction loop -/

theorem evictEntry_cases (maxSize : Nat) (tree : Tree) (entry : EvictionEntry) :
    evictEntry maxSize tree entry = ([], tree) ∨
      ∃ node below, LeafFor tree entry.tenant node below ∧ node.id = entry.node ∧
        (tree.tenantCharCount.get? entry.tenant).any (· ≤ maxSize) = false ∧
        evictEntry maxSize tree entry = evictLeaf tree entry.tenant node below := by
  rw [evictEntry]
  split
  · exact .inl rfl
  · rename_i excess
    cases found : tree.lookup entry.node with
    | none => exact .inl rfl
    | some held =>
      obtain ⟨node, below⟩ := held
      simp only
      split
      · rename_i leaf
        obtain ⟨mem, named⟩ := lookup_some found
        exact .inr ⟨node, below, ⟨mem, leaf.1, anyChildCarries_iff.mp leaf.2⟩, named,
          Bool.eq_false_iff.mpr excess, rfl⟩
      · exact .inl rfl

theorem popEntry_cases (tie : Nat) (queue : List EvictionEntry) : (popEntry tie queue = none ∧ queue = []) ∨
      ∃ entry ∈ queue, popEntry tie queue = some (entry, queue.erase entry) := by
  simp only [popEntry]
  cases popped : ((queue.filter fun entry => queue.all fun other =>
      entry.timestamp ≤ other.timestamp).rotate tie).head? with
  | none =>
    refine .inl ⟨rfl, by_contra fun some => ?_⟩
    obtain ⟨entry, mem, least⟩ :=
      queue.toFinset.exists_min_image EvictionEntry.timestamp (toFinset_nonempty_iff _ |>.mpr some)
    simp only [List.mem_toFinset] at mem least
    rw [head?_eq_none_iff, rotate_eq_nil_iff, filter_eq_nil_iff] at popped
    exact popped entry mem (by simpa using least)
  | some entry =>
    have mem := mem_rotate.mp (mem_of_mem_head? popped)
    exact .inr ⟨entry, (mem_filter.mp mem).1, rfl⟩

theorem evictLoop_invariant (maxSize : Nat) (ties : Nat → Nat) (keeps : List EvictionEntry → Tree → Prop)
    (round : ∀ queue tree, ∀ entry ∈ queue, keeps queue tree →
      keeps ((evictEntry maxSize tree entry).1 ++ queue.erase entry) (evictEntry maxSize tree entry).2) :
    ∀ fuel queue tree, keeps queue tree →
      keeps (evictLoop maxSize ties fuel queue tree).1 (evictLoop maxSize ties fuel queue tree).2 := by
  intro fuel
  induction fuel with
  | zero => exact fun _ _ kept => kept
  | succ fuel ih =>
    intro queue tree kept
    rw [evictLoop]
    rcases popEntry_cases (ties fuel) queue with ⟨none, -⟩ | ⟨entry, mem, popped⟩
    · rw [none]
      exact kept
    · rw [popped]
      exact ih _ _ (round queue tree entry mem kept)

theorem evictTenantBySize_tidy (sound : Sound tree) (tidy : Tidy tree) (maxSize : Nat) (ties : Nat → Nat) :
    Sound (evictTenantBySize tree maxSize ties) ∧ Tidy (evictTenantBySize tree maxSize ties) := by
  refine evictLoop_invariant maxSize ties (fun _ tree => Sound tree ∧ Tidy tree)
    (fun _ tree entry _ kept => ?_) _ _ _ ⟨sound, tidy⟩
  rcases evictEntry_cases maxSize tree entry with idle | ⟨node, below, leaf, -, -, evicts⟩
  · rw [idle]
    exact kept
  · rw [evicts]
    exact ⟨evictLeaf_sound kept.1 _ _ _, leaf.tidy kept.1 kept.2⟩

theorem LeafFor.excess (leaf : LeafFor tree tenant node below) (balanced : Balanced tree)
    (excess : (tree.tenantCharCount.get? tenant).any (· ≤ maxSize) = false) :
    maxSize < tree.ledger.chars tenant := by
  have known : tree.root.carries tenant = true := by
    rcases mem_nodes.mp leaf.mem with root | ⟨spot, inside, same⟩
    · exact (mk.inj root).1 ▸ leaf.carried
    · exact balanced.inside spot inside tenant ((mk.inj same).1 ▸ leaf.carried)
  obtain ⟨count, held⟩ := isSome_iff_exists.mp ((balanced.held tenant).trans known)
  rw [held, any_some, decide_eq_false_iff_not] at excess
  rw [Ledger.chars, held, getD_some]
  omega

theorem LeafFor.below_root (leaf : LeafFor tree tenant node below) (balanced : Balanced tree)
    (slack : Slack maxSize tree) (above : maxSize < tree.ledger.chars tenant) :
    ∃ spot ∈ tree.children.spots tree.root, spot.node = node ∧ spot.below = below := by
  rcases mem_nodes.mp leaf.mem with root | ⟨spot, inside, same⟩
  · obtain ⟨rfl, rfl⟩ := mk.inj root
    have unreached : connected tenant tree.children = 0 := reached_idle leaf.last
    have bound := slack tenant
    have sums := balanced.sums tenant
    omega
  · exact ⟨spot, inside, mk.inj same⟩

theorem evictEntry_balanced (sound : Sound tree) (balanced : Balanced tree) (slack : Slack maxSize tree)
    (entry : EvictionEntry) :
    Sound (evictEntry maxSize tree entry).2 ∧ Balanced (evictEntry maxSize tree entry).2 ∧
      Slack maxSize (evictEntry maxSize tree entry).2 := by
  rcases evictEntry_cases maxSize tree entry with idle | ⟨node, below, leaf, -, excess, evicts⟩
  · rw [idle]
    exact ⟨sound, balanced, slack⟩
  · rw [evicts]
    obtain ⟨spot, inside, rfl, rfl⟩ := leaf.below_root balanced slack (leaf.excess balanced excess)
    exact ⟨evictLeaf_sound sound _ _ _, leaf.balanced sound inside balanced slack⟩

theorem evictTenantBySize_balanced (sound : Sound tree) (balanced : Balanced tree)
    (slack : Slack maxSize tree) (ties : Nat → Nat) :
    Sound (evictTenantBySize tree maxSize ties) ∧ Balanced (evictTenantBySize tree maxSize ties) := by
  have kept := evictLoop_invariant maxSize ties (fun _ tree => Sound tree ∧ Balanced tree ∧ Slack maxSize tree)
    (fun _ tree entry _ kept => evictEntry_balanced kept.1 kept.2.1 kept.2.2 entry)
    ((tree.nodes.flatMap leafEntries).length + tree.ownerships) (tree.nodes.flatMap leafEntries) tree
    ⟨sound, balanced, slack⟩
  exact ⟨kept.1, kept.2.1⟩

/-! ### Termination -/

theorem size_writeAt_release (id : Nat) (tenant : TenantId) (node : Node) :
    (node.writeAt id (release tenant)).tenantLastAccessTime.size =
      if node.id = id ∧ node.carries tenant then node.tenantLastAccessTime.size - 1
      else node.tenantLastAccessTime.size := by
  rw [writeAt]
  by_cases same : node.id = id
  · simp only [same, true_and, if_true, release, size_erase]
    rfl
  · simp [same]

/-- Evicting a leaf takes one ownership away. -/
theorem LeafFor.ownerships (leaf : LeafFor tree tenant node below) (sound : Sound tree) :
    (evictLeaf tree tenant node below).2.ownerships + 1 = tree.ownerships := by
  have weightless (child : Node) (bare : ∀ tenant, child.carries tenant = false) :
      child.tenantLastAccessTime.size = 0 := by
    refine length_eq_zero_iff.mpr (eq_nil_iff_forall_not_mem.mpr fun probe held => ?_)
    cases (bare probe).symm.trans (contains_iff_mem_keys.mpr held)
  have own : (node.writeAt node.id (release tenant)).tenantLastAccessTime.size + 1 =
      node.tenantLastAccessTime.size := by
    obtain ⟨epoch, held⟩ := isSome_iff_exists.mp leaf.carried
    have pos := size_pos held
    rw [size_writeAt_release, if_pos ⟨rfl, leaf.carried⟩]
    omega
  have written : (releasedTree tree tenant node).children.total (fun child => child.tenantLastAccessTime.size) =
      tree.children.total ((fun child => child.tenantLastAccessTime.size) ∘ writeAt node.id (release tenant)) :=
    total_map _ _
  have elsewhere (child : Node) (other : hasId node.id child = false) :
      ((fun child => child.tenantLastAccessTime.size) ∘ writeAt node.id (release tenant)) child =
        child.tenantLastAccessTime.size := by
    rw [comp, writeAt_elsewhere other]
  rw [Tree.ownerships, Tree.ownerships]
  rcases mem_nodes.mp leaf.mem with root | ⟨spot, inside, same⟩
  · obtain ⟨rfl, rfl⟩ := mk.inj root
    have released : (evictLeaf tree tenant tree.root tree.children).2 = releasedTree tree tenant tree.root := by
      rw [evictLeaf, sound.rootParent]
      rfl
    have kept : _ = tree.children.total fun child => child.tenantLastAccessTime.size := total_congr fun spot inside =>
        elsewhere spot.node (by simpa [hasId] using (sound.below_root inside).symm)
    rw [released, written, kept]
    show (tree.root.writeAt tree.root.id (release tenant)).tenantLastAccessTime.size + _ + 1 = _
    omega
  · obtain ⟨rfl, rfl⟩ := mk.inj same
    obtain ⟨root, -, totals, -⟩ := sound.unlinked inside tenant
    have change := total_change (sound.single spot.node.id) inside (by simp [hasId]) _ _ elsewhere
    rw [root, releasedTree_root sound inside, totals _ weightless, written]
    simp only [comp_apply] at change
    omega

theorem evictLeaf_pushes (tree : Tree) (tenant : TenantId) (node : Node) (below : Children) :
    (evictLeaf tree tenant node below).1.length ≤ 1 := by
  rw [evictLeaf]
  cases node.parent with
  | none => exact Nat.zero_le _
  | some parent =>
    simp only
    exact length_toList_le

theorem evictLoop_drains (maxSize : Nat) (ties : Nat → Nat) :
    ∀ fuel queue tree, Sound tree → queue.length + tree.ownerships ≤ fuel →
      (evictLoop maxSize ties fuel queue tree).1 = [] := by
  intro fuel
  induction fuel with
  | zero => exact fun queue tree _ enough => eq_nil_of_length_eq_zero (by simp only [evictLoop]; omega)
  | succ fuel ih =>
    intro queue tree sound enough
    rw [evictLoop]
    rcases popEntry_cases (ties fuel) queue with ⟨none, empty⟩ | ⟨entry, mem, popped⟩
    · rw [none]
      exact empty
    · have pos := length_pos_of_mem mem
      have shorter := length_erase_of_mem mem
      rw [popped]
      simp only
      rcases evictEntry_cases maxSize tree entry with idle | ⟨node, below, leaf, -, -, evicts⟩
      · rw [idle]
        exact ih _ _ sound (by simp only [nil_append]; omega)
      · rw [evicts]
        have := leaf.ownerships sound
        have := evictLeaf_pushes tree entry.tenant node below
        exact ih _ _ (evictLeaf_sound sound _ _ _) (by rw [length_append]; omega)

end ModelGateway.StringTree
