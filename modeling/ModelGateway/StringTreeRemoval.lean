import ModelGateway.StringTreeEviction

/-! Evicting the entries of one tenant, removing a tenant and clearing the tree. -/
namespace ModelGateway.StringTree
open StringText List KeyedMap Forest Option Bool Prod Nat Function
open Node (release writeAt carries_release)

/-! ### Evicting one tenant -/

/-- The counts are right but for what was evicted of one tenant. -/
structure Lagging (tenant : TenantId) (evicted : Nat) (tree : Tree) : Prop where
  sound : Sound tree
  inside : Hangs (Inside fun tenant => tree.root.carries tenant = true) tree.root tree.children
  held : ∀ probe, tree.ledger.holds probe = tree.root.carries probe
  lag : ∀ probe, tree.ledger.chars probe = tree.children.total (chars probe) + if probe = tenant then evicted else 0

variable {tree : Tree} {id : Nat} {tenant : TenantId}

/-- The characters of a node that `remove_tenant_from_node` takes from the tenant. -/
def nodeChars (tree : Tree) (tenant : TenantId) (id : Nat) : Nat :=
  match tree.lookup id with
  | some (node, _) => if node.carries tenant then node.text.charCount else 0
  | none => 0

theorem modify_release_total (sound : Sound tree) (below : id ≠ tree.root.id) (tenant : TenantId) :
    (tree.modify id (release tenant)).children.total (chars tenant) + nodeChars tree tenant id =
      tree.children.total (chars tenant) := by
  rw [nodeChars]
  cases found : tree.lookup id with
  | none =>
    have absent : ∀ node ∈ tree.nodes, node.1.id ≠ id := by
      simpa [Tree.lookup] using found
    refine (total_map _ _).trans (total_congr fun spot (mem : spot ∈ tree.children.spots tree.root) => ?_)
    rw [comp, writeAt_elsewhere]
    simpa [hasId] using absent _ (node_mem_nodes mem)
  | some held =>
    obtain ⟨node, children⟩ := held
    obtain ⟨mem, rfl⟩ := lookup_some found
    rcases mem_nodes.mp mem with root | ⟨spot, inside, same⟩
    · obtain ⟨rfl, -⟩ := mk.inj root
      exact absurd rfl below
    · obtain ⟨rfl, -⟩ := mk.inj same
      exact release_total sound inside tenant

private theorem Lagging.step {evicted : Nat} (lagging : Lagging tenant evicted tree) (below : id ≠ tree.root.id) :
    Lagging tenant (evicted + nodeChars tree tenant id) (removeTenantFromNode tree tenant id) := by
  have root : (removeTenantFromNode tree tenant id).root = tree.root := if_neg (Ne.symm below)
  refine ⟨lagging.sound.modify id (inPlace_release tenant), (hangs_map (writeAt _ _) tree.root).mpr
    fun spot inside probe carried => ?_, fun probe => ?_, fun probe => ?_⟩
  · rw [root]
    exact lagging.inside spot inside probe (carries_writeAt_release.mp carried).1
  · rw [root]
    exact lagging.held probe
  · refine (lagging.lag probe).trans ?_
    by_cases same : probe = tenant
    · subst same
      have total := modify_release_total lagging.sound below probe
      rw [if_pos rfl, if_pos rfl, removeTenantFromNode]
      omega
    · rw [if_neg same, if_neg same]
      exact congrArg (· + 0) (release_total_other same tree.children).symm

theorem id_collected {spot : Spot Char Node} (inside : spot ∈ tree.children.spots tree.root)
    (carried : spot.node.carries tenant = true) :
    spot.node.id ∈ (collectTenantNodes tree tenant).map fst := by
  obtain ⟨timestamp, held⟩ := isSome_iff_exists.mp carried
  exact mem_map.mpr ⟨(spot.node.id, timestamp), mem_filterMap.mpr ⟨spot, inside, by rw [held]; rfl⟩, rfl⟩

theorem exists_carrier {children : Children} (above : Node) (counted : 0 < children.total (chars tenant)) :
    ∃ spot ∈ children.spots above, spot.node.carries tenant = true := by
  obtain ⟨spot, inside, some⟩ := exists_of_total_pos above counted
  refine ⟨spot, inside, ?_⟩
  by_contra absent
  exact some.ne' (if_neg absent)

theorem release_of_not_carries {node : Node} (absent : node.carries tenant = false) : node.release tenant = node := by
  rw [release, erase_of_get?_none]
  exact not_isSome_iff_eq_none.mp (eq_false_iff.mp absent)

theorem release_release (tenant : TenantId) (node : Node) :
    (node.release tenant).release tenant = node.release tenant :=
  release_of_not_carries (by simp)

/-- Takes the tenant from the listed nodes. -/
def releaseAll (tenant : TenantId) (ids : List Nat) (node : Node) : Node :=
  if node.id ∈ ids then node.release tenant else node

theorem foldl_removeTenantFromNode (tenant : TenantId) (nodes : List (Nat × Nat)) (tree : Tree) :
    nodes.foldl (fun tree node => removeTenantFromNode tree tenant node.1) tree =
      ⟨releaseAll tenant (nodes.map fst) tree.root,
        tree.children.map (releaseAll tenant (nodes.map fst)), tree.ledger⟩ := by
  induction nodes generalizing tree with
  | nil =>
    have same : releaseAll tenant [] = id := funext fun node => if_neg not_mem_nil
    have kept : ∀ children : Children, children.map id = children := by
      intro children
      induction children with
      | nil => rfl
      | cons key node below rest ihBelow ihRest => rw [Forest.map, ihBelow, ihRest]; rfl
    rw [foldl_nil, map_nil, same, kept]
    rfl
  | cons node nodes ih =>
    have step : releaseAll tenant (nodes.map fst) ∘ writeAt node.1 (release tenant) =
        releaseAll tenant ((node :: nodes).map fst) := by
      funext other
      have kept : (other.writeAt node.1 (release tenant)).id = other.id :=
        ((inPlace_release tenant).writeAt node.1 other).1
      rw [comp, releaseAll, releaseAll, kept, writeAt, map_cons]
      by_cases same : other.id = node.1
      · rw [if_pos same, if_pos (mem_cons.mpr (.inl same)), release_release, ite_self]
      · have listed : other.id ∈ node.1 :: nodes.map fst ↔ other.id ∈ nodes.map fst := by
          rw [mem_cons, or_iff_right same]
        rw [if_neg same]
        exact (if_congr listed rfl rfl).symm
    rw [foldl_cons, ih, removeTenantFromNode, Tree.modify]
    simp only [Forest.map_map]
    rw [step]
    exact congrArg (Tree.mk · _ _) (congrFun step tree.root)

theorem carries_releaseAll {ids : List Nat} {node : Node} : (releaseAll tenant ids node).carries tenant = true ↔
    node.carries tenant = true ∧ node.id ∉ ids := by
  rw [releaseAll]
  split <;> simp_all

/-- The entries taken from the front of a list: as many as hold the characters to evict, or all. -/
def takenEntries (tree : Tree) (tenant : TenantId) : Nat → List (Nat × Nat) → List (Nat × Nat)
  | _, [] => []
  | charsToEvict, node :: rest =>
    if charsToEvict = 0 then []
    else node :: takenEntries tree tenant (charsToEvict - nodeChars tree tenant node.1) rest

/-- The nodes that `evict_by_tenant` takes from the tenant, the oldest first. -/
def evictedNodes (tree : Tree) (tenant : TenantId) (maxChars : Nat) (order : Nat → Nat) : List Nat :=
  (takenEntries tree tenant ((tree.tenantCharCount.get? tenant).getD 0 - maxChars)
    ((collectTenantNodes tree tenant).insertionSort fun left right =>
      left.2 < right.2 ∨ left.2 = right.2 ∧ order left.1 ≤ order right.1)).map fst

theorem lookup_modify {change : Node → Node} (inPlace : InPlace change) (id other : Nat) :
    (tree.modify id change).lookup other =
      (tree.lookup other).map fun node => (node.1.writeAt id change, node.2.map (writeAt id change)) := by
  have kept (node : Node) : (node.writeAt id change).id = node.id := (inPlace.writeAt id node).1
  have nodes : (tree.modify id change).nodes =
      tree.nodes.map fun node => (node.1.writeAt id change, node.2.map (writeAt id change)) := by
    simp [Tree.nodes, Tree.modify, spots_map]
  rw [Tree.lookup, nodes, find?_map, Tree.lookup]
  simp only [comp_def, kept]

theorem nodeChars_removeTenantFromNode {other : Nat} (apart : other ≠ id) :
    nodeChars (removeTenantFromNode tree tenant id) tenant other = nodeChars tree tenant other := by
  rw [nodeChars, removeTenantFromNode, lookup_modify (inPlace_release tenant), nodeChars]
  cases found : tree.lookup other with
  | none => rfl
  | some node =>
    have same : node.1.writeAt id (release tenant) = node.1 :=
      writeAt_elsewhere (by simpa [hasId, (lookup_some found).2] using apart)
    simp only [map_some, same]

theorem takenEntries_removeTenantFromNode {nodes : List (Nat × Nat)} (apart : id ∉ nodes.map fst) (charsToEvict : Nat) :
    takenEntries (removeTenantFromNode tree tenant id) tenant charsToEvict nodes =
      takenEntries tree tenant charsToEvict nodes := by
  induction nodes generalizing charsToEvict with
  | nil => rfl
  | cons node rest ih =>
    obtain ⟨other, later⟩ := not_or.mp (mem_cons.not.mp apart)
    rw [takenEntries, takenEntries, nodeChars_removeTenantFromNode (Ne.symm other), ih later]

/-- Nodes are taken from the front of the list, until enough is evicted or none is left. -/
theorem evictNodes_spec (tenant : TenantId) (charsToEvict : Nat) {nodes : List (Nat × Nat)} {evicted : Nat}
    {tree : Tree} (nodup : (nodes.map fst).Nodup) (below : ∀ node ∈ nodes, node.1 ≠ tree.root.id)
    (lagging : Lagging tenant evicted tree) :
    let done := evictNodes tenant charsToEvict nodes evicted tree
    let taken := takenEntries tree tenant (charsToEvict - evicted) nodes
    Lagging tenant done.1 done.2 ∧ (taken = nodes ∨ charsToEvict ≤ done.1) ∧
      done.2 = taken.foldl (fun tree node => removeTenantFromNode tree tenant node.1) tree := by
  induction nodes generalizing evicted tree with
  | nil => exact ⟨lagging, .inl rfl, rfl⟩
  | cons node rest ih =>
    obtain ⟨id, timestamp⟩ := node
    obtain ⟨fresh, nodup⟩ := nodup_cons.mp nodup
    rw [evictNodes, takenEntries]
    by_cases enough : charsToEvict ≤ evicted
    · rw [if_pos enough, if_pos (Nat.sub_eq_zero_of_le enough)]
      exact ⟨lagging, .inr enough, rfl⟩
    · have here : id ≠ tree.root.id := below (id, timestamp) mem_cons_self
      have root : (removeTenantFromNode tree tenant id).root = tree.root := if_neg (Ne.symm here)
      obtain ⟨done, ends, same⟩ := ih nodup
        (fun other mem => root ▸ below other (mem_cons_of_mem _ mem)) (lagging.step here)
      rw [takenEntries_removeTenantFromNode fresh, ← Nat.sub_sub] at ends same
      rw [if_neg enough, if_neg (by omega)]
      exact ⟨done, ends.imp_left (congrArg _), same⟩

theorem collected_distinct (sound : Sound tree) (tenant : TenantId) :
    ((collectTenantNodes tree tenant).map fst).Nodup ∧
      ∀ node ∈ collectTenantNodes tree tenant, node.1 ≠ tree.root.id := by
  constructor
  · have ids : ((tree.children.spots tree.root).map fun spot => spot.node.id).Nodup := by
      rw [nodup_iff_count_le_one]
      intro id
      rw [List.count, countP_map]
      exact (total_mark_eq_countP tree.root tree.children).ge.trans (sound.single id)
    rw [Nodup, pairwise_map, collectTenantNodes, pairwise_filterMap]
    refine (pairwise_map.mp ids).imp fun apart first collected second collectedToo => ?_
    obtain ⟨_, -, rfl⟩ := map_eq_some_iff.mp collected
    obtain ⟨_, -, rfl⟩ := map_eq_some_iff.mp collectedToo
    exact apart
  · intro node mem
    obtain ⟨spot, inside, collected⟩ := mem_filterMap.mp mem
    obtain ⟨timestamp, -, rfl⟩ := map_eq_some_iff.mp collected
    exact (sound.below_root inside).symm

/-- The tenant comes within its limit, and loses the nodes that are evicted. -/
theorem evictByTenant_spec (sound : Sound tree) (balanced : Balanced tree) (tenant : TenantId)
    (maxChars : Nat) (order : Nat → Nat) :
    let evicted := evictByTenant tree tenant maxChars order
    let ids := evictedNodes tree tenant maxChars order
    (Sound evicted ∧ Balanced evicted) ∧ evicted.ledger.chars tenant ≤ maxChars ∧
      evicted.root = releaseAll tenant ids tree.root ∧ evicted.children = tree.children.map (releaseAll tenant ids) := by
  rw [evictByTenant, evictedNodes]
  generalize sorted : (collectTenantNodes tree tenant).insertionSort (fun left right =>
    left.2 < right.2 ∨ left.2 = right.2 ∧ order left.1 ≤ order right.1) = nodes
  have perm : nodes.Perm (collectTenantNodes tree tenant) := sorted ▸ perm_insertionSort _ _
  generalize taken : takenEntries tree tenant ((tree.tenantCharCount.get? tenant).getD 0 - maxChars) nodes = entries
  have removed := foldl_removeTenantFromNode tenant entries tree
  split
  · rename_i within
    have none : entries = [] := by
      rw [← taken, Nat.sub_eq_zero_of_le within]
      cases nodes <;> rfl
    rw [none, foldl_nil] at removed
    rw [none]
    exact ⟨⟨sound, balanced⟩, within, (congrArg Tree.root removed :), (congrArg Tree.children removed :)⟩
  · rename_i excess
    rw [evictTenantEntries, if_neg (by omega), sorted]
    have lagging : Lagging tenant 0 tree :=
      ⟨sound, balanced.inside, balanced.held, fun probe => by simp [balanced.sums]⟩
    obtain ⟨nodup, below⟩ := collected_distinct sound tenant
    obtain ⟨done, ends, same⟩ := evictNodes_spec tenant ((tree.tenantCharCount.get? tenant).getD 0 - maxChars)
      ((perm.map fst).nodup_iff.mpr nodup) (fun node mem => below node (perm.mem_iff.mp mem)) lagging
    rw [Nat.sub_zero, taken] at ends same
    rw [removed] at same
    simp only
    generalize evictNodes tenant _ nodes 0 tree = result at done same ends ⊢
    have fewer : result.2.children.total (chars tenant) ≤ maxChars := by
      rcases ends with all | enough
      · by_contra some
        obtain ⟨spot, inside, carried⟩ := exists_carrier result.2.root (zero_lt_of_lt (not_le.mp some))
        rw [same] at inside
        obtain ⟨spot, listed, rfl⟩ := (mem_spots_map (releaseAll tenant (entries.map fst))).mp inside
        obtain ⟨held, kept⟩ := carries_releaseAll.mp carried
        rw [all, (perm.map fst).mem_iff] at kept
        exact kept (id_collected listed held)
      · have lag := done.lag tenant
        have ledger := congrArg Tree.ledger same
        rw [ledger, if_pos rfl] at lag
        exact Nat.le_of_add_le_add_right (lag.ge.trans (Nat.sub_le_iff_le_add'.mp enough))
    cases held : result.2.tenantCharCount.get? tenant with
    | none =>
      rw [Tree.tenantCharCount, same] at held
      exact absurd (by rw [Tree.tenantCharCount, held]; exact zero_le _) excess
    | some count =>
      have sums : Balanced ⟨result.2.root, result.2.children, { result.2.ledger with
          tenantCharCount := result.2.tenantCharCount.insert tenant (count - result.1) }⟩ := by
        refine ⟨done.inside, fun probe => ?_, fun probe => ?_⟩
        · have kept := done.held probe
          rw [Ledger.holds] at kept ⊢
          rw [KeyedMap.contains_insert, kept]
          by_cases same : probe = tenant
          · subst same
            rw [KeyedMap.contains, held] at kept
            simp [← kept]
          · simp [same]
        · have lag := done.lag probe
          rw [Ledger.chars] at lag ⊢
          rw [get?_insert]
          by_cases same : probe = tenant
          · subst same
            rw [held] at lag
            simp only [getD_some, if_true] at lag ⊢
            omega
          · rw [if_neg same, add_zero] at lag
            rw [if_neg same, lag]
      exact ⟨⟨{ done.sound with }, sums⟩, (sums.sums tenant).trans_le fewer, congrArg Tree.root same,
        congrArg Tree.children same⟩

/-! ### Removing a tenant -/

/-- The tenant is taken from every node. -/
theorem removeTenantAll_eq (tree : Tree) (tenant : TenantId) :
    removeTenantAll tree tenant = ⟨tree.root.release tenant, tree.children.map (release tenant),
      { tree.ledger with tenantCharCount := tree.tenantCharCount.erase tenant }⟩ := by
  have rootless : (removeTenantFromNode tree tenant tree.root.id).root = tree.root.release tenant := if_pos rfl
  have twice : release tenant ∘ writeAt tree.root.id (release tenant) = release tenant := by
    funext node
    rw [comp, writeAt]
    split
    · exact release_release tenant node
    · rfl
  have collected : (removeTenantFromNode tree tenant tree.root.id).children.map (releaseAll tenant
        ((collectTenantNodes (removeTenantFromNode tree tenant tree.root.id) tenant).map fst)) =
      (removeTenantFromNode tree tenant tree.root.id).children.map (release tenant) := by
    refine Forest.map_congr fun spot (mem : spot ∈ spots
      (removeTenantFromNode tree tenant tree.root.id).root _) => ?_
    rw [releaseAll]
    split
    · rfl
    · rename_i unlisted
      refine (release_of_not_carries (eq_false_iff.mpr fun carried => unlisted ?_)).symm
      exact id_collected mem carried
  rw [removeTenantAll, foldl_removeTenantFromNode]
  simp only
  rw [collected, rootless]
  have root : releaseAll tenant ((collectTenantNodes (removeTenantFromNode tree tenant tree.root.id)
      tenant).map fst) (tree.root.release tenant) = tree.root.release tenant := by
    rw [releaseAll]
    split
    · exact release_release tenant tree.root
    · rfl
  rw [root, removeTenantFromNode, Tree.modify]
  simp only [Forest.map_map, twice]

theorem removeTenantAll_sound (sound : Sound tree) (tenant : TenantId) : Sound (removeTenantAll tree tenant) := by
  rw [removeTenantAll_eq]
  exact sound.map (inPlace_release tenant) _

theorem removeTenantAll_balanced (balanced : Balanced tree) (tenant : TenantId) :
    Balanced (removeTenantAll tree tenant) := by
  rw [removeTenantAll_eq]
  refine ⟨(hangs_map (release tenant) tree.root).mpr fun spot mem probe carried => ?_,
    fun probe => ?_, fun probe => ?_⟩
  · simp only [carries_release, and_eq_true] at carried ⊢
    exact ⟨carried.1, balanced.inside spot mem probe carried.2⟩
  · have held := balanced.held probe
    simp only [Ledger.holds, contains_erase, carries_release] at held ⊢
    rw [held]
  · have sums := balanced.sums probe
    simp only [Ledger.chars, get?_erase, total_map] at sums ⊢
    by_cases same : probe = tenant
    · subst same
      have none : chars probe ∘ release probe = fun _ => 0 := funext fun node => by simp [chars]
      have zero : tree.children.total (fun _ => 0) = 0 := by simp [total_eq_sum tree.root]
      rw [none, zero, if_pos rfl]
      rfl
    · have kept : chars probe ∘ release tenant = chars probe := funext fun node => by
        rw [comp, chars, chars, carries_release]
        simp [same, release]
      rw [kept, if_neg same, sums]

theorem removeTenantAll_tidy (tidy : Tidy tree)
    (shared : ∀ spot ∈ tree.children.spots tree.root, spot.node.carries tenant = true →
      ∃ other, other ≠ tenant ∧ spot.node.carries other = true) : Tidy (removeTenantAll tree tenant) := by
  rw [removeTenantAll_eq]
  refine (hangs_map (release tenant) tree.root).mpr fun spot mem => ⟨?_, ?_⟩
  · obtain ⟨⟨probe, carried⟩, -⟩ := tidy spot mem
    by_cases same : probe = tenant
    · obtain ⟨other, differs, held⟩ := shared spot mem (same ▸ carried)
      exact ⟨other, by simp [differs, held]⟩
    · exact ⟨probe, by simp [same, carried]⟩
  · intro probe carried
    simp only [carries_release, and_eq_true] at carried ⊢
    exact ⟨carried.1, (tidy spot mem).2 probe carried.2⟩

theorem walk_release (tenant removed : TenantId) (fuel : Nat) (children : Children) (text : List Char) :
    (walk (·.carries tenant) fuel (children.map (release removed)) text).matchedChars =
      if tenant = removed then 0 else (walk (·.carries tenant) fuel children text).matchedChars := by
  induction fuel generalizing children text with
  | zero => simp [walk]
  | succ fuel ih =>
    obtain _ | ⟨first, rest⟩ := text
    · simp [walk]
    rw [walk, walk, Forest.find?_map]
    cases children.find? first with
    | none => simp
    | some found =>
      simp only [Option.map_some, carries_release]
      split_ifs <;> simp_all [release]

/-- Removing a tenant leaves it no match, and every other tenant the match it had. -/
theorem removal_isolated (tree : Tree) (tenant removed : TenantId) (text : List Char) (epoch : Nat) :
    (prefixMatchTenant (removeTenantAll tree removed) text tenant epoch).1 =
      if tenant = removed then [] else (prefixMatchTenant tree text tenant epoch).1 := by
  simp only [removeTenantAll_eq, prefixMatchTenant, walk_release]
  split <;> simp [takeChars]

/-! ### Clearing -/

theorem clear_sound (sound : Sound tree) : Sound (clear tree) := by
  have only : ∀ id, (clear tree).idCount id ≤ tree.idCount id := fun id =>
    Nat.add_le_add_left (Nat.zero_le _) _
  exact ⟨hangs_nil, trivial, rfl, sound.rootParent, fun id => (only id).trans (sound.ids id),
    fun id past => le_zero.mp ((only id).trans (sound.fresh id past).le)⟩

end ModelGateway.StringTree
