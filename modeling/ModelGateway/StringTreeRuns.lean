import ModelGateway.StringTreeRemoval
import ModelGateway.StringTreeSnapshots

/-! The string tree over whole runs: who owns a matched path, and what the character counts
say. -/
namespace ModelGateway.StringTree
open StringText List Forest Ledger

/-- The operations on one tree. -/
inductive Op
  | insertText (text : List Char) (tenant : TenantId) (epoch : Nat)
  | matchPrefixWithCounts (text : List Char) (order epoch : Nat)
  | prefixMatchTenant (text : List Char) (tenant : TenantId) (epoch : Nat)
  | evictTenantBySize (maxSize : Nat) (ties : Nat → Nat)
  | evictByTenant (tenant : TenantId) (maxChars : Nat) (order : Nat → Nat)
  | removeTenantAll (tenant : TenantId)
  | clear

def Op.run (tree : Tree) : Op → Tree
  | .insertText text tenant epoch => StringTree.insertText tree text tenant epoch
  | .matchPrefixWithCounts text order epoch =>
    (StringTree.matchPrefixWithCounts tree text order epoch).2
  | .prefixMatchTenant text tenant epoch => (StringTree.prefixMatchTenant tree text tenant epoch).2
  | .evictTenantBySize maxSize ties => StringTree.evictTenantBySize tree maxSize ties
  | .evictByTenant tenant maxChars order => StringTree.evictByTenant tree tenant maxChars order
  | .removeTenantAll tenant => StringTree.removeTenantAll tree tenant
  | .clear => StringTree.clear tree

/-- The trees that runs reach in which every operation is allowed in the tree it meets; other
trees so reached are merged in, and trees are restored from their snapshots. -/
inductive Reachable (allowed : Tree → Op → Prop) : Tree → Prop
  | new : Reachable allowed Tree.new
  | step {tree : Tree} (op : Op) : Reachable allowed tree → allowed tree op →
      Reachable allowed (op.run tree)
  | mergeTree {tree remote : Tree} : Reachable allowed tree → Reachable allowed remote →
      Reachable allowed (mergeTree tree remote)
  | fromSnapshot {tree : Tree} : Reachable allowed tree →
      Reachable allowed (fromSnapshot (snapshot tree))

theorem sound_new : Sound Tree.new := by
  refine ⟨hangs_nil, trivial, rfl, rfl, fun id => ?_, fun id past => ?_⟩
  · rw [Tree.idCount, mark_hasId]
    split
    · exact le_rfl
    · exact Nat.zero_le _
  · rw [Tree.idCount, mark_hasId, if_neg]
    · rfl
    · exact fun same : (0 : Nat) = id => by subst same; exact absurd past (by decide)

theorem tidy_new : Tidy Tree.new := hangs_nil

theorem balanced_new : Balanced Tree.new := ⟨hangs_nil, fun _ => rfl, fun _ => rfl⟩

variable {tree : Tree} {enter : Node → Bool} {children : Children} {above : Node} {tenant : TenantId}

theorem prefixMatchTenant_keeps {P : Tree → Prop} (sound : Sound tree) (held : P tree)
    (written : ∀ id change, Touches tree id change → P (tree.modify id change)) (text : List Char)
    (tenant : TenantId) (epoch : Nat) : P (prefixMatchTenant tree text tenant epoch).2 := by
  simp only [prefixMatchTenant]
  split
  · rename_i carried
    obtain ⟨below, mem⟩ := curr_mem_nodes tree (fun node => node.carries tenant) (text.length + 1) text
    exact written _ _ (prefixMatchTenant_touches sound mem carried epoch)
  · exact held

/-! ### Owners of a matched path -/

/-- A tenant is removed only where every node it is on has another tenant too. -/
def LeavesOwners (tree : Tree) : Op → Prop
  | .removeTenantAll tenant => ∀ spot ∈ tree.children.spots tree.root,
      spot.node.carries tenant = true → ∃ other, other ≠ tenant ∧ spot.node.carries other = true
  | .evictByTenant _ _ _ => False
  | _ => True

theorem Op.run_tidy (sound : Sound tree) (tidy : Tidy tree) (op : Op) (leaves : LeavesOwners tree op) :
    Sound (op.run tree) ∧ Tidy (op.run tree) := by
  have written id change (touches : Touches tree id change) :
      Sound (tree.modify id change) ∧ Tidy (tree.modify id change) :=
    ⟨sound.modify id touches.1, tidy.touch sound touches⟩
  cases op with
  | insertText text tenant epoch =>
    have grows := insertText_grows sound True text tenant epoch
    exact ⟨grows.sound sound, grows.keeps_tidy tidy⟩
  | matchPrefixWithCounts text order epoch =>
    exact written _ _ (matchPrefixWithCounts_touches tree _ order epoch)
  | prefixMatchTenant text tenant epoch =>
    exact prefixMatchTenant_keeps (P := fun tree => Sound tree ∧ Tidy tree) sound ⟨sound, tidy⟩ written _ _ _
  | evictTenantBySize maxSize ties => exact evictTenantBySize_tidy sound tidy maxSize ties
  | evictByTenant => exact leaves.elim
  | removeTenantAll tenant =>
    exact ⟨removeTenantAll_sound sound tenant, removeTenantAll_tidy tidy leaves⟩
  | clear => exact ⟨clear_sound sound, hangs_nil⟩

theorem Reachable.tidy (reachable : Reachable LeavesOwners tree) : Sound tree ∧ Tidy tree := by
  induction reachable with
  | new => exact ⟨sound_new, tidy_new⟩
  | step op _ leaves ih => exact op.run_tidy ih.1 ih.2 leaves
  | mergeTree _ _ ih ihRemote =>
    have tidy : True → Tidy _ := fun _ => ihRemote.2
    have grows := mergeTree_grows ih.1 ihRemote.1 (Nested.inside ihRemote.2) tidy
    exact ⟨grows.sound ih.1, grows.keeps_tidy ih.2⟩
  | fromSnapshot _ ih =>
    have tidy : True → Tidy _ := fun _ => ih.2
    have grows := (fromSnapshot_snapshot ih.1 (Nested.inside ih.2) tidy).1
    exact ⟨grows.sound sound_new, grows.keeps_tidy tidy_new⟩

theorem walk_owned (nested : Hangs Nested above children) (fuel : Nat) (text : List Char)
    (last : ((walk enter fuel children text).visited.getLastD above).carries tenant = true) :
    above.carries tenant = true ∧ ∀ node ∈ (walk enter fuel children text).visited, node.carries tenant = true := by
  induction fuel generalizing children above text with
  | zero => exact ⟨last, forall_mem_nil _⟩
  | succ fuel ih =>
    rcases walk_cases enter (fuel + 1) children text with stop | ⟨less, first, rest, child, below, fueled,
      -, found, -, ⟨-, _, rfl, goes⟩ | ⟨-, stop⟩⟩
    · rw [stop] at last ⊢
      exact ⟨last, forall_mem_nil _⟩
    · obtain rfl : fuel = less := Nat.succ_injective fueled
      obtain ⟨fit, hangsBelow⟩ := nested.find? found
      rw [goes] at last ⊢
      simp only [getLastD_cons] at last
      obtain ⟨owned, deeper⟩ := ih hangsBelow _ last
      exact ⟨fit.2 tenant owned, forall_mem_cons.mpr ⟨owned, deeper⟩⟩
    · rw [stop] at last ⊢
      have owned : child.carries tenant = true := last
      exact ⟨(nested.find? found).1.2 tenant owned, forall_mem_singleton.mpr owned⟩

theorem walk_visits {fuel : Nat} {text : List Char} (matched : 0 < (walk enter fuel children text).matchedChars) :
    (walk enter fuel children text).visited ≠ [] := by
  rcases walk_cases enter fuel children text with stop | ⟨less, first, rest, child, below, -, -, -, -,
    ⟨-, _, -, goes⟩ | ⟨-, stop⟩⟩
  · rw [stop] at matched
    exact absurd matched (lt_irrefl 0)
  · rw [goes]
    exact cons_ne_nil _ _
  · rw [stop]
    exact cons_ne_nil _ _

theorem getLastD_mem {visited : List Node} {default : Node} (visits : visited ≠ []) :
    visited.getLastD default ∈ visited := by
  rw [getLastD_eq_getLast?, getLast?_eq_some_getLast visits]
  exact getLast_mem visits

theorem Tidy.match_owned (tidy : Tidy tree) (text : List Char) (order epoch : Nat)
    (matched : 0 < (matchPrefixWithCounts tree text order epoch).1.matchedCharCount) :
    (walk (fun _ => true) (text.length + 1) tree.children text).visited ≠ [] ∧
      ∀ node ∈ (walk (fun _ => true) (text.length + 1) tree.children text).visited,
        node.carries (matchPrefixWithCounts tree text order epoch).1.tenant = true := by
  have visits := walk_visits matched
  refine ⟨visits, (walk_owned tidy (text.length + 1) text ?_).2⟩
  -- the node the match ends at is below the root, so it has a tenant
  obtain ⟨spot, mem, last⟩ := walk_visited tree.root (text.length + 1) text (getLastD_mem visits)
  obtain ⟨⟨tenant, carried⟩, -⟩ := tidy spot mem
  rw [last] at carried
  refine (Node.selectTenant_spec order _).2.resolve_right fun bare => ?_
  rw [bare.2 tenant] at carried
  cases carried

/-- In a tree reached by such runs, the tenant a match reports owns every node on the matched
path, and there is such a node whenever characters are matched. -/
theorem matched_path_owned {tree : Tree} (reachable : Reachable LeavesOwners tree) (text : List Char)
    (order epoch : Nat) (matched : 0 < (matchPrefixWithCounts tree text order epoch).1.matchedCharCount) :
    (walk (fun _ => true) (text.length + 1) tree.children text).visited ≠ [] ∧
      ∀ node ∈ (walk (fun _ => true) (text.length + 1) tree.children text).visited,
        node.carries (matchPrefixWithCounts tree text order epoch).1.tenant = true :=
  reachable.tidy.2.match_owned text order epoch matched

/-- A tenant stays the only owner of a path until it is removed; the path is still matched. -/
theorem removed_tenant_path : Reachable (fun _ _ => True) (removeTenantAll (insertText .new ['a', 'b'] "t" 1) "t") ∧
      (matchPrefixWithCounts (removeTenantAll (insertText .new ['a', 'b'] "t" 1) "t") ['a', 'b'] 0
        0).1 = ⟨"empty", 2, 2⟩ ∧
      (walk (fun _ => true) 3 (removeTenantAll (insertText .new ['a', 'b'] "t" 1) "t").children
        ['a', 'b']).visited.all (fun node => !node.carries "empty") = true :=
  ⟨.step (.removeTenantAll "t") (.step (.insertText ['a', 'b'] "t" 1) .new trivial) trivial, by decide, by decide⟩

theorem matched_path_shared :
    0 < (matchPrefixWithCounts (removeTenantAll (insertText (insertText .new ['a', 'b'] "t" 1) ['a', 'b']
        "u" 2) "t") ['a', 'b'] 0 0).1.matchedCharCount ∧
      ∀ node ∈ (walk (fun _ => true) 3 (removeTenantAll (insertText (insertText .new ['a', 'b'] "t" 1)
        ['a', 'b'] "u" 2) "t").children ['a', 'b']).visited, node.carries "u" = true := by
  have reachable : Reachable LeavesOwners (removeTenantAll (insertText (insertText .new ['a', 'b'] "t" 1)
      ['a', 'b'] "u" 2) "t") := by
    refine .step (.removeTenantAll "t") (.step (.insertText ['a', 'b'] "u" 2)
      (.step (.insertText ['a', 'b'] "t" 1) .new trivial) trivial) ?_
    intro spot mem carried
    exact ⟨"u", by decide, by revert spot; decide⟩
  exact ⟨by decide, (matched_path_owned reachable ['a', 'b'] 0 0 (by decide)).2⟩

/-! ### Sizes -/

theorem get?_tenantCharCount {first second : Ledger} (held : first.holds tenant = second.holds tenant)
    (chars : first.chars tenant = second.chars tenant) :
    first.tenantCharCount.get? tenant = second.tenantCharCount.get? tenant := by
  rw [holds, holds, KeyedMap.contains, KeyedMap.contains] at held
  rw [Ledger.chars, Ledger.chars] at chars
  cases one : first.tenantCharCount.get? tenant <;>
    cases other : second.tenantCharCount.get? tenant <;> simp_all

theorem get?_getUsedSizePerTenant (sound : Sound tree) (balanced : Balanced tree) (tenant : TenantId) :
    (getUsedSizePerTenant tree).get? tenant = tree.tenantCharCount.get? tenant := by
  have rootEmpty : tree.root.text.charCount = 0 := by rw [sound.rootText]; rfl
  have root : (countNode ∅ tree.root).get? tenant =
      if tree.root.carries tenant then some 0 else none := by
    rw [get?_countNode, rootEmpty]
    rfl
  show (Ledger.mk (getUsedSizePerTenant tree) 0).tenantCharCount.get? tenant = _
  refine get?_tenantCharCount ?_ ?_
  · rw [balanced.held tenant, holds, Bool.eq_iff_iff, getUsedSizePerTenant,
      contains_accumulateTenantCounts, KeyedMap.contains, root]
    refine ⟨?_, fun carried => .inl (by simp [carried])⟩
    rintro (rooted | below)
    · by_contra absent
      simp [absent] at rooted
    · obtain ⟨spot, mem, carried⟩ := exists_of_total_mark tree.root below
      exact balanced.inside spot mem tenant carried
  · rw [balanced.sums tenant, Ledger.chars, getUsedSizePerTenant, getD_accumulateTenantCounts, root]
    split <;> simp

/-- A tenant holds no more than the size limit on nodes cut off from the root by nodes it
does not hold. -/
def WithinReach (tree : Tree) : Op → Prop
  | .evictTenantBySize maxSize _ => Slack maxSize tree
  | _ => True

theorem total_unowned (nested : Hangs Nested above children)
    (absent : above.carries tenant = false) : children.total (chars tenant) = 0 := by
  by_contra some
  obtain ⟨spot, inside, carried⟩ := exists_carrier above (Nat.pos_of_ne_zero some)
  rw [Nested.inside nested spot inside tenant carried] at absent
  cases absent

theorem total_connected (nested : Hangs Nested above children) :
    children.total (chars tenant) = connected tenant children := by
  induction children generalizing above with
  | nil => rfl
  | cons key node below rest ihBelow ihRest =>
    obtain ⟨-, nestedBelow, nestedRest⟩ := hangs_cons.mp nested
    rw [total, ihRest nestedRest, connected, connected, reached, chars]
    split
    · rw [ihBelow nestedBelow]
      rfl
    · rw [total_unowned nestedBelow (Bool.eq_false_iff.mpr ‹_›)]

theorem Tidy.slack (tidy : Tidy tree) (maxSize : Nat) : Slack maxSize tree := by
  intro tenant
  rw [total_connected tidy]
  exact Nat.le_add_right _ _

theorem Op.run_balanced (sound : Sound tree) (balanced : Balanced tree) (op : Op)
    (within : WithinReach tree op) : Sound (op.run tree) ∧ Balanced (op.run tree) := by
  have written id change (touches : Touches tree id change) :
      Sound (tree.modify id change) ∧ Balanced (tree.modify id change) :=
    ⟨sound.modify id touches.1, balanced.touch touches⟩
  cases op with
  | insertText text tenant epoch =>
    have grows := insertText_grows sound False text tenant epoch
    exact ⟨grows.sound sound, grows.balanced sound balanced⟩
  | matchPrefixWithCounts text order epoch =>
    exact written _ _ (matchPrefixWithCounts_touches tree _ order epoch)
  | prefixMatchTenant text tenant epoch =>
    exact prefixMatchTenant_keeps (P := fun tree => Sound tree ∧ Balanced tree) sound ⟨sound, balanced⟩ written _ _ _
  | evictTenantBySize maxSize ties => exact evictTenantBySize_balanced sound balanced within ties
  | evictByTenant tenant maxChars order => exact (evictByTenant_spec sound balanced tenant maxChars order).1
  | removeTenantAll tenant =>
    exact ⟨removeTenantAll_sound sound tenant, removeTenantAll_balanced balanced tenant⟩
  | clear => exact ⟨clear_sound sound, hangs_nil, fun _ => rfl, fun _ => rfl⟩

theorem Reachable.balanced (reachable : Reachable WithinReach tree) : Sound tree ∧ Balanced tree := by
  induction reachable with
  | new => exact ⟨sound_new, balanced_new⟩
  | step op _ within ih => exact op.run_balanced ih.1 ih.2 within
  | mergeTree _ _ ih ihRemote =>
    have grows := mergeTree_grows ih.1 ihRemote.1 ihRemote.2.inside False.elim
    exact ⟨grows.sound ih.1, grows.balanced ih.1 ih.2⟩
  | fromSnapshot _ ih =>
    have grows := (fromSnapshot_snapshot ih.1 ih.2.inside False.elim).1
    exact ⟨grows.sound sound_new, grows.balanced sound_new balanced_new⟩

/-- A node's edge is not empty and its length is cached; its parent pointer leads to the node
whose children hold it under the first character of its edge. -/
def WellPlaced (tree : Tree) (spot : Spot Char Node) : Prop :=
  spot.node.text.text ≠ [] ∧ spot.node.text.charCount = spot.node.text.text.length ∧
    ∃ siblings, spot.node.parent.bind tree.lookup = some (spot.above, siblings) ∧
      spot.node.text.firstChar.bind siblings.find? = some (spot.node, spot.below)

theorem Sound.lookup (sound : Sound tree) {node : Node × Children} (mem : node ∈ tree.nodes) :
    tree.lookup node.1.id = some node := by
  cases found : tree.lookup node.1.id with
  | none => exact absurd (find?_eq_none.mp found node mem) (by simp)
  | some other =>
    obtain ⟨inside, same⟩ := lookup_some found
    rw [sound.unique mem inside same]

theorem Sound.wellPlaced (sound : Sound tree) {spot : Spot Char Node}
    (mem : spot ∈ tree.children.spots tree.root) : WellPlaced tree spot := by
  obtain ⟨starts, length, pointer⟩ := sound.linked spot mem
  obtain ⟨siblings, inside, found⟩ := sound.hung mem
  refine ⟨fun empty => by simp [empty] at starts, length, siblings, ?_, ?_⟩
  · rw [pointer]
    exact sound.lookup inside
  · rw [NodeText.firstChar, starts]
    exact found

/-- In a tree reached by such runs every node below the root is well placed, and the counts
kept are the sizes recomputed from the nodes. -/
theorem reached_tree_counted {tree : Tree} (reachable : Reachable WithinReach tree) :
    (∀ spot ∈ tree.children.spots tree.root, WellPlaced tree spot) ∧
      ∀ tenant, tree.tenantCharCount.get? tenant = (getUsedSizePerTenant tree).get? tenant := by
  obtain ⟨sound, balanced⟩ := reachable.balanced
  exact ⟨fun spot mem => sound.wellPlaced mem, fun tenant =>
    (get?_getUsedSizePerTenant sound balanced tenant).symm⟩

/-- A tenant evicted from the upper node of a path keeps the lower one, and the root loses it. -/
theorem cut_off_tenant_uncounted :
    let cutOff := evictByTenant (insertText (insertText .new ['a'] "t" 1) ['a', 'b'] "t" 2) "t" 1 id
    Reachable (fun _ _ => True) (evictTenantBySize cutOff 0 id) ∧
      (evictTenantBySize cutOff 0 id).tenantCharCount.get? "t" = some 0 ∧
      (getUsedSizePerTenant (evictTenantBySize cutOff 0 id)).get? "t" = none :=
  ⟨.step (.evictTenantBySize 0 id) (.step (.evictByTenant "t" 1 id) (.step (.insertText ['a', 'b'] "t" 2)
    (.step (.insertText ['a'] "t" 1) .new trivial) trivial) trivial) trivial, by decide, by decide⟩

theorem evicted_tenant_counted :
    let evicted := evictTenantBySize (insertText (insertText .new ['a'] "t" 1) ['a', 'b'] "t" 2) 1 id
    evicted.tenantCharCount.get? "t" = some 1 ∧
      (∀ spot ∈ evicted.children.spots evicted.root, WellPlaced evicted spot) ∧
      ∀ tenant, evicted.tenantCharCount.get? tenant = (getUsedSizePerTenant evicted).get? tenant := by
  intro evicted
  have inserted : Reachable LeavesOwners (insertText (insertText .new ['a'] "t" 1) ['a', 'b'] "t" 2) :=
    .step (.insertText ['a', 'b'] "t" 2) (.step (.insertText ['a'] "t" 1) .new trivial) trivial
  have reachable : Reachable WithinReach evicted :=
    .step (.evictTenantBySize 1 id) (.step (.insertText ['a', 'b'] "t" 2)
      (.step (.insertText ['a'] "t" 1) .new trivial) trivial) (inserted.tidy.2.slack 1)
  exact ⟨by decide, reached_tree_counted reachable⟩

/-! ### Snapshots -/

structure Orderly (tree : Tree) : Prop where
  sound : Sound tree
  tidy : Tidy tree
  balanced : Balanced tree

/-- An insertion, a match or an eviction by size. -/
def Op.builds : Op → Bool
  | .insertText .. | .matchPrefixWithCounts .. | .prefixMatchTenant .. | .evictTenantBySize .. => true
  | _ => false

theorem Orderly.run (orderly : Orderly tree) {op : Op} (builds : op.builds = true) : Orderly (op.run tree) := by
  have leaves : LeavesOwners tree op := by
    cases op <;> trivial
  have within : WithinReach tree op := by
    cases op with
    | evictTenantBySize maxSize => exact orderly.tidy.slack maxSize
    | _ => trivial
  obtain ⟨sound, tidy⟩ := op.run_tidy orderly.sound orderly.tidy leaves
  exact ⟨sound, tidy, (op.run_balanced orderly.sound orderly.balanced within).2⟩

theorem orderly_build {ops : List Op} (builds : ∀ op ∈ ops, op.builds = true) : Orderly (ops.foldl Op.run .new) := by
  induction ops using List.reverseRecOn with
  | nil => exact ⟨sound_new, tidy_new, balanced_new⟩
  | append_singleton ops op ih =>
    rw [foldl_append]
    exact (ih fun other mem => builds other (mem_append_left _ mem)).run
      (builds op (mem_append_right _ (mem_singleton_self op)))

/-- A tree that insertions, matches and evictions by size have built is restored from its snapshot: under
every path there is a node with the same edge and the same tenants and epochs, or none in both, and the counts
are the same. Any list of nodes is read to an end, and its children hang under the first characters of their edges. -/
theorem snapshots_restored : (∀ ops : List Op, (∀ op ∈ ops, op.builds = true) →
      let tree := ops.foldl Op.run .new
      let restored := fromSnapshot (snapshot tree)
      (∀ path, (nodeAt restored.root restored.children path).map Node.content =
        (nodeAt tree.root tree.children path).map Node.content) ∧
      ∀ tenant, restored.tenantCharCount.get? tenant = tree.tenantCharCount.get? tenant) ∧
    ∀ nodes : List SnapshotNode, (∀ more target count children ledger,
        restoreChildren (nodes.length + more) target count nodes children ledger =
          restoreChildren nodes.length target count nodes children ledger) ∧
      Hangs Keyed (fromSnapshot ⟨nodes⟩).root (fromSnapshot ⟨nodes⟩).children := by
  refine ⟨fun ops builds => ?_, fun nodes => ⟨restoreChildren_fuel le_rfl, ?_⟩⟩
  · intro tree restored
    have orderly : Orderly tree := orderly_build builds
    obtain ⟨grows, root, copies⟩ := fromSnapshot_snapshot orderly.sound (Nested.inside orderly.tidy) (@False.elim _)
    have balanced := grows.balanced sound_new balanced_new
    have same : restored.root.content = tree.root.content := by
      refine Prod.ext ?_ (funext root)
      exact (grows.sound sound_new).rootText.trans orderly.sound.rootText.symm
    refine ⟨fun path => ?_, fun tenant => get?_tenantCharCount ?_ ?_⟩
    · rw [copies.nodeAt same, nodeAt_shuffled (shuffled_sortDeep _) orderly.sound.distinct]
    · rw [balanced.held, orderly.balanced.held]
      exact Copies.carries root tenant
    · rw [balanced.sums, orderly.balanced.sums, copies.total, (shuffled_sortDeep _).total]
  · cases nodes with
    | nil => exact hangs_nil
    | cons => exact restoreChildren_keyed _ _ _ _ _ hangs_nil

theorem snapshots_restored_evicted : (fromSnapshot (snapshot ([.insertText ['a'] "t" 1, .insertText ['a', 'b'] "t" 2,
        .evictTenantBySize 1 id].foldl Op.run .new))).tenantCharCount.get? "t" =
      ([.insertText ['a'] "t" 1, .insertText ['a', 'b'] "t" 2, .evictTenantBySize 1 id].foldl Op.run
        .new).tenantCharCount.get? "t" :=
  (snapshots_restored.1 _ (by decide)).2 "t"

end ModelGateway.StringTree
