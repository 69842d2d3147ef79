import ModelGateway.StringTreeTexts

/-! What eviction by size leaves of a tree that insertions and matches have built. -/
namespace ModelGateway.StringTree
open StringText List Forest Option Node PathCover KeyedMap

variable {tree start : Tree} {tenant probe : TenantId} {node : Node} {below : Children} {maxSize : Nat}
  {spot : Spot Char Node}

/-! ### A tenant's part of a tree -/

/-- A node of a tenant: its identity, edge and parent, and the tenant's timestamp. -/
abbrev Share := Nat × NodeText × Option Nat × Nat

def Node.share (tenant : TenantId) (node : Node) : Option Share :=
  (node.tenantLastAccessTime.get? tenant).map fun timestamp => (node.id, node.text, node.parent, timestamp)

/-- The nodes that carry a tenant. -/
def shares (tenant : TenantId) (tree : Tree) : List Share :=
  tree.nodes.filterMap fun node => node.1.share tenant

theorem mem_shares {share : Share} : share ∈ shares tenant tree ↔ tree.root.share tenant = some share ∨
    ∃ spot ∈ tree.children.spots tree.root, spot.node.share tenant = some share := by
  simp [shares, Tree.nodes]

theorem exists_share (carried : node.carries tenant = true) :
    ∃ share, node.share tenant = some share ∧ share.1 = node.id := by
  obtain ⟨timestamp, held⟩ := isSome_iff_exists.mp carried
  exact ⟨_, by rw [Node.share, held]; rfl, rfl⟩

theorem of_share {share : Share} (held : node.share tenant = some share) :
    node.carries tenant = true ∧ node.id = share.1 := by
  obtain ⟨timestamp, found, rfl⟩ := map_eq_some_iff.mp held
  exact ⟨isSome_iff_exists.mpr ⟨timestamp, found⟩, rfl⟩

theorem share_writeAt_release (id : Nat) (tenant probe : TenantId) (node : Node) :
    (node.writeAt id (release tenant)).share probe =
      if node.id = id ∧ probe = tenant then none else node.share probe := by
  unfold writeAt Node.share
  by_cases here : node.id = id <;> by_cases same : probe = tenant <;>
    simp [here, same, release, get?_erase]

/-! ### Leaves -/

/-- A child of a node that carries a tenant. -/
def isHeir (tenant : TenantId) (id : Nat) (node : Node) : Bool :=
  decide (node.parent = some id) && node.carries tenant

def heirs (tenant : TenantId) (id : Nat) (children : Children) : Nat :=
  children.total (mark (isHeir tenant id))

theorem LeafFor.heirs_eq (leaf : LeafFor tree tenant node below) (sound : Sound tree) :
    heirs tenant node.id tree.children = 0 := by
  by_contra some
  obtain ⟨spot, inside, marked⟩ := exists_of_total_mark tree.root (Nat.pos_of_ne_zero some)
  rw [isHeir, Bool.and_eq_true, decide_eq_true_eq, (sound.linked spot inside).2.2, Option.some.injEq] at marked
  rw [leaf.child sound inside marked.1] at marked
  cases marked.2

theorem LeafFor.of_heirs (sound : Sound tree) (mem : (node, below) ∈ tree.nodes)
    (carried : node.carries tenant = true) (none : heirs tenant node.id tree.children = 0) :
    LeafFor tree tenant node below := by
  refine ⟨mem, carried, fun child top => ?_⟩
  obtain ⟨key, inner, inside⟩ := spot_of_mem_tops top node
  have hung : ⟨node, key, child, inner⟩ ∈ tree.children.spots tree.root := by
    rcases mem_nodes.mp mem with root | ⟨spot, within, same⟩
    · cases root
      exact inside
    · cases same
      exact spots_below within inside
  rw [← Bool.not_eq_true]
  intro carries
  have counted : 1 ≤ heirs tenant node.id tree.children := one_le_total_mark hung <| by
    have parent : child.parent = some node.id := (sound.linked _ hung).2.2
    simp [isHeir, parent, carries]
  omega

theorem exists_leaf (mem : spot ∈ tree.children.spots tree.root)
    (carried : spot.node.carries tenant = true) : ∃ node below, LeafFor tree tenant node below := by
  obtain ⟨last, inside, carries, deepest⟩ :=
    exists_deepest (fun node : Node => node.carries tenant = true) mem carried
  refine ⟨last.node, last.below, node_mem_nodes inside, carries, fun child top => ?_⟩
  obtain ⟨key, inner, within⟩ := spot_of_mem_tops top last.node
  exact Bool.eq_false_iff.mpr (deepest _ within)

/-! ### Evicting leaf by leaf -/

/-- Trees reached by taking tenants above the limit from nodes that are leaves for them. -/
inductive Evicts (maxSize : Nat) (start : Tree) : Tree → Prop
  | refl : Evicts maxSize start start
  | leaf {tree : Tree} {tenant : TenantId} {node : Node} {below : Children} :
      Evicts maxSize start tree → LeafFor tree tenant node below → maxSize < tree.ledger.chars tenant →
      Evicts maxSize start (evictLeaf tree tenant node below).2

section Leaf
variable (leaf : LeafFor tree tenant node below) (orderly : Orderly tree) (above : maxSize < tree.ledger.chars tenant)
include leaf orderly above

theorem Orderly.evictLeaf : Orderly (evictLeaf tree tenant node below).2 := by
  obtain ⟨spot, inside, rfl, rfl⟩ := leaf.below_root orderly.balanced (orderly.tidy.slack maxSize) above
  exact ⟨evictLeaf_sound orderly.sound _ _ _, leaf.tidy orderly.sound orderly.tidy,
    (leaf.balanced orderly.sound inside orderly.balanced (orderly.tidy.slack maxSize)).1⟩

theorem exists_spot_evictLeaf (marked : Node → Bool)
    (tenanted : ∀ node : Node, marked node = true → ∃ tenant, node.carries tenant = true) :
    let post := (StringTree.evictLeaf tree tenant node below).2
    (post.root = tree.root ∧ tree.root.id ≠ node.id) ∧
    ((∃ spot ∈ post.children.spots post.root, marked spot.node = true) ↔
      ∃ spot ∈ tree.children.spots tree.root, marked (spot.node.writeAt node.id (release tenant)) = true) := by
  obtain ⟨spot, inside, rfl, rfl⟩ := leaf.below_root orderly.balanced (orderly.tidy.slack maxSize) above
  obtain ⟨root, -, totals, -⟩ := orderly.sound.unlinked inside tenant
  refine ⟨⟨root.trans (releasedTree_root orderly.sound inside tenant), orderly.sound.below_root inside⟩, ?_⟩
  rw [← total_mark_pos, totals _ fun node bare => ?_]
  · exact (iff_of_eq (congrArg (0 < ·) (total_map _ _))).trans (total_mark_pos tree.root)
  · refine if_neg fun hit => ?_
    obtain ⟨probe, carried⟩ := tenanted node hit
    rw [bare] at carried
    cases carried

theorem LeafFor.mem_shares_iff {share : Share} :
    share ∈ shares probe (StringTree.evictLeaf tree tenant node below).2 ↔
      share ∈ shares probe tree ∧ ¬ (share.1 = node.id ∧ probe = tenant) := by
  obtain ⟨⟨root, apart⟩, spots⟩ := exists_spot_evictLeaf leaf orderly above
    (fun node => decide (node.share probe = some share)) fun node held =>
      ⟨probe, (of_share (of_decide_eq_true held)).1⟩
  simp only [decide_eq_true_eq, share_writeAt_release] at spots
  rw [mem_shares, mem_shares, spots, root, or_and_right]
  refine or_congr ?_ ?_
  · refine (and_iff_left_of_imp fun held named => apart ?_).symm
    rw [(of_share held).2, named.1]
  · constructor
    · rintro ⟨spot, inside, held⟩
      split at held
      · cases held
      · rename_i other
        exact ⟨⟨spot, inside, held⟩, fun named => other ⟨(of_share held).2.trans named.1, named.2⟩⟩
    · rintro ⟨⟨spot, inside, held⟩, other⟩
      exact ⟨spot, inside, by rwa [if_neg fun named => other ⟨(of_share held).2 ▸ named.1, named.2⟩]⟩

end Leaf

theorem chars_evictLeaf (tree : Tree) (tenant probe : TenantId) (node : Node) (below : Children) :
    (evictLeaf tree tenant node below).2.ledger.chars probe =
      tree.ledger.chars probe - if probe = tenant then node.text.charCount else 0 := by
  rcases evictLeaf_cases tree tenant node below with ⟨same, -⟩ | ⟨parent, first, -, -, -, -, same⟩
  · rw [same, (releasedTree_ledger ..).1]
  · rw [same]
    exact (releasedTree_ledger ..).1

namespace Evicts
variable (evicts : Evicts maxSize start tree) (orderly : Orderly start)
include evicts orderly

theorem keeps_orderly : Orderly tree := by
  induction evicts with
  | refl => exact orderly
  | leaf _ leaf above ih => exact ih.evictLeaf leaf above

theorem mem_shares {share : Share} (mem : share ∈ shares probe tree) : share ∈ shares probe start := by
  induction evicts with
  | refl => exact mem
  | leaf pre leaf above ih => exact ih ((leaf.mem_shares_iff (pre.keeps_orderly orderly) above).mp mem).1

theorem within (within : start.ledger.chars probe ≤ maxSize) : tree.ledger.chars probe = start.ledger.chars probe ∧
      ∀ share, share ∈ shares probe tree ↔ share ∈ shares probe start := by
  induction evicts with
  | refl => exact ⟨rfl, fun _ => Iff.rfl⟩
  | @leaf tree tenant node below pre leaf above ih =>
    have other : probe ≠ tenant := by
      rintro rfl
      omega
    rw [chars_evictLeaf, if_neg other, Nat.sub_zero]
    exact ⟨ih.1, fun share => by
      rw [leaf.mem_shares_iff (pre.keeps_orderly orderly) above, ih.2, and_iff_left fun named => other named.2]⟩

end Evicts

/-! ### The queue -/

/-- Every leaf of a tenant above the limit has an entry. -/
def Pending (maxSize : Nat) (queue : List EvictionEntry) (tree : Tree) : Prop :=
  ∀ tenant node below, LeafFor tree tenant node below → maxSize < tree.ledger.chars tenant →
    ∃ entry ∈ queue, entry.tenant = tenant ∧ entry.node = node.id

theorem pending_leafEntries (maxSize : Nat) (tree : Tree) :
    Pending maxSize (tree.nodes.flatMap leafEntries) tree := by
  intro tenant node below leaf _
  obtain ⟨timestamp, held⟩ := isSome_iff_exists.mp leaf.carried
  refine ⟨⟨timestamp, tenant, node.id⟩, mem_flatMap.mpr ⟨_, leaf.mem, ?_⟩, rfl, rfl⟩
  simp only [leafEntries, leafOf, mem_filterMap, mem_filter]
  refine ⟨tenant, ⟨mem_keys_iff.mpr ⟨_, held⟩, ?_⟩, by rw [held]; rfl⟩
  rw [anyChildCarries_iff.mpr leaf.last]
  rfl

theorem evictEntry_of_leaf {entry : EvictionEntry} (leaf : LeafFor tree entry.tenant node below)
    (sound : Sound tree) (named : entry.node = node.id) (above : maxSize < tree.ledger.chars entry.tenant) :
    evictEntry maxSize tree entry = evictLeaf tree entry.tenant node below := by
  rw [evictEntry, if_neg, named, sound.lookup leaf.mem]
  · simp [leaf.carried, anyChildCarries_iff.mpr leaf.last]
  · rw [Ledger.chars] at above
    cases held : tree.tenantCharCount.get? entry.tenant with
    | none => simp
    | some count => simpa [held] using above

theorem parent_pushed {id : Nat} (pointer : node.parent = some id) {parent : Node} {siblings : Children}
    (leaf : LeafFor (evictLeaf tree tenant node below).2 tenant parent siblings)
    (sound : Sound (evictLeaf tree tenant node below).2) (named : parent.id = id) :
    ∃ entry ∈ (evictLeaf tree tenant node below).1, entry.tenant = tenant ∧ entry.node = id := by
  have pushed : (evictLeaf tree tenant node below).1 =
      (parentEntry (evictLeaf tree tenant node below).2 tenant id).toList := by
    rw [evictLeaf, pointer]
  obtain ⟨timestamp, held⟩ := isSome_iff_exists.mp leaf.carried
  rw [pushed, parentEntry, ← named, sound.lookup leaf.mem]
  simp only [leaf.carried, anyChildCarries_iff.mpr leaf.last, and_self, if_true, held]
  exact ⟨_, mem_singleton_self _, rfl, rfl⟩

theorem evictEntry_pending (orderly : Orderly tree) {queue : List EvictionEntry}
    (pending : Pending maxSize queue tree) (entry : EvictionEntry) :
    Pending maxSize ((evictEntry maxSize tree entry).1 ++ queue.erase entry) (evictEntry maxSize tree entry).2 := by
  rcases evictEntry_cases maxSize tree entry with idle | ⟨node, below, leaf, named, excess, evicts⟩
  · rw [idle]
    intro tenant node below leaf above
    obtain ⟨other, mem, rfl, at_⟩ := pending tenant node below leaf above
    refine ⟨other, (mem_erase_of_ne ?_).mpr mem, rfl, at_⟩
    rintro rfl
    -- the entry of a leaf is not skipped: the leaf would still be there
    have fewer := leaf.ownerships orderly.sound
    rw [← evictEntry_of_leaf leaf orderly.sound at_ above, idle] at fewer
    simp only at fewer
    omega
  · have above := leaf.excess orderly.balanced excess
    have post := orderly.evictLeaf leaf above
    rw [evicts]
    intro tenant upper siblings last limit
    have limit' : maxSize < tree.ledger.chars tenant := by
      rw [chars_evictLeaf] at limit
      omega
    obtain ⟨share, held, id⟩ := exists_share last.carried
    obtain ⟨pre, other⟩ := (leaf.mem_shares_iff orderly above).mp (mem_filterMap.mpr ⟨_, last.mem, held⟩)
    obtain ⟨⟨origin, children⟩, mem, held'⟩ := mem_filterMap.mp pre
    obtain ⟨carried, same⟩ := of_share held'
    by_cases none : heirs tenant origin.id tree.children = 0
    · -- it was a leaf before
      obtain ⟨waiting, queued, rfl, at_⟩ :=
        pending tenant origin children (.of_heirs orderly.sound mem carried none) limit'
      refine ⟨waiting, mem_append_right _ ((mem_erase_of_ne ?_).mpr queued), rfl, ?_⟩
      · rintro rfl
        exact other ⟨by rw [← same, ← at_, named], rfl⟩
      · rw [at_, same, id]
    · -- the node evicted was its last child with the tenant
      obtain ⟨spot, inside, heir⟩ := exists_of_total_mark tree.root (Nat.pos_of_ne_zero none)
      rw [isHeir, Bool.and_eq_true, decide_eq_true_eq] at heir
      have evicted : spot.node.id = node.id ∧ tenant = entry.tenant := by
        by_contra elsewhere
        have place := ((inPlace_release entry.tenant).writeAt node.id spot.node).2.2
        have stays := (exists_spot_evictLeaf leaf orderly above (isHeir tenant origin.id)
          fun node hit => ⟨tenant, (Bool.and_eq_true_iff.mp hit).2⟩).2.mpr ⟨spot, inside, by
            simp [isHeir, place, heir.1, carries_writeAt_release.mpr ⟨heir.2, elsewhere⟩]⟩
        have counted : 0 < heirs tenant origin.id _ := (total_mark_pos _).mpr stays
        rw [same, id, last.heirs_eq post.sound] at counted
        exact absurd counted (Nat.lt_irrefl 0)
      obtain ⟨hit, rfl⟩ := evicted
      have whole := orderly.sound.unique leaf.mem (node_mem_nodes inside) hit
      rw [Prod.mk.injEq] at whole
      obtain ⟨pushed, queued, owner, at_⟩ := parent_pushed (whole.1 ▸ heir.1) last post.sound
        (id.symm.trans same.symm)
      exact ⟨pushed, mem_append_left _ queued, owner, at_.trans (same.trans id)⟩

/-! ### Eviction by size -/

/-- After any insertions and matches, eviction by size ends with no entry left to look at and every
tenant within the limit. It takes tenants above the limit only, each from a node that is a leaf for it at
that time, so that the nodes of a tenant within the limit are the same as before, those of the others
are among them, each node that is left has a tenant, and its parent carries all of them. -/
theorem evicted_within_limit (calls : List Call) (maxSize : Nat) (ties : Nat → Nat) :
    let tree := afterCalls calls
    let queue := tree.nodes.flatMap leafEntries
    let evicted := evictTenantBySize tree maxSize ties
    (evictLoop maxSize ties (queue.length + tree.ownerships) queue tree).1 = [] ∧
      (∀ tenant, evicted.ledger.chars tenant ≤ maxSize) ∧
      (∀ tenant, tree.ledger.chars tenant ≤ maxSize →
        ∀ share, share ∈ shares tenant evicted ↔ share ∈ shares tenant tree) ∧
      Evicts maxSize tree evicted ∧ (∀ tenant, shares tenant evicted ⊆ shares tenant tree) ∧
      Tidy evicted := by
  intro tree queue evicted
  have orderly : Orderly tree := afterCalls_orderly calls
  have drained := evictLoop_drains maxSize ties _ queue tree orderly.sound le_rfl
  have kept := evictLoop_invariant maxSize ties
    (fun queue post => Evicts maxSize tree post ∧ Pending maxSize queue post) ?_
    (queue.length + tree.ownerships) queue tree ⟨.refl, pending_leafEntries maxSize tree⟩
  · obtain ⟨evicts, pending⟩ := kept
    have post := evicts.keeps_orderly orderly
    refine ⟨drained, fun tenant => ?_, fun tenant within => (evicts.within orderly within).2, evicts,
      fun tenant share => evicts.mem_shares orderly, post.tidy⟩
    by_contra above
    have sums := post.balanced.sums tenant
    obtain ⟨spot, inside, carried⟩ := exists_carrier evicted.root (sums ▸ Nat.zero_lt_of_lt (Nat.lt_of_not_le above))
    obtain ⟨node, below, leaf⟩ := exists_leaf inside carried
    obtain ⟨entry, mem, -⟩ := pending tenant node below leaf (Nat.lt_of_not_le above)
    rw [drained] at mem
    cases mem
  · rintro queue post entry - ⟨evicts, pending⟩
    have here := evicts.keeps_orderly orderly
    refine ⟨?_, evictEntry_pending here pending entry⟩
    rcases evictEntry_cases maxSize post entry with idle | ⟨node, below, leaf, -, excess, evicted⟩
    · rwa [idle]
    · rw [evicted]
      exact .leaf evicts leaf (leaf.excess here.balanced excess)

/-- A tenant with two characters keeps its nodes when the limit is two. -/
theorem evicted_within_limit_two :
    (afterCalls [.insertText ['a'] "t" 1, .insertText ['a', 'b'] "t" 2]).ledger.chars "t" ≤ 2 ∧
      ∀ share, share ∈ shares "t" (evictTenantBySize
        (afterCalls [.insertText ['a'] "t" 1, .insertText ['a', 'b'] "t" 2]) 2 id) ↔
        share ∈ shares "t" (afterCalls [.insertText ['a'] "t" 1, .insertText ['a', 'b'] "t" 2]) :=
  ⟨by decide, (evicted_within_limit _ 2 id).2.2.1 "t" (by decide)⟩

/-! ### Eviction of one tenant -/

/-- With a node that is evicted, the nodes of the tenant right under it are evicted too. -/
def ChildrenToo (tenant : TenantId) (maxChars : Nat) (order : Nat → Nat) (tree : Tree) : Prop :=
  ∀ spot ∈ tree.children.spots tree.root, spot.node.carries tenant = true →
    spot.above.id ∈ evictedNodes tree tenant maxChars order → spot.node.id ∈ evictedNodes tree tenant maxChars order

/-- After any insertions and matches, evicting a tenant leaves it within the limit. Each of its nodes still
hangs under one of its nodes exactly if children are evicted with their parents; a match for the tenant then
finds every text it holds. -/
theorem evicted_tenant_matched (calls : List Call) (tenant : TenantId) (maxChars : Nat) (order : Nat → Nat) :
    let tree := afterCalls calls
    let evicted := evictByTenant tree tenant maxChars order
    evicted.ledger.chars tenant ≤ maxChars ∧
      (Hangs (Upward (owns tenant)) evicted.root evicted.children ↔ ChildrenToo tenant maxChars order tree) ∧
      (ChildrenToo tenant maxChars order tree → ∀ text epoch, Covers (owns tenant)
        (paths edgeOf evicted.children) text → (prefixMatchTenant evicted text tenant epoch).1 = text) := by
  intro tree evicted
  obtain ⟨sound, tidy, balanced⟩ : Orderly tree := afterCalls_orderly calls
  obtain ⟨⟨post, -⟩, within, root, children⟩ := evictByTenant_spec sound balanced tenant maxChars order
  have nested : Hangs (Upward (owns tenant)) evicted.root evicted.children ↔ ChildrenToo tenant maxChars order tree := by
    rw [root, children, hangs_map]
    refine forall₂_congr fun spot inside => ?_
    have upper := tidy.upward tenant spot inside
    simp only [Upward, carries_releaseAll] at upper ⊢
    tauto
  refine ⟨within, nested, fun too text epoch held => take_of_length_le ?_⟩
  refine (le_matchedChars_iff post.linked post.distinct (nested.mpr too) (Nat.lt_succ_self _) _).mpr (.inr ⟨le_rfl, ?_⟩)
  rwa [take_length]

/-- A text inserted after a longer one is kept, and matched, when the rest of the longer one goes. -/
theorem evicted_tenant_matched_short :
    let tree := afterCalls [.insertText ['a', 'b'] "t" 1, .insertText ['a'] "t" 2]
    ChildrenToo "t" 1 id tree ∧ (prefixMatchTenant (evictByTenant tree "t" 1 id) ['a'] "t" 3).1 = ['a'] := by
  have too : ChildrenToo "t" 1 id (afterCalls [.insertText ['a', 'b'] "t" 1, .insertText ['a'] "t" 2]) := by
    unfold ChildrenToo
    decide
  exact ⟨too, (evicted_tenant_matched _ "t" 1 id).2.2 too _ 3 (by decide)⟩

/-- A text inserted before a longer one goes first, and the character still counted below it is no
longer matched. -/
theorem node_evicted_before_child :
    let tree := afterCalls [.insertText ['a'] "t" 1, .insertText ['a', 'b'] "t" 2]
    let evicted := evictByTenant tree "t" 1 id
    evicted.ledger.chars "t" = 1 ∧ (∃ spot ∈ evicted.children.spots evicted.root,
      spot.node.carries "t" = true ∧ spot.above.carries "t" = false) ∧
      (prefixMatchTenant evicted ['a', 'b'] "t" 3).1 = [] := by
  decide

end ModelGateway.StringTree
