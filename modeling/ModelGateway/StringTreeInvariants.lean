import ModelGateway.StringTreeMerging

/-! The invariants of a whole string tree, and the operations that grow it or only write
timestamps. -/
namespace ModelGateway.StringTree
open StringText List Forest Node

variable (tree : Tree)

def Tree.idCount (id : Nat) : Nat :=
  mark (hasId id) tree.root + StringTree.idCount id tree.children

/-- Every node hangs under the first character of its edge and points to its parent, and
identities are not shared. -/
structure Sound : Prop where
  linked : Hangs Linked tree.root tree.children
  distinct : tree.children.Distinct
  rootText : tree.root.text = .empty
  rootParent : tree.root.parent = none
  ids : ∀ id, tree.idCount id ≤ 1
  fresh : ∀ id, tree.ledger.nextId ≤ id → tree.idCount id = 0

/-- The counted tenants are those of the root, which carries every tenant, and their counts
are the characters the nodes hold for them. -/
structure Balanced : Prop where
  inside : Hangs (Inside fun tenant => tree.root.carries tenant = true) tree.root tree.children
  held : ∀ tenant, tree.ledger.holds tenant = tree.root.carries tenant
  sums : ∀ tenant, tree.ledger.chars tenant = tree.children.total (chars tenant)

/-- Every node below the root has a tenant, and carries only tenants of the node above. -/
def Tidy : Prop := Hangs Nested tree.root tree.children

variable {tree : Tree} {node : Node × Children} {id : Nat} {spot : Spot Char Node} {change : Node → Node}

/-! ### Growing -/

/-- Tenants are credited to the root, then its children are edited for them. -/
structure Grows (tidy : Prop) (tenants : TenantId → Prop) (tree tree' : Tree) : Prop where
  growth : ∃ ledger, Credited tenants tree.root tree'.root tree.ledger ledger ∧
    Edit tidy tenants tree.root.id tree.children ledger tree'.children tree'.ledger
  leads : ∀ tenant, tenants tenant → tree'.root.carries tenant = true

namespace Grows
variable {tidy : Prop} {tenants : TenantId → Prop} {tree tree' : Tree}

theorem sound (grows : Grows tidy tenants tree tree') (sound : Sound tree) : Sound tree' := by
  obtain ⟨⟨ledger, credited, edit⟩, -⟩ := grows
  have counts : ∀ id, tree'.idCount id = tree.idCount id + window tree.ledger.nextId tree'.ledger.nextId id := by
    intro id
    rw [Tree.idCount, edit.ids, mark_hasId_congr id credited.id, credited.next, Tree.idCount, Nat.add_assoc]
  have later : tree.ledger.nextId ≤ tree'.ledger.nextId := credited.next ▸ edit.nextId_le
  refine ⟨?_, edit.distinct sound.distinct, credited.text.trans sound.rootText,
    credited.parent.trans sound.rootParent, fun id => ?_, fun id past => ?_⟩
  · refine (edit.linked rfl sound.linked).rehang fun key node fit => ?_
    rwa [Linked, credited.id]
  · rw [counts, window]
    split
    · rename_i inside
      rw [sound.fresh id inside.1]
    · exact sound.ids id
  · rw [counts, sound.fresh id (later.trans past), window, if_neg (by omega)]

theorem keeps_tidy (grows : Grows True tenants tree tree') (tidy : Tidy tree) : Tidy tree' := by
  obtain ⟨⟨ledger, credited, edit⟩, leads⟩ := grows
  refine edit.nested trivial leads (tidy.rehang fun key node fit => ⟨fit.1, fun tenant carried => ?_⟩)
  exact credited.grows tenant (fit.2 tenant carried)

theorem balanced (grows : Grows tidy tenants tree tree') (sound : Sound tree)
    (balanced : Balanced tree) : Balanced tree' := by
  obtain ⟨⟨ledger, credited, edit⟩, leads⟩ := grows
  refine ⟨?_, fun tenant => ?_, fun tenant => ?_⟩
  · have wider : Hangs (Inside fun tenant => tree'.root.carries tenant = true) tree'.root
        tree.children := by
      refine Hangs.mono (balanced.inside.rehang fun key node fit => fit) ?_
      exact fun above key node fit tenant carried => credited.grows tenant (fit tenant carried)
    exact edit.inside leads wider
  · refine Bool.eq_iff_iff.mpr ⟨fun held => ?_, fun carried => ?_⟩
    · rcases edit.counted.only tenant held with held | led
      · rcases credited.counted.only tenant held with held | led
        · exact credited.grows tenant (balanced.held tenant ▸ held)
        · exact leads tenant led
      · exact leads tenant led
    · refine edit.counted.keeps tenant ?_
      rcases credited.holds tenant carried with carried | held
      · exact credited.counted.keeps tenant (balanced.held tenant ▸ carried)
      · exact held
  · have rootEmpty : tree.root.text.charCount = 0 := by rw [sound.rootText]; rfl
    have pre : chars tenant tree.root = 0 := by simp [chars, rootEmpty]
    have post : chars tenant tree'.root = 0 := by simp [chars, credited.text, rootEmpty]
    have := edit.counted.balance tenant
    have := credited.counted.balance tenant
    have := balanced.sums tenant
    omega

end Grows

theorem insertText_grows (sound : Sound tree) (tidy : Prop) (text : List Char) (tenant : TenantId)
    (epoch : Nat) : Grows tidy (· = tenant) tree (insertText tree text tenant epoch) := by
  have rootEmpty : tree.root.text.charCount = 0 := by rw [sound.rootText]; rfl
  have rooted : Credited (· = tenant) tree.root
      (if tree.root.carries tenant then tree.root else tree.root.credit tenant 0) tree.ledger
      (if tree.tenantCharCount.contains tenant then tree.ledger else tree.ledger.add tenant 0) := by
    split
    · split
      · exact .refl
      · refine ⟨rfl, rfl, rfl, fun _ held => held, fun _ => .inl, fun _ => .inl, rfl,
          ⟨fun probe => by simp, fun probe held => by simp [held], fun probe held => ?_⟩⟩
        simpa [or_comm] using held
    · rename_i absent
      split
      · rename_i counted
        refine ⟨rfl, rfl, rfl, fun probe held => by simp [held], fun probe held => ?_,
          fun probe held => ?_, rfl, ⟨fun probe => ?_, fun _ held => held, fun _ => .inl⟩⟩
        · simpa [or_comm] using held
        · simp only [carries_credit, Bool.or_eq_true, decide_eq_true_eq] at held
          rcases held with rfl | held
          · exact .inr counted
          · exact .inl held
        · have same : (tree.root.credit tenant 0).text.charCount = 0 := rootEmpty
          simp [chars, rootEmpty, same]
      · exact .of_new (Bool.eq_false_iff.mpr absent) (by exact rfl) 0 rootEmpty
  have carried : (if tree.root.carries tenant then tree.root
      else tree.root.credit tenant 0).carries tenant = true := by
    split
    · assumption
    · simp
  obtain ⟨edit, touched⟩ := insertLoop_edit tidy tenant epoch (text.length + 1) _ tree.children text
    (if tree.tenantCharCount.contains tenant then tree.ledger else tree.ledger.add tenant 0)
    (sound.linked.rehang fun key node fit => by rwa [Linked, rooted.id]) carried
  rw [rooted.id] at edit
  refine ⟨⟨_, rooted.trans (touched _), edit⟩, ?_⟩
  rintro probe rfl
  exact (touched tree.ledger).grows _ carried

theorem mergeTree_grows {remote : Tree} {tidy : Prop} (sound : Sound tree) (remoteSound : Sound remote)
    (inside : Hangs (Inside fun tenant => remote.root.carries tenant = true) remote.root
      remote.children) (nested : tidy → Tidy remote) :
    Grows tidy (fun tenant => remote.root.carries tenant = true) tree (mergeTree tree remote) := by
  obtain ⟨credited, exactly⟩ := mergeTenants_credited (fun tenant => remote.root.carries tenant = true)
    remote.root.tenantLastAccessTime.toList tree.root tree.ledger rfl fun entry mem =>
      mem_map_fst_toList.mp (mem_map_of_mem (f := Prod.fst) mem)
  refine ⟨⟨_, credited, ?_⟩, fun tenant carried => ?_⟩
  · exact mergeChildren_edit ⟨remoteSound.linked, remoteSound.distinct, inside, nested,
      fun _ _ carried => carried⟩ sound.linked sound.distinct
  · exact (exactly tenant).mpr (.inr (mem_map_fst_toList.mpr carried))

/-! ### Pointers -/

theorem mem_nodes : node ∈ tree.nodes ↔ node = (tree.root, tree.children) ∨
      ∃ spot ∈ tree.children.spots tree.root, (spot.node, spot.below) = node := by
  simp only [Tree.nodes, mem_cons, mem_map]

theorem lookup_some (found : tree.lookup id = some node) : node ∈ tree.nodes ∧ node.1.id = id :=
  ⟨mem_of_find?_eq_some found, by simpa using find?_some found⟩

theorem Sound.unique (sound : Sound tree) {other : Node × Children} (mem : node ∈ tree.nodes)
    (member' : other ∈ tree.nodes) (same : other.1.id = node.1.id) : other = node := by
  have single := sound.ids node.1.id
  rw [Tree.idCount, mark_hasId, idCount] at single
  have hits : ∀ node' : Node, node'.id = node.1.id → hasId node.1.id node' = true := fun node' equal => by
    simp [hasId, equal]
  rcases mem_nodes.mp mem with rfl | ⟨spot, inside, rfl⟩ <;>
    rcases mem_nodes.mp member' with rfl | ⟨spot', inside', rfl⟩
  · rfl
  · have := one_le_total_mark inside' (hits _ same)
    rw [if_pos rfl] at single
    omega
  · have := one_le_total_mark inside (hits _ rfl)
    simp only at same
    rw [if_pos same] at single
    omega
  · have one : total (mark (hasId spot.node.id)) tree.children ≤ 1 := by
      simp only at single
      omega
    rw [spot_unique one inside (hits _ rfl) inside' (hits _ same)]

theorem Sound.hung (sound : Sound tree) (mem : spot ∈ tree.children.spots tree.root) :
    ∃ below, (spot.above, below) ∈ tree.nodes ∧ below.find? spot.key = some (spot.node, spot.below) := by
  rcases spot_find? sound.distinct mem with ⟨hung, found⟩ | ⟨upper, inside, hung, found⟩
  · exact ⟨tree.children, mem_nodes.mpr (.inl (by rw [hung])), found⟩
  · exact ⟨upper.below, mem_nodes.mpr (.inr ⟨upper, inside, by rw [hung]⟩), found⟩

theorem node_mem_nodes (mem : spot ∈ tree.children.spots tree.root) : (spot.node, spot.below) ∈ tree.nodes :=
  mem_nodes.mpr (.inr ⟨spot, mem, rfl⟩)

/-! ### Writing nodes in place -/

/-- A change of a node's tenants or cached tenant. -/
def InPlace (change : Node → Node) : Prop :=
  ∀ node, (change node).id = node.id ∧ (change node).text = node.text ∧ (change node).parent = node.parent

theorem InPlace.writeAt (inPlace : InPlace change) (id : Nat) : InPlace (writeAt id change) := by
  intro node
  rw [Node.writeAt]
  split
  · exact inPlace node
  · exact ⟨rfl, rfl, rfl⟩

theorem inPlace_release (tenant : TenantId) : InPlace (release tenant) := fun _ => ⟨rfl, rfl, rfl⟩

theorem Sound.map (sound : Sound tree) (inPlace : InPlace change) (counts : KeyedMap TenantId Nat) :
    Sound ⟨change tree.root, tree.children.map change, ⟨counts, tree.ledger.nextId⟩⟩ := by
  have marks : ∀ id, mark (hasId id) ∘ change = mark (hasId id) := fun id =>
    funext fun node => mark_hasId_congr id (inPlace node).1
  have counted : ∀ id, Tree.idCount ⟨change tree.root, tree.children.map change,
      ⟨counts, tree.ledger.nextId⟩⟩ id = tree.idCount id := by
    intro id
    rw [Tree.idCount, Tree.idCount, idCount, total_map, marks, mark_hasId_congr id (inPlace tree.root).1]
  refine ⟨(hangs_map change tree.root).mpr fun spot mem => ?_, sound.distinct.map change, ?_, ?_, ?_, ?_⟩
  · obtain ⟨starts, length, pointer⟩ := sound.linked spot mem
    refine ⟨?_, ?_, ?_⟩
    · rw [(inPlace spot.node).2.1, starts]
    · rw [(inPlace spot.node).2.1, length]
    · rw [(inPlace spot.node).2.2, (inPlace spot.above).1, pointer]
  · exact (inPlace tree.root).2.1.trans sound.rootText
  · exact (inPlace tree.root).2.2.trans sound.rootParent
  · exact fun id => (counted id).symm ▸ sound.ids id
  · exact fun id past => (counted id).symm ▸ sound.fresh id past

theorem Sound.modify (sound : Sound tree) (id : Nat) (inPlace : InPlace change) : Sound (tree.modify id change) :=
  sound.map (inPlace.writeAt id) tree.tenantCharCount

/-- Every node keeps its tenants. -/
def Touches (tree : Tree) (id : Nat) (change : Node → Node) : Prop :=
  InPlace change ∧ ∀ node ∈ tree.nodes, node.1.id = id →
    ∀ tenant, (change node.1).carries tenant = node.1.carries tenant

theorem Touches.carries (touches : Touches tree id change) (mem : node ∈ tree.nodes) (tenant : TenantId) :
    (node.1.writeAt id change).carries tenant = node.1.carries tenant := by
  rw [writeAt]
  split
  · exact touches.2 node mem ‹_› tenant
  · rfl

theorem Tidy.touch (tidy : Tidy tree) (sound : Sound tree) (touches : Touches tree id change) :
    Tidy (tree.modify id change) := by
  refine (hangs_map (writeAt id change) tree.root).mpr fun spot mem => ?_
  obtain ⟨below, aboveMember, -⟩ := sound.hung mem
  have nodeMember := node_mem_nodes mem
  obtain ⟨⟨tenant, carried⟩, owned⟩ := tidy spot mem
  refine ⟨⟨tenant, by rw [touches.carries nodeMember]; exact carried⟩, fun tenant carried => ?_⟩
  rw [touches.carries nodeMember] at carried
  rw [touches.carries aboveMember]
  exact owned tenant carried

theorem Balanced.touch (balanced : Balanced tree) (touches : Touches tree id change) :
    Balanced (tree.modify id change) := by
  have rootMember : (tree.root, tree.children) ∈ tree.nodes := mem_nodes.mpr (.inl rfl)
  refine ⟨(hangs_map (writeAt id change) tree.root).mpr fun spot mem tenant carried => ?_,
    fun tenant => ?_, fun tenant => ?_⟩
  · rw [touches.carries (node_mem_nodes mem)] at carried
    exact (touches.carries rootMember tenant).trans (balanced.inside spot mem tenant carried)
  · exact (balanced.held tenant).trans (touches.carries rootMember tenant).symm
  · refine (balanced.sums tenant).trans ?_
    rw [Tree.modify, total_map]
    refine total_congr fun spot (mem : spot ∈ tree.children.spots tree.root) => ?_
    rw [Function.comp, chars, chars, touches.carries (node_mem_nodes mem), (touches.1.writeAt id spot.node).2.1]

/-! ### Matching -/

/-- A walk stops at once, or enters a child and then goes on or stops inside its edge. -/
theorem walk_cases (enter : Node → Bool) (fuel : Nat) (children : Children) (text : List Char) :
    walk enter fuel children text = ⟨[], 0⟩ ∨ ∃ less first rest child below, fuel = less + 1 ∧ text = first :: rest ∧
        children.find? first = some (child, below) ∧ enter child = true ∧
        ((sharedPrefixCount text child.text.text = child.text.charCount ∧ ∃ next, walk enter less below
              (advanceByChars text (sharedPrefixCount text child.text.text)) = next ∧
            walk enter fuel children text =
              ⟨child :: next.visited, sharedPrefixCount text child.text.text + next.matchedChars⟩) ∨
        (sharedPrefixCount text child.text.text ≠ child.text.charCount ∧
          walk enter fuel children text = ⟨[child], sharedPrefixCount text child.text.text⟩)) := by
  cases fuel with
  | zero => exact .inl rfl
  | succ fuel =>
    cases text with
    | nil => exact .inl rfl
    | cons first rest =>
      rw [walk]
      cases found : children.find? first with
      | none => exact .inl rfl
      | some held =>
        obtain ⟨child, below⟩ := held
        simp only
        split
        · rename_i entered
          refine .inr ⟨fuel, first, rest, child, below, rfl, rfl, found, entered, ?_⟩
          split
          · exact .inl ⟨‹_›, _, rfl, rfl⟩
          · exact .inr ⟨‹_›, rfl⟩
        · exact .inl rfl

theorem walk_visited {enter : Node → Bool} {children : Children} (above : Node) (fuel : Nat)
    (text : List Char) {node : Node} (mem : node ∈ (walk enter fuel children text).visited) :
    ∃ spot ∈ children.spots above, spot.node = node := by
  induction fuel generalizing children above text with
  | zero => exact absurd mem not_mem_nil
  | succ fuel ih =>
    rcases walk_cases enter (fuel + 1) children text with stop | ⟨less, first, rest, child, below, fueled,
      -, found, -, ⟨-, _, rfl, goes⟩ | ⟨-, stop⟩⟩
    · rw [stop] at mem
      exact absurd mem not_mem_nil
    · obtain rfl : fuel = less := Nat.succ_injective fueled
      have top := mem_spots_of_find? above found
      rw [goes] at mem
      rcases mem_cons.mp mem with rfl | deeper
      · exact ⟨_, top, rfl⟩
      · obtain ⟨spot, inside, same⟩ := ih child _ deeper
        exact ⟨spot, spots_below top inside, same⟩
    · rw [stop] at mem
      obtain rfl := mem_singleton.mp mem
      exact ⟨_, mem_spots_of_find? above found, rfl⟩

theorem curr_mem_nodes (tree : Tree) (enter : Node → Bool) (fuel : Nat) (text : List Char) :
    ∃ below, ((walk enter fuel tree.children text).visited.getLastD tree.root, below) ∈ tree.nodes := by
  cases visited : (walk enter fuel tree.children text).visited with
  | nil => exact ⟨tree.children, mem_nodes.mpr (.inl rfl)⟩
  | cons first rest =>
    have last : (first :: rest).getLastD tree.root ∈ (first :: rest) := by
      rw [getLastD_cons]
      exact getLastD_mem_cons ..
    rw [← visited] at last ⊢
    obtain ⟨spot, inside, same⟩ := walk_visited tree.root _ _ last
    exact ⟨spot.below, mem_nodes.mpr (.inr ⟨spot, inside, by rw [same]⟩)⟩

theorem Node.selectTenant_spec (order : Nat) (node : Node) : (node.selectTenant order).2 =
        { node with lastTenant := (node.selectTenant order).2.lastTenant } ∧
      (node.carries (node.selectTenant order).1 = true ∨
        (node.selectTenant order).1 = "empty" ∧ ∀ tenant, node.carries tenant = false) := by
  have first : node.carries (((node.tenantLastAccessTime.keys.rotate order).head?).getD "empty") = true ∨
      ((node.tenantLastAccessTime.keys.rotate order).head?).getD "empty" = "empty" ∧
        ∀ tenant, node.carries tenant = false := by
    simp only [carries, ← Bool.not_eq_true, KeyedMap.contains_iff_mem_keys]
    cases head : (node.tenantLastAccessTime.keys.rotate order).head? with
    | none =>
      rw [head?_eq_none_iff, rotate_eq_nil_iff] at head
      simp [head]
    | some tenant => exact .inl (mem_rotate.mp (mem_of_mem_head? head))
  rw [selectTenant]
  cases node.lastTenant with
  | none => exact ⟨rfl, first⟩
  | some cached =>
    simp only
    split
    · exact ⟨rfl, .inl ‹_›⟩
    · exact ⟨rfl, first⟩

theorem matchPrefixWithCounts_touches (tree : Tree) (id order epoch : Nat) :
    Touches tree id (recordMatch order epoch) := by
  have same : ∀ node : Node, node.recordMatch order epoch = { node with
      lastTenant := (node.selectTenant order).2.lastTenant } ∨
      ∃ tenant, node.carries tenant = true ∧ node.recordMatch order epoch = credit tenant epoch
        { node with lastTenant := (node.selectTenant order).2.lastTenant } := by
    intro node
    obtain ⟨kept, selected⟩ := node.selectTenant_spec order
    rw [recordMatch]
    split
    · rename_i due
      exact .inr ⟨_, selected.resolve_right fun none => due.2 none.1, by rw [kept]⟩
    · exact .inl kept
  refine ⟨fun node => ?_, fun node _ _ tenant => ?_⟩
  · rcases same node with kept | ⟨tenant, -, kept⟩ <;> rw [kept] <;> exact ⟨rfl, rfl, rfl⟩
  · rcases same node.1 with kept | ⟨chosen, carried, kept⟩
    · rw [kept]
      rfl
    · rw [kept, carries_credit]
      by_cases equal : tenant = chosen
      · simp [equal, carried]
      · simp only [equal, decide_false, Bool.false_or]
        rfl

theorem prefixMatchTenant_touches (sound : Sound tree) {curr : Node} {below : Children}
    (mem : (curr, below) ∈ tree.nodes) {tenant : TenantId} (carried : curr.carries tenant = true)
    (epoch : Nat) : Touches tree curr.id (credit tenant epoch) := by
  refine ⟨fun _ => ⟨rfl, rfl, rfl⟩, fun node inside same probe => ?_⟩
  obtain rfl := sound.unique mem inside same
  rw [carries_credit]
  by_cases equal : probe = tenant <;> simp [equal, carried]

end ModelGateway.StringTree
