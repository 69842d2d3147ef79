import ModelGateway.StringTreeInvariants

/-! A tree restored from its own snapshot: the same texts and tenants, with every list of
children sorted. -/
namespace ModelGateway.StringTree
open StringText List KeyedMap Forest Nat Prod Char

/-! ### Sorted children -/

def sortInsert (key : Char) (node : Node) (below : Children) : Children → Children
  | .nil => .cons key node below .nil
  | .cons held other otherBelow rest =>
    if key ≤ held then .cons key node below (.cons held other otherBelow rest)
    else .cons held other otherBelow (sortInsert key node below rest)

/-- The children in the order in which a snapshot lists them. -/
def sortDeep : Children → Children
  | .nil => .nil
  | .cons key node below rest => sortInsert key node (sortDeep below) (sortDeep rest)

/-- The snapshots of the children in their own order. -/
def listed : Children → List (Char × List SnapshotNode)
  | .nil => []
  | .cons key node below rest => (key, snapshotNode node (listed below)) :: listed rest

theorem listed_sortInsert (key : Char) (node : Node) (below children : Children) :
    listed (sortInsert key node below children) = (listed children).orderedInsert (fun left right => left.1 ≤ right.1)
        (key, snapshotNode node (listed below)) := by
  induction children with
  | nil => rfl
  | cons held other otherBelow rest _ ihRest =>
    rw [sortInsert, listed, List.orderedInsert]
    split
    · rfl
    · rw [listed, ihRest]

theorem snapshotChildren_eq (children : Children) : snapshotChildren children = listed (sortDeep children) := by
  induction children with
  | nil => rfl
  | cons key node below rest ihBelow ihRest =>
    rw [snapshotChildren, sortDeep, listed_sortInsert, ihBelow, ihRest]

variable {children copy : Children} {fits : Node → Char → Node → Prop} {above : Node} {key : Char} {node : Node}
  {below : Children} {tidy : Prop} {tenants : TenantId → Prop}

theorem shuffled_sortInsert (key : Char) (node : Node) (below children : Children) :
    Shuffled (sortInsert key node below children) (.cons key node below children) := by
  induction children with
  | nil => exact .refl _
  | cons held other otherBelow rest _ ihRest =>
    rw [sortInsert]
    split
    · exact .refl _
    · exact (Shuffled.cons (.refl _) ihRest).trans .swap

theorem shuffled_sortDeep (children : Children) : Shuffled (sortDeep children) children := by
  induction children with
  | nil => exact .nil
  | cons key node below rest ihBelow ihRest =>
    exact (shuffled_sortInsert key node _ _).trans (.cons ihBelow ihRest)

/-- The node that a path of keys leads to. -/
def nodeAt (above : Node) (children : Children) : List Char → Option Node
  | [] => some above
  | key :: path => (children.find? key).bind fun found => nodeAt found.1 found.2 path

theorem nodeAt_shuffled (shuffled : Shuffled copy children) (distinct : children.Distinct) :
    nodeAt above copy = nodeAt above children := by
  ext path : 1
  induction shuffled generalizing above path with
  | nil => rfl
  | @cons _ node _ _ _ _ _ _ ihBelow ihRest =>
    cases path with
    | nil => rfl
    | cons probe path =>
      have beside : nodeAt node _ (probe :: path) = _ := ihRest distinct.2.2 _
      rw [nodeAt, nodeAt] at beside ⊢
      rw [Forest.find?, Forest.find?]
      split
      · exact ihBelow distinct.2.1 path
      · exact beside
  | swap =>
    obtain ⟨differs, -⟩ := find?_cons_eq_none.mp distinct.1
    cases path with
    | nil => rfl
    | cons probe path =>
      simp only [nodeAt, Forest.find?]
      grind
  | trans _ later ihFirst ihSecond =>
    exact (ihFirst (later.distinct.1.mpr distinct) path).trans (ihSecond distinct path)

theorem Copies.nodeAt {above' : Node} {children' : Children} (copies : Copies children children')
    (same : above'.content = above.content) (path : List Char) :
    (nodeAt above' children' path).map Node.content = (nodeAt above children path).map Node.content := by
  induction path generalizing above above' children children' with
  | nil => exact congrArg some same
  | cons key path ih =>
    rw [StringTree.nodeAt, StringTree.nodeAt]
    have found := copies.find? key
    generalize children.find? key = child, children'.find? key = child' at found ⊢
    cases found with
    | none => rfl
    | some both => exact ih both.2 both.1

/-! ### Listings -/

/-- The snapshot nodes of all children. -/
def flat (children : Children) : List SnapshotNode := (listed children).flatMap snd

private theorem mem_listed (vacant : children.find? key = none) : key ∉ (listed children).map fst := by
  induction children with
  | nil => exact not_mem_nil
  | cons held node below rest _ ihRest =>
    obtain ⟨differs, vacant⟩ := find?_cons_eq_none.mp vacant
    rw [listed, map_cons, mem_cons, not_or]
    exact ⟨Ne.symm differs, ihRest vacant⟩

theorem nodup_listed (distinct : children.Distinct) : ((listed children).map fst).Nodup := by
  induction children with
  | nil => exact nodup_nil
  | cons held node below rest _ ihRest =>
    exact nodup_cons.mpr ⟨mem_listed distinct.1, ihRest distinct.2.2⟩

theorem length_listed_lt (distinct : children.Distinct) : (listed children).length < 2 ^ 32 := by
  let codes := ((listed children).map fst).map toNat
  have nodup : codes.Nodup := (nodup_listed distinct).map fun left right same => toNat_inj.mp same
  have bounded : codes.toFinset ⊆ Finset.range 1114112 := by
    intro code mem
    obtain ⟨key, -, rfl⟩ := mem_map.mp (mem_toFinset.mp mem)
    have valid := key.valid
    simp only [UInt32.isValidChar, Nat.isValidChar] at valid
    simp only [Finset.mem_range, Char.toNat]
    omega
  have size := Finset.card_le_card bounded
  rw [toFinset_card_of_nodup nodup, Finset.card_range, length_map, length_map] at size
  omega

theorem toNat_childCount (distinct : children.Distinct) :
    (listed children).length.toUInt32.toNat = (listed children).length := by
  rw [toUInt32, UInt32.toNat_ofNat', mod_eq_of_lt (length_listed_lt distinct)]

/-! ### Restoring -/

/-- Restoring tenants that a node does not carry yet credits them with their epochs. -/
theorem restoreTenants_credited (tenants : TenantId → Prop) {edgeChars : Nat}
    (entries : List (TenantId × Nat)) (node : Node) (ledger : Ledger)
    (length : node.text.charCount = edgeChars) (allowed : ∀ entry ∈ entries, tenants entry.1)
    (nodup : (entries.map fst).Nodup)
    (fresh : ∀ tenant ∈ entries.map fst, node.carries tenant = false) :
    Credited tenants node (restoreTenants edgeChars entries node ledger).1 ledger
        (restoreTenants edgeChars entries node ledger).2 ∧
      (∀ entry ∈ entries, (restoreTenants edgeChars entries node ledger).1.tenantLastAccessTime.get?
        entry.1 = some entry.2) ∧ ∀ tenant ∉ entries.map fst,
        (restoreTenants edgeChars entries node ledger).1.tenantLastAccessTime.get? tenant =
          node.tenantLastAccessTime.get? tenant := by
  induction entries generalizing node ledger with
  | nil => exact ⟨.refl, by simp, fun _ _ => rfl⟩
  | cons entry entries ih =>
    obtain ⟨tenant, epoch⟩ := entry
    simp only [mem_cons, or_imp, forall_and, forall_eq] at allowed
    simp only [map_cons, nodup_cons] at nodup
    simp only [map_cons, mem_cons, or_imp, forall_and, forall_eq] at fresh
    obtain ⟨credited, restored, others⟩ := ih (node.credit tenant epoch) (ledger.add tenant edgeChars)
      length allowed.2 nodup.2 fun other mem => by
        have differs : other ≠ tenant := fun same => nodup.1 (same ▸ mem)
        simp [differs, fresh.2 other mem]
    rw [restoreTenants]
    refine ⟨(Credited.of_new fresh.1 allowed.1 epoch length).trans credited, ?_, ?_⟩
    · rintro listed (_ | ⟨_, mem⟩)
      · rw [others tenant nodup.1]
        exact get?_insert_self ..
      · exact restored listed mem
    · intro probe absent
      rw [map_cons, mem_cons, not_or] at absent
      rw [others probe absent.2, Node.credit, get?_insert, if_neg absent.1]

theorem restoreTenants_toList (tenants : TenantId → Prop) (edgeChars : Nat) (node copy : Node)
    (ledger : Ledger) (length : copy.text.charCount = edgeChars)
    (bare : copy.tenantLastAccessTime = ∅)
    (allowed : ∀ tenant, node.carries tenant = true → tenants tenant) : Credited tenants copy
        (restoreTenants edgeChars node.tenantLastAccessTime.toList copy ledger).1 ledger
        (restoreTenants edgeChars node.tenantLastAccessTime.toList copy ledger).2 ∧
      ∀ tenant, (restoreTenants edgeChars node.tenantLastAccessTime.toList copy
        ledger).1.tenantLastAccessTime.get? tenant = node.tenantLastAccessTime.get? tenant := by
  obtain ⟨credited, restored, others⟩ := restoreTenants_credited tenants
    node.tenantLastAccessTime.toList copy ledger length
    (fun entry mem => allowed _ (mem_map_fst_toList.mp (mem_map_of_mem (f := fst) mem)))
    (by rw [← keys_eq]; exact keys_nodup _)
    (fun tenant _ => by simp [Node.carries, bare])
  refine ⟨credited, fun tenant => ?_⟩
  cases held : node.tenantLastAccessTime.get? tenant with
  | some epoch => exact restored (tenant, epoch) (mem_toList_iff.mpr held)
  | none =>
    rw [others tenant, bare]
    · rfl
    · rw [mem_map_fst_toList, Node.carries, KeyedMap.contains, held]
      simp

/-- The children of a new node, grown from nothing, form a subtree with it. -/
theorem Grown.of_edit {inner : TenantId → Prop} {parent : Nat} {restored : Node}
    {ledger ledger₁ ledger₂ : Ledger} (credited : Credited tenants node restored ledger.allocate ledger₁)
    (named : node.id = ledger.nextId) (bare : node.tenantLastAccessTime = ∅)
    (starts : node.text.text.head? = some key) (length : node.text.charCount = node.text.text.length)
    (pointer : node.parent = some parent) (narrower : ∀ tenant, inner tenant → tenants tenant)
    (tenanted : tidy → ∃ tenant, restored.carries tenant = true)
    (leads : tidy → ∀ tenant, inner tenant → restored.carries tenant = true)
    (edit : Edit tidy inner restored.id .nil ledger₁ below ledger₂) :
    Grown tidy tenants parent (.cons key restored below .nil) ledger ledger₂ := by
  have unowned : ∀ tenant, node.carries tenant = false := fun tenant => by simp [Node.carries, bare]
  have owned : ∀ tenant, restored.carries tenant = true → tenants tenant := fun tenant carried =>
    (credited.only tenant carried).resolve_left (by simp [unowned])
  have next : ledger₁.nextId = ledger.nextId + 1 := credited.next
  refine ⟨?_, ⟨rfl, edit.distinct trivial, trivial⟩, fun above => ?_, fun clean above lead => ?_, ?_,
    fun id => ?_, ?_⟩
  · rintro above rfl
    refine hangs_cons.mpr ⟨⟨?_, ?_, ?_⟩, edit.linked rfl hangs_nil, hangs_nil⟩
    · rw [credited.text, starts]
    · rw [credited.text, length]
    · rw [credited.parent, pointer]
  · exact hangs_cons.mpr ⟨owned, edit.inside narrower hangs_nil, hangs_nil⟩
  · exact hangs_cons.mpr ⟨⟨tenanted clean, fun tenant carried => lead tenant (owned tenant carried)⟩,
      edit.nested clean (leads clean) hangs_nil, hangs_nil⟩
  · have := edit.nextId_le
    omega
  · have ids := edit.ids id
    simp only [idCount, total, Nat.zero_add] at ids
    have later := edit.nextId_le
    rw [next] at ids later
    rw [idCount, total, total, ids, mark_hasId_eq_window, credited.id, named, Nat.add_zero]
    exact window_append (le_succ _) later
  · have first : Counted tenants ledger ledger₁ (fun _ => 0) fun tenant => chars tenant restored := by
      refine ⟨fun tenant => ?_, credited.counted.keeps, credited.counted.only⟩
      have balance := credited.counted.balance tenant
      simpa [chars, unowned] using balance
    have second : Counted tenants ledger₁ ledger₂ (fun tenant => chars tenant restored)
        fun tenant => (cons key restored below .nil).total (chars tenant) := by
      refine (edit.counted.mono narrower).shift fun tenant => ?_
      simp only [total]
      omega
    exact first.trans second

theorem skip_length_le (pending : Nat) (nodes : List SnapshotNode) :
    (skip pending nodes).length ≤ nodes.length := by
  fun_induction skip with
  | case1 | case2 => exact Nat.le_refl _
  | case3 pending node nodes ih => exact le_succ_of_le ih

theorem restoreTenants_text (edgeChars : Nat) (entries : List (TenantId × Nat)) (node : Node) (ledger : Ledger) :
    (restoreTenants edgeChars entries node ledger).1.text = node.text := by
  induction entries generalizing node ledger with
  | nil => rfl
  | cons entry entries ih => exact ih _ _

theorem restoreChildren_unread (fuel target count : Nat) (nodes : List SnapshotNode) (children : Children)
    (ledger : Ledger) : (restoreChildren fuel target count nodes children ledger).2.1.length ≤ nodes.length := by
  fun_induction restoreChildren with
  | case1 | case2 | case3 => exact Nat.le_refl _
  | case4 fuel target count snapNode nodes children ledger _ ih =>
    exact ih.trans (skip_length_le _ _)
  | case5 fuel target count snapNode nodes children ledger _ _ _ restored below ihBelow ih =>
    exact le_succ_of_le (ih.trans ihBelow)

theorem restoreChildren_fuel {fuel : Nat} {nodes : List SnapshotNode} (enough : nodes.length ≤ fuel)
    (more target count : Nat) (children : Children) (ledger : Ledger) :
    restoreChildren (fuel + more) target count nodes children ledger =
      restoreChildren fuel target count nodes children ledger := by
  induction fuel generalizing target count nodes children ledger with
  | zero =>
    rw [length_eq_zero_iff.mp (le_zero.mp enough)]
    cases count <;> cases more <;> rfl
  | succ fuel ih =>
    rw [succ_add]
    cases count with
    | zero => rfl
    | succ count =>
      cases nodes with
      | nil => rfl
      | cons snapNode nodes =>
        have fewer : nodes.length ≤ fuel := le_of_succ_le_succ enough
        rw [restoreChildren, restoreChildren]
        split
        · exact ih ((skip_length_le _ nodes).trans fewer) ..
        · simp only [ih fewer]
          exact ih ((restoreChildren_unread ..).trans fewer) ..

/-- A child hangs under the first character of its edge. -/
def Keyed (_ : Node) (key : Char) (node : Node) : Prop := node.text.text.head? = some key

theorem restoreChildren_keyed (fuel target count : Nat) (nodes : List SnapshotNode) {children : Children}
    (ledger : Ledger) (keyed : Hangs Keyed above children) :
    Hangs Keyed above (restoreChildren fuel target count nodes children ledger).1 := by
  fun_induction restoreChildren generalizing above with
  | case1 | case2 | case3 => exact keyed
  | case4 fuel target count snapNode nodes children ledger _ ih => exact ih keyed
  | case5 fuel target count snapNode nodes children ledger first _ edge restored below ihBelow =>
    rename_i ih
    refine ih (keyed.put ?_ (ihBelow hangs_nil))
    rw [Keyed, restoreTenants_text, NodeText.new, edge]
    rfl

/-- Reading the listing of a forest adds a copy of it to the children and leaves the nodes
after it unread. -/
theorem restoreChildren_listed (source : Source tidy tenants above children) (fuel target : Nat)
    (more : List SnapshotNode) (pre : Children) (ledger : Ledger) (room : (flat children).length ≤ fuel)
    (apart : ∀ key, pre.find? key ≠ none → children.find? key = none) :
    ∃ copy ledger', restoreChildren fuel target (listed children).length (flat children ++ more) pre
        ledger = (pre.append copy, more, ledger') ∧ Copies children copy ∧
      Edit tidy tenants target pre ledger (pre.append copy) ledger' := by
  induction children generalizing tenants above fuel target more pre ledger with
  | nil =>
    refine ⟨.nil, ledger, ?_, trivial, ?_⟩
    · rw [Forest.append_nil]
      cases fuel <;> rfl
    · rw [Forest.append_nil]
      exact .refl
  | cons key node below rest ihBelow ihRest =>
    obtain ⟨starts, length, -⟩ := (hangs_cons.mp source.linked).1
    have vacant : pre.find? key = none := by
      by_contra held
      exact (find?_cons_eq_none.mp (apart key held)).1 rfl
    have lengths : (flat (.cons key node below rest)).length = (flat below).length + (flat rest).length + 1 := by
      simp only [flat, listed, snapshotNode, flatMap_cons, length_append, length_cons]
      omega
    obtain ⟨fuel, rfl⟩ : ∃ less, fuel = less + 1 := ⟨fuel - 1, by omega⟩
    obtain ⟨credited, same⟩ := restoreTenants_toList tenants node.text.text.length node
      ⟨ledger.nextId, .new node.text.text, ∅, some target, none⟩ ledger.allocate rfl rfl
      (hangs_cons.mp source.inside).1
    generalize node' : restoreTenants node.text.text.length node.tenantLastAccessTime.toList
      ⟨ledger.nextId, .new node.text.text, ∅, some target, none⟩ ledger.allocate = restored
      at credited same
    have carries : ∀ tenant, restored.1.carries tenant = node.carries tenant := Copies.carries same
    have text : restored.1.text = node.text := by
      rw [credited.text, NodeText.new, ← length]
    obtain ⟨belowCopy, ledger₂, belowRead, belowCopies, belowEdit⟩ := ihBelow source.below fuel
      restored.1.id (flat rest ++ more) .nil restored.2 (by omega) fun _ held => absurd rfl held
    rw [append] at belowRead belowEdit
    have grown : Grown tidy tenants target (.cons key restored.1 belowCopy .nil) ledger ledger₂ := by
      refine .of_edit credited rfl rfl starts rfl rfl (fun _ inner => inner.1) (fun clean => ?_)
        (fun clean tenant inner => ?_) belowEdit
      · obtain ⟨tenant, carried⟩ := (hangs_cons.mp (source.nested clean)).1.1
        exact ⟨tenant, by rwa [carries]⟩
      · rw [carries]
        exact inner.2 clean
    obtain ⟨restCopy, ledger₃, restRead, restCopies, restEdit⟩ := ihRest source.rest fuel target more
      (pre.put key restored.1 belowCopy) ledger₂ (by omega) fun probe held => by
        rw [find?_put] at held
        split at held
        · rename_i hit
          exact hit ▸ source.distinct.1
        · exact (find?_cons_eq_none.mp (apart probe held)).2
    have whole : (pre.put key restored.1 belowCopy).append restCopy =
        pre.append (.cons key restored.1 belowCopy restCopy) := by
      rw [put_vacant vacant, Forest.append_assoc]
      rfl
    rw [whole] at restRead restEdit
    refine ⟨.cons key restored.1 belowCopy restCopy, ledger₃, ?_,
      ⟨rfl, text, same, belowCopies, restCopies⟩, (Edit.graft vacant grown).trans restEdit⟩
    have reading : flat (.cons key node below rest) ++ more =
        ⟨node.text.text, node.tenantLastAccessTime.toList, (listed below).length.toUInt32⟩ ::
          (flat below ++ (flat rest ++ more)) := by
      simp [flat, listed, snapshotNode]
    rw [← toNat_childCount source.distinct.2.1] at belowRead
    rw [reading, listed, length_cons, restoreChildren]
    simp only [node', belowRead]
    split
    · rename_i empty
      rw [empty] at starts
      cases starts
    · rename_i edge
      rw [edge] at starts
      cases starts
      exact restRead

/-- A tree restored from its own snapshot grows from the empty tree, into a copy. -/
theorem fromSnapshot_snapshot {tree : Tree} (sound : Sound tree)
    (inside : Hangs (Inside fun tenant => tree.root.carries tenant = true) tree.root
      tree.children) (nested : tidy → Tidy tree) :
    Grows tidy (fun tenant => tree.root.carries tenant = true) Tree.new (fromSnapshot (snapshot tree)) ∧
      (∀ tenant, (fromSnapshot (snapshot tree)).root.tenantLastAccessTime.get? tenant =
        tree.root.tenantLastAccessTime.get? tenant) ∧
      Copies (sortDeep tree.children) (fromSnapshot (snapshot tree)).children := by
  have source : Source tidy (fun tenant => tree.root.carries tenant = true) tree.root (sortDeep tree.children) :=
    ⟨(shuffled_sortDeep _).hangs.mpr sound.linked, (shuffled_sortDeep _).distinct.1.mpr sound.distinct,
      (shuffled_sortDeep _).hangs.mpr inside, fun clean => (shuffled_sortDeep _).hangs.mpr (nested clean),
      fun _ _ carried => carried⟩
  obtain ⟨credited, same⟩ := restoreTenants_toList (fun tenant => tree.root.carries tenant = true)
    0 tree.root Tree.new.root Tree.new.ledger rfl rfl fun _ carried => carried
  generalize root' : restoreTenants 0 tree.root.tenantLastAccessTime.toList Tree.new.root
    Tree.new.ledger = restored at credited same
  obtain ⟨copy, ledger, read, copies, edit⟩ := restoreChildren_listed source
    (flat (sortDeep tree.children)).length restored.1.id [] .nil restored.2 le_rfl
    fun _ held => absurd rfl held
  rw [append, List.append_nil] at read
  have whole : fromSnapshot (snapshot tree) = ⟨restored.1, copy, ledger⟩ := by
    have edge : tree.root.text.text = [] := by rw [sound.rootText]; rfl
    rw [← toNat_childCount source.distinct] at read
    subst root'
    simp only [snapshot, snapshotNode, fromSnapshot, snapshotChildren_eq, edge]
    exact congrArg (fun below => (⟨_, below.1, below.2.2⟩ : Tree)) read
  rw [whole]
  refine ⟨⟨⟨restored.2, credited, ?_⟩, fun tenant carried => ?_⟩, same, copies⟩
  · rw [credited.id] at edit
    exact edit
  · rw [← Copies.carries same] at carried
    exact carried

end ModelGateway.StringTree
