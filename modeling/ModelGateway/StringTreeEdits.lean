import ModelGateway.StringTreeMerge

/-! What growing a string tree can do to it. Insertion and merging only ever graft a new
subtree under a free key, credit tenants to a node, or split a node in two, at any depth;
each invariant of the tree is checked once for each of these edits. -/
namespace ModelGateway.StringTree
open StringText Forest

/-- The edge starts with the key, its length is cached, and the node points to its parent. -/
def Linked (above : Node) (key : Char) (node : Node) : Prop :=
  node.text.text.head? = some key ∧ node.text.charCount = node.text.text.length ∧ node.parent = some above.id

/-- The node has a tenant, and the node above carries each of its tenants. -/
def Nested (above : Node) (_ : Char) (node : Node) : Prop :=
  (∃ tenant, node.carries tenant = true) ∧ ∀ tenant, node.carries tenant = true → above.carries tenant = true

variable (tenants : TenantId → Prop)

/-- Only tenants of a given set are carried. -/
def Inside (_ : Node) (_ : Char) (node : Node) : Prop :=
  ∀ tenant, node.carries tenant = true → tenants tenant

/-- The characters a node holds for a tenant. -/
def chars (tenant : TenantId) (node : Node) : Nat :=
  if node.carries tenant then node.text.charCount else 0

def hasId (id : Nat) (node : Node) : Bool := node.id == id

/-- Counts an identity that lies in `[low, high)`. -/
def window (low high id : Nat) : Nat := if low ≤ id ∧ id < high then 1 else 0

/-- How many nodes have an identity. -/
abbrev idCount (id : Nat) (children : Children) : Nat := children.total (mark (hasId id))

def Ledger.chars (ledger : Ledger) (tenant : TenantId) : Nat :=
  (ledger.tenantCharCount.get? tenant).getD 0

def Ledger.holds (ledger : Ledger) (tenant : TenantId) : Bool :=
  ledger.tenantCharCount.contains tenant

/-- The counts follow the characters held before and after, and only tenants of the given
set become counted. -/
structure Counted (ledger ledger' : Ledger)
    (pre post : TenantId → Nat) : Prop where
  balance : ∀ tenant, ledger'.chars tenant + pre tenant = ledger.chars tenant + post tenant
  keeps : ∀ tenant, ledger.holds tenant = true → ledger'.holds tenant = true
  only : ∀ tenant, ledger'.holds tenant = true → ledger.holds tenant = true ∨ tenants tenant

/-- A subtree built from new nodes, to hang under the node `parent`. -/
structure Grown (tidy : Prop) (tenants : TenantId → Prop) (parent : Nat) (subtree : Children)
    (ledger ledger' : Ledger) : Prop where
  linked : ∀ above : Node, above.id = parent → Hangs Linked above subtree
  distinct : subtree.Distinct
  inside : ∀ above, Hangs (Inside tenants) above subtree
  nested : tidy → ∀ above : Node, (∀ tenant, tenants tenant → above.carries tenant = true) →
    Hangs Nested above subtree
  next : ledger.nextId ≤ ledger'.nextId
  ids : ∀ id, idCount id subtree = window ledger.nextId ledger'.nextId id
  counted : Counted tenants ledger ledger' (fun _ => 0) fun tenant => subtree.total (chars tenant)

/-- The same node with more tenants. -/
structure Credited (node node' : Node) (ledger ledger' : Ledger) : Prop where
  id : node'.id = node.id
  text : node'.text = node.text
  parent : node'.parent = node.parent
  grows : ∀ tenant, node.carries tenant = true → node'.carries tenant = true
  only : ∀ tenant, node'.carries tenant = true → node.carries tenant = true ∨ tenants tenant
  holds : ∀ tenant, node'.carries tenant = true → node.carries tenant = true ∨ ledger'.holds tenant = true
  next : ledger'.nextId = ledger.nextId
  counted : Counted tenants ledger ledger' (fun tenant => chars tenant node) fun tenant =>
    chars tenant node'

/-- A node cut into a new upper node and itself with the rest of its text. -/
structure Parted (parent : Nat) (key lowerKey : Char) (node upper lower : Node) (fresh : Nat) :
    Prop where
  upperId : upper.id = fresh
  upperParent : upper.parent = some parent
  upperFirst : upper.text.text.head? = some key
  upperCount : upper.text.charCount = upper.text.text.length
  lowerId : lower.id = node.id
  lowerParent : lower.parent = some fresh
  lowerFirst : lower.text.text.head? = some lowerKey
  lowerCount : lower.text.charCount = lower.text.text.length
  upperCarries : ∀ tenant, upper.carries tenant = node.carries tenant
  lowerCarries : ∀ tenant, lower.carries tenant = node.carries tenant
  charCount : upper.text.charCount + lower.text.charCount = node.text.charCount

/-- Edits of the children of the node `parent` that credit only the given tenants. A tidy
edit never credits a tenant below a node that does not carry it. -/
inductive Edit (tidy : Prop) :
    (TenantId → Prop) → Nat → Children → Ledger → Children → Ledger → Prop
  | refl {tenants parent children ledger} : Edit tidy tenants parent children ledger children ledger
  | trans {tenants parent children ledger children₁ ledger₁ children₂ ledger₂} :
      Edit tidy tenants parent children ledger children₁ ledger₁ →
      Edit tidy tenants parent children₁ ledger₁ children₂ ledger₂ →
      Edit tidy tenants parent children ledger children₂ ledger₂
  | graft {tenants parent children ledger key node below ledger'} : children.find? key = none →
      Grown tidy tenants parent (.cons key node below .nil) ledger ledger' →
      Edit tidy tenants parent children ledger (children.put key node below) ledger'
  | credit {tenants parent children ledger key node below node' ledger'} :
      children.find? key = some (node, below) →
      Credited tenants node node' ledger ledger' →
      Edit tidy tenants parent children ledger (children.put key node' below) ledger'
  | split {tenants parent children ledger key node below lowerKey upper lower} :
      children.find? key = some (node, below) →
      Parted parent key lowerKey node upper lower ledger.nextId →
      Edit tidy tenants parent children ledger
        (children.put key upper (.cons lowerKey lower below .nil)) ledger.allocate
  | descend {tenants parent children ledger key node below inner below' ledger'} :
      children.find? key = some (node, below) →
      (∀ tenant, inner tenant → tenants tenant) →
      (tidy → ∀ tenant, inner tenant → node.carries tenant = true) →
      Edit tidy inner node.id below ledger below' ledger' →
      Edit tidy tenants parent children ledger (children.put key node below') ledger'

@[simp] theorem Ledger.nextId_allocate (ledger : Ledger) : ledger.allocate.nextId = ledger.nextId + 1 := rfl

variable (id : Nat)

theorem mark_hasId (node : Node) : mark (hasId id) node = if node.id = id then 1 else 0 := by
  simp [mark, hasId]

theorem mark_hasId_eq_window (node : Node) : mark (hasId id) node = window node.id (node.id + 1) id := by
  rw [mark_hasId, window]
  split_ifs <;> omega

theorem window_self (bound id : Nat) : window bound bound id = 0 := by
  rw [window, if_neg (by omega)]

theorem window_append {low middle high id : Nat} (first : low ≤ middle) (second : middle ≤ high) :
    window low middle id + window middle high id = window low high id := by
  simp only [window]
  split_ifs <;> omega

theorem mark_hasId_congr {node node' : Node} (same : node'.id = node.id) :
    mark (hasId id) node' = mark (hasId id) node := by
  rw [mark_hasId, mark_hasId, same]

namespace Counted

variable {tenants : TenantId → Prop} {ledger : Ledger} {held : TenantId → Nat} {ledger' : Ledger}
  {held' : TenantId → Nat}

theorem refl : Counted tenants ledger ledger held held := ⟨fun _ => rfl, fun _ => id, fun _ => .inl⟩

theorem trans {ledger₁ ledger₂ : Ledger} {held₁ held₂ : TenantId → Nat}
    (first : Counted tenants ledger ledger₁ held held₁)
    (second : Counted tenants ledger₁ ledger₂ held₁ held₂) :
    Counted tenants ledger ledger₂ held held₂ where
  balance tenant := by
    have := first.balance tenant
    have := second.balance tenant
    omega
  keeps tenant counted := second.keeps tenant (first.keeps tenant counted)
  only tenant counted := (second.only tenant counted).elim (first.only tenant) .inr

theorem mono {tenants' : TenantId → Prop} (counted : Counted tenants ledger ledger' held held')
    (wider : ∀ tenant, tenants tenant → tenants' tenant) : Counted tenants' ledger ledger' held held' :=
  ⟨counted.balance, counted.keeps, fun tenant held => (counted.only tenant held).imp_right (wider tenant)⟩

theorem shift {pre post : TenantId → Nat} (counted : Counted tenants ledger ledger' held held')
    (same : ∀ tenant, post tenant + held tenant = pre tenant + held' tenant) :
    Counted tenants ledger ledger' pre post where
  balance tenant := by
    have := counted.balance tenant
    have := same tenant
    omega
  keeps := counted.keeps
  only := counted.only

end Counted

namespace Edit
variable {tidy : Prop} {tenants : TenantId → Prop} {parent : Nat} {children children' : Children}
  {ledger ledger' : Ledger}

variable {above : Node}

variable (edit : Edit tidy tenants parent children ledger children' ledger')
include edit

theorem linked (hung : above.id = parent) (linked : Hangs Linked above children) : Hangs Linked above children' := by
  induction edit generalizing above with
  | refl => exact linked
  | trans _ _ ihFirst ihSecond => exact ihSecond hung (ihFirst hung linked)
  | graft _ grown =>
    have new := hangs_cons.mp (grown.linked above hung)
    exact linked.put new.1 new.2.1
  | credit found credited =>
    obtain ⟨⟨first, count, pointer⟩, hangsBelow⟩ := linked.find? found
    refine linked.put ⟨?_, ?_, ?_⟩ (hangsBelow.rehang fun key node fit => ?_)
    · rw [credited.text, first]
    · rw [credited.text, count]
    · rw [credited.parent, pointer]
    · rwa [Linked, credited.id]
  | split found parted =>
    obtain ⟨-, hangsBelow⟩ := linked.find? found
    refine linked.put ⟨parted.upperFirst, parted.upperCount, by rw [parted.upperParent, hung]⟩
      (hangs_cons.mpr ⟨⟨parted.lowerFirst, parted.lowerCount, ?_⟩,
        hangsBelow.rehang fun key node fit => ?_, hangs_nil⟩)
    · rw [parted.lowerParent, parted.upperId]
    · rwa [Linked, parted.lowerId]
  | descend found _ _ _ ih =>
    obtain ⟨fit, hangsBelow⟩ := linked.find? found
    exact linked.put fit (ih rfl hangsBelow)

theorem distinct (distinct : children.Distinct) : children'.Distinct := by
  induction edit with
  | refl => exact distinct
  | trans _ _ ihFirst ihSecond => exact ihSecond (ihFirst distinct)
  | graft _ grown => exact distinct.put grown.distinct.2.1
  | credit found _ => exact distinct.put (distinct.find? found)
  | split found _ => exact distinct.put ⟨rfl, distinct.find? found, trivial⟩
  | descend found _ _ _ ih => exact distinct.put (ih (distinct.find? found))

theorem nested (clean : tidy) (lead : ∀ tenant, tenants tenant → above.carries tenant = true)
    (nested : Hangs Nested above children) : Hangs Nested above children' := by
  induction edit generalizing above with
  | refl => exact nested
  | trans _ _ ihFirst ihSecond => exact ihSecond lead (ihFirst lead nested)
  | graft _ grown =>
    have new := hangs_cons.mp (grown.nested clean above lead)
    exact nested.put new.1 new.2.1
  | credit found credited =>
    obtain ⟨⟨⟨tenant, carried⟩, owned⟩, hangsBelow⟩ := nested.find? found
    refine nested.put ⟨⟨tenant, credited.grows tenant carried⟩, fun tenant carried => ?_⟩
      (hangsBelow.rehang fun key node fit => ⟨fit.1, fun tenant carried =>
        credited.grows tenant (fit.2 tenant carried)⟩)
    exact (credited.only tenant carried).elim (owned tenant) (lead tenant)
  | split found parted =>
    obtain ⟨⟨⟨tenant, carried⟩, owned⟩, hangsBelow⟩ := nested.find? found
    refine nested.put ⟨⟨tenant, by rwa [parted.upperCarries]⟩, fun tenant carried => ?_⟩
      (hangs_cons.mpr ⟨⟨⟨tenant, by rwa [parted.lowerCarries]⟩, fun tenant carried => ?_⟩,
        hangsBelow.rehang fun key node fit => ⟨fit.1, fun tenant carried => ?_⟩, hangs_nil⟩)
    · exact owned tenant (parted.upperCarries tenant ▸ carried)
    · rwa [parted.upperCarries, ← parted.lowerCarries]
    · rw [parted.lowerCarries]
      exact fit.2 tenant carried
  | descend found _ leads _ ih =>
    obtain ⟨fit, hangsBelow⟩ := nested.find? found
    exact nested.put fit (ih (leads clean) hangsBelow)

theorem inside {all : TenantId → Prop} (wider : ∀ tenant, tenants tenant → all tenant)
    (inside : Hangs (Inside all) above children) : Hangs (Inside all) above children' := by
  induction edit generalizing above with
  | refl => exact inside
  | trans _ _ ihFirst ihSecond => exact ihSecond wider (ihFirst wider inside)
  | graft _ grown =>
    have new := hangs_cons.mp (grown.inside above)
    exact inside.put (fun tenant carried => wider tenant (new.1 tenant carried))
      (new.2.1.mono fun _ _ _ fit tenant carried => wider tenant (fit tenant carried))
  | credit found credited =>
    obtain ⟨fit, hangsBelow⟩ := inside.find? found
    refine inside.put (fun tenant carried => ?_) (hangsBelow.rehang fun _ _ fit => fit)
    exact (credited.only tenant carried).elim (fit tenant) (wider tenant)
  | split found parted =>
    obtain ⟨fit, hangsBelow⟩ := inside.find? found
    refine inside.put (fun tenant carried => fit tenant (parted.upperCarries tenant ▸ carried))
      (hangs_cons.mpr ⟨fun tenant carried => fit tenant (parted.lowerCarries tenant ▸ carried),
        hangsBelow.rehang fun _ _ fit => fit, hangs_nil⟩)
  | descend found narrower _ _ ih =>
    obtain ⟨fit, hangsBelow⟩ := inside.find? found
    exact inside.put fit (ih (fun tenant inner => wider tenant (narrower tenant inner)) hangsBelow)

theorem nextId_le : ledger.nextId ≤ ledger'.nextId := by
  induction edit with
  | refl => exact le_rfl
  | trans _ _ ihFirst ihSecond => exact ihFirst.trans ihSecond
  | graft _ grown => exact grown.next
  | credit _ credited => exact credited.next.ge
  | split _ _ => exact Nat.le_succ _
  | descend _ _ _ _ ih => exact ih

/-- Every identity handed out is given to one new node. -/
theorem ids : idCount id children' = idCount id children + window ledger.nextId ledger'.nextId id := by
  induction edit with
  | refl => rw [window_self, Nat.add_zero]
  | trans first second ihFirst ihSecond =>
    rw [ihSecond, ihFirst, ← window_append first.nextId_le second.nextId_le, Nat.add_assoc]
  | graft vacant grown =>
    have new := grown.ids id
    simp only [idCount, total, Nat.add_zero] at new
    rw [idCount, total_put_vacant vacant, new]
  | @credit _ _ children ledger key node below node' ledger' found credited =>
    have same := mark_hasId_congr id credited.id
    have put := total_put_held found (mark (hasId id)) node' below
    rw [credited.next, window_self]
    simp only [idCount]
    omega
  | @split tenants _ children ledger key node below lowerKey upper lower found parted =>
    have put := total_put_held found (mark (hasId id)) upper (.cons lowerKey lower below .nil)
    have same := mark_hasId_congr id parted.lowerId
    have new : mark (hasId id) upper = window ledger.nextId ledger.allocate.nextId id := by
      rw [mark_hasId_eq_window, parted.upperId, Ledger.nextId_allocate]
    simp only [idCount, total] at put ⊢
    omega
  | @descend _ _ children ledger key node below inner below' ledger' found _ _ _ ih =>
    have put := total_put_held found (mark (hasId id)) node below'
    simp only [idCount] at ih ⊢
    omega

/-- The counts change by what the nodes hold. -/
theorem counted : Counted tenants ledger ledger' (fun tenant => children.total (chars tenant)) fun tenant =>
      children'.total (chars tenant) := by
  induction edit with
  | refl => exact .refl
  | trans _ _ ihFirst ihSecond => exact ihFirst.trans ihSecond
  | graft vacant grown =>
    refine grown.counted.shift fun tenant => ?_
    rw [total_put_vacant vacant]
    simp [total]
  | @credit _ _ children ledger key node below node' ledger' found credited =>
    refine credited.counted.shift fun tenant => ?_
    have := total_put_held found (chars tenant) node' below
    omega
  | @split tenants _ children ledger key node below lowerKey upper lower found parted =>
    have same : Counted tenants ledger ledger.allocate (fun _ => 0) fun _ => 0 :=
      ⟨fun _ => rfl, fun _ => id, fun _ => .inl⟩
    refine same.shift fun tenant => ?_
    have put := total_put_held found (chars tenant) upper (.cons lowerKey lower below .nil)
    have count := parted.charCount
    have parts : chars tenant upper + chars tenant lower = chars tenant node := by
      simp only [chars, parted.upperCarries, parted.lowerCarries]
      split <;> omega
    simp only [total] at put
    omega
  | @descend _ _ children ledger key node below inner below' ledger' found narrower _ _ ih =>
    refine (ih.mono narrower).shift fun tenant => ?_
    have := total_put_held found (chars tenant) node below'
    omega

end Edit

end ModelGateway.StringTree
