import ModelGateway.StringTreeEdits

/-! Recomputed sizes, and copies of subtrees. -/
namespace ModelGateway.StringTree
open StringText Forest KeyedMap

/-! ### Sizes -/

variable (counts : KeyedMap TenantId Nat)

theorem foldl_addChars {count : Nat} (tenants : List TenantId) (nodup : tenants.Nodup)
    (counts : KeyedMap TenantId Nat) (probe : TenantId) :
    (tenants.foldl (fun counts tenant => addChars counts tenant count) counts).get? probe =
      if probe ∈ tenants then some ((counts.get? probe).getD 0 + count) else counts.get? probe := by
  induction tenants generalizing counts with
  | nil => simp
  | cons tenant tenants ih =>
    rw [List.foldl_cons, ih (List.nodup_cons.mp nodup).2, addChars, get?_insert]
    by_cases same : probe = tenant
    · subst same
      simp [(List.nodup_cons.mp nodup).1]
    · simp [same]

theorem get?_countNode (node : Node) (tenant : TenantId) : (countNode counts node).get? tenant =
      if node.carries tenant then some ((counts.get? tenant).getD 0 + node.text.charCount)
      else counts.get? tenant := by
  rw [countNode, foldl_addChars _ node.tenantLastAccessTime.keys_nodup]
  simp only [Node.carries, contains_iff_mem_keys]

theorem getD_accumulateTenantCounts (children : Children) (tenant : TenantId) :
    ((accumulateTenantCounts counts children).get? tenant).getD 0 =
      (counts.get? tenant).getD 0 + children.total (chars tenant) := by
  induction children generalizing counts with
  | nil => rfl
  | cons key node below rest ihBelow ihRest =>
    have here : ((countNode counts node).get? tenant).getD 0 = (counts.get? tenant).getD 0 + chars tenant node := by
      rw [get?_countNode, chars]
      split <;> rfl
    rw [accumulateTenantCounts, ihRest, ihBelow, here, total]
    omega

theorem contains_accumulateTenantCounts (children : Children) (tenant : TenantId) :
    (accumulateTenantCounts counts children).contains tenant = true ↔ counts.contains tenant = true ∨
        0 < children.total (mark fun node => node.carries tenant) := by
  induction children generalizing counts with
  | nil => simp [accumulateTenantCounts, total]
  | cons key node below rest ihBelow ihRest =>
    have here : (countNode counts node).contains tenant = true ↔
        counts.contains tenant = true ∨ 0 < mark (fun node => node.carries tenant) node := by
      rw [contains, get?_countNode, mark]
      by_cases carried : node.carries tenant = true <;> simp [carried, contains]
    rw [accumulateTenantCounts, ihRest, ihBelow, here, total, or_assoc, or_assoc]
    exact or_congr_right (by omega)

/-! ### Copies -/

/-- The same texts and tenants in the same order. -/
def Copies : Children → Children → Prop
  | .nil, .nil => True
  | .cons key node below rest, .cons key' node' below' rest' =>
    key' = key ∧ node'.text = node.text ∧
      (∀ tenant, node'.tenantLastAccessTime.get? tenant = node.tenantLastAccessTime.get? tenant) ∧
      Copies below below' ∧ Copies rest rest'
  | _, _ => False

/-- The edge of a node and its tenants with their epochs. -/
def Node.content (node : Node) : NodeText × (TenantId → Option Nat) :=
  (node.text, node.tenantLastAccessTime.get?)

namespace Copies

theorem carries {node node' : Node}
    (same : ∀ tenant, node'.tenantLastAccessTime.get? tenant = node.tenantLastAccessTime.get? tenant)
    (tenant : TenantId) : node'.carries tenant = node.carries tenant := by
  rw [Node.carries, contains, same]
  rfl

variable {children children' : Children} {above above' : Node}

variable (copies : Copies children children')
include copies

theorem find? (key : Char) : Option.Rel (fun found found' : Node × Children =>
    found'.1.content = found.1.content ∧ Copies found.2 found'.2) (children.find? key) (children'.find? key) := by
  induction children, children' using Copies.induct with
  | case1 => exact .none
  | case2 held node below rest held' node' below' rest' _ ihRest =>
    obtain ⟨rfl, text, tenants, belowCopies, restCopies⟩ := copies
    rw [Forest.find?, Forest.find?]
    split
    · exact .some ⟨Prod.ext text (funext tenants), belowCopies⟩
    · exact ihRest restCopies
  | case3 => exact absurd copies (by simp [Copies])

theorem distinct (distinct : children.Distinct) : children'.Distinct := by
  induction children, children' using Copies.induct with
  | case1 => trivial
  | case2 held node below rest held' node' below' rest' ihBelow ihRest =>
    obtain ⟨rfl, -, -, belowCopies, restCopies⟩ := copies
    refine ⟨?_, ihBelow belowCopies distinct.2.1, ihRest restCopies distinct.2.2⟩
    have found := restCopies.find? held'
    rw [distinct.1] at found
    cases found' : rest'.find? held' with
    | none => rfl
    | some =>
      rw [found'] at found
      cases found
  | case3 => exact absurd copies (by simp [Copies])

theorem total (tenant : TenantId) : children'.total (chars tenant) = children.total (chars tenant) := by
  induction children, children' using Copies.induct with
  | case1 => rfl
  | case2 held node below rest held' node' below' rest' ihBelow ihRest =>
    obtain ⟨-, text, tenants, belowCopies, restCopies⟩ := copies
    rw [Forest.total, Forest.total, ihBelow belowCopies, ihRest restCopies, chars, chars, text, carries tenants]
  | case3 => exact absurd copies (by simp [Copies])

omit copies in
theorem hangs {fits : Node → Char → Node → Prop}
    (depends : ∀ above above' key node node', (∀ tenant, above'.carries tenant = above.carries tenant) →
      (∀ tenant, node'.carries tenant = node.carries tenant) → fits above key node →
      fits above' key node') (copies : Copies children children')
    (same : ∀ tenant, above'.carries tenant = above.carries tenant)
    (hangs : Hangs fits above children) : Hangs fits above' children' := by
  induction children, children' using Copies.induct generalizing above above' with
  | case1 => exact hangs_nil
  | case2 held node below rest held' node' below' rest' ihBelow ihRest =>
    obtain ⟨rfl, -, tenants, belowCopies, restCopies⟩ := copies
    rw [hangs_cons] at hangs ⊢
    exact ⟨depends _ _ _ _ _ same (carries tenants) hangs.1,
      ihBelow belowCopies (carries tenants) hangs.2.1, ihRest restCopies same hangs.2.2⟩
  | case3 => exact absurd copies (by simp [Copies])

theorem inside {tenants : TenantId → Prop} (inside : Hangs (Inside tenants) above children) :
    Hangs (Inside tenants) above' children' := by
  have moved : Hangs (Inside tenants) above' children := inside.rehang fun _ _ fit => fit
  exact copies.hangs (fun _ _ _ _ _ _ same fit tenant carried => fit tenant (same tenant ▸ carried))
    (fun _ => rfl) moved

theorem nested (same : ∀ tenant, above'.carries tenant = above.carries tenant)
    (nested : Hangs Nested above children) : Hangs Nested above' children' := by
  refine copies.hangs (fun upper upper' key node node' above same fit => ?_) same nested
  obtain ⟨⟨tenant, carried⟩, owned⟩ := fit
  refine ⟨⟨tenant, by rwa [same]⟩, fun tenant carried => ?_⟩
  rw [above]
  exact owned tenant (same tenant ▸ carried)

end Copies

variable (parent : Nat)

theorem cloneChildren_copies (children : Children) (next : Nat) :
    Copies children (cloneChildren parent children next).1 := by
  induction children generalizing parent next with
  | nil => trivial
  | cons key node below rest ihBelow ihRest =>
    exact ⟨rfl, rfl, fun _ => rfl, ihBelow _ _, ihRest _ _⟩

theorem cloneChildren_linked {children : Children} {parent : Nat} {above above' : Node}
    (hung : above'.id = parent) (linked : Hangs Linked above children) (next : Nat) :
    Hangs Linked above' (cloneChildren parent children next).1 := by
  induction children generalizing parent above above' next with
  | nil => exact hangs_nil
  | cons key node below rest ihBelow ihRest =>
    rw [hangs_cons] at linked
    rw [cloneChildren, hangs_cons]
    exact ⟨⟨linked.1.1, linked.1.2.1, by rw [hung]⟩, ihBelow rfl linked.2.1 _, ihRest hung linked.2.2 _⟩

theorem cloneChildren_next (children : Children) (next : Nat) :
    next ≤ (cloneChildren parent children next).2 := by
  induction children generalizing parent next with
  | nil => exact le_rfl
  | cons key node below rest ihBelow ihRest =>
    exact (Nat.le_succ next).trans ((ihBelow _ _).trans (ihRest _ _))

theorem cloneChildren_ids (children : Children) (next id : Nat) : idCount id (cloneChildren parent children next).1 =
      window next (cloneChildren parent children next).2 id := by
  induction children generalizing parent next with
  | nil => exact (window_self next id).symm
  | cons key node below rest ihBelow ihRest =>
    have middle := cloneChildren_next next below (next + 1)
    have last := cloneChildren_next parent rest (cloneChildren next below (next + 1)).2
    simp only [idCount] at ihBelow ihRest
    rw [cloneChildren, idCount, total, mark_hasId_eq_window]
    simp only
    rw [ihBelow, ihRest, window_append (Nat.le_succ next) middle,
      window_append ((Nat.le_succ next).trans middle) last]

end ModelGateway.StringTree
