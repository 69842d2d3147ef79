import ModelGateway.StringTreeCopies
import ModelGateway.StringTreeGrowth

/-! Merging one tree into another as edits of the local one. -/
namespace ModelGateway.StringTree
open StringText CommonPrefix List Forest KeyedMap Prod

/-- A tree to merge from: its nodes hang under `above` and carry only the given tenants. -/
structure Source (tidy : Prop) (tenants : TenantId → Prop) (above : Node) (remote : Children) :
    Prop where
  linked : Hangs Linked above remote
  distinct : remote.Distinct
  inside : Hangs (Inside tenants) above remote
  nested : tidy → Hangs Nested above remote
  owner : tidy → ∀ tenant, above.carries tenant = true → tenants tenant

variable {above remoteChild : Node} {children remoteBelow : Children} {tidy : Prop}
  {tenants : TenantId → Prop} {node : Node} {key : Char} {remote : Children} {remoteAbove : Node}
  {ledger : Ledger} {edgeChars : Nat}

theorem Nested.inside (nested : Hangs Nested above children) :
    Hangs (Inside fun tenant => above.carries tenant = true) above children := by
  induction children generalizing above with
  | nil => exact hangs_nil
  | cons key node below rest ihBelow ihRest =>
    rw [hangs_cons] at nested ⊢
    exact ⟨nested.1.2, (ihBelow nested.2.1).mono fun _ _ _ fit tenant carried =>
      nested.1.2 tenant (fit tenant carried), ihRest nested.2.2⟩

/-- The tenants of one child, when the tree is nested. -/
def Source.inner (tidy : Prop) (tenants : TenantId → Prop) (node : Node) (tenant : TenantId) : Prop :=
  tenants tenant ∧ (tidy → node.carries tenant = true)

theorem Source.below {below rest : Children} (source : Source tidy tenants above (.cons key node below rest)) :
    Source tidy (Source.inner tidy tenants node) node below where
  linked := (hangs_cons.mp source.linked).2.1
  distinct := source.distinct.2.1
  inside := by
    intro spot mem tenant carried
    refine ⟨(hangs_cons.mp source.inside).2.1 spot mem tenant carried, fun clean => ?_⟩
    have nested := (hangs_cons.mp (source.nested clean)).2.1
    exact Nested.inside nested spot mem tenant carried
  nested clean := (hangs_cons.mp (source.nested clean)).2.1
  owner clean tenant carried := ⟨(hangs_cons.mp source.inside).1 tenant carried, fun _ => carried⟩

theorem Source.rest {below rest : Children} (source : Source tidy tenants above (.cons key node below rest)) :
    Source tidy tenants above rest :=
  ⟨(hangs_cons.mp source.linked).2.2, source.distinct.2.2, (hangs_cons.mp source.inside).2.2,
    fun clean => (hangs_cons.mp (source.nested clean)).2.2, source.owner⟩

theorem Source.mono {tenants' : TenantId → Prop} (source : Source tidy tenants above remote)
    (wider : ∀ tenant, tenants tenant → tenants' tenant) : Source tidy tenants' above remote :=
  { source with
    inside := source.inside.mono fun _ _ _ fit tenant carried => wider tenant (fit tenant carried)
    owner := fun clean tenant carried => wider tenant (source.owner clean tenant carried) }

/-- Merging tenants credits exactly those listed. -/
theorem mergeTenants_credited (tenants : TenantId → Prop) (listed : List (TenantId × Nat))
    (node : Node) (ledger : Ledger) (length : node.text.charCount = edgeChars)
    (allowed : ∀ entry ∈ listed, tenants entry.1) :
    Credited tenants node (mergeTenants edgeChars listed node ledger).1 ledger
        (mergeTenants edgeChars listed node ledger).2 ∧
      ∀ tenant, (mergeTenants edgeChars listed node ledger).1.carries tenant = true ↔
        node.carries tenant = true ∨ tenant ∈ listed.map fst := by
  induction listed generalizing node ledger with
  | nil => exact ⟨.refl, by simp [mergeTenants]⟩
  | cons entry listed ih =>
    obtain ⟨tenant, epoch⟩ := entry
    simp only [mem_cons, or_imp, forall_and, forall_eq] at allowed
    rw [mergeTenants]
    cases held : node.tenantLastAccessTime.get? tenant with
    | none =>
      have fresh : node.carries tenant = false := by simp [Node.carries, KeyedMap.contains, held]
      obtain ⟨credited, exactly⟩ := ih (node.credit tenant epoch) (ledger.add tenant edgeChars) length allowed.2
      refine ⟨(Credited.of_new fresh allowed.1 epoch length).trans credited, fun probe => ?_⟩
      rw [exactly]
      simp [or_assoc, or_left_comm]
    | some localEpoch =>
      have carried : node.carries tenant = true := by simp [Node.carries, KeyedMap.contains, held]
      have absorbed : ∀ probe, node.carries probe = true ∨ probe ∈ listed.map fst ↔
          node.carries probe = true ∨ probe ∈ ((tenant, epoch) :: listed).map fst := by
        intro probe
        rw [map_cons, mem_cons]
        constructor
        · rintro (held | held)
          · exact .inl held
          · exact .inr (.inr held)
        · rintro (held | rfl | held)
          · exact .inl held
          · exact .inl carried
          · exact .inr held
      simp only
      split
      · obtain ⟨credited, exactly⟩ := ih (node.credit tenant epoch) ledger length allowed.2
        refine ⟨(Credited.of_carried carried epoch).trans credited, fun probe => ?_⟩
        rw [exactly, ← absorbed]
        by_cases same : probe = tenant <;> simp [same, carried]
      · obtain ⟨credited, exactly⟩ := ih node ledger length allowed.2
        exact ⟨credited, fun probe => (exactly probe).trans (absorbed probe)⟩

theorem mem_map_fst_toList {tenant : TenantId} :
    tenant ∈ node.tenantLastAccessTime.toList.map fst ↔ node.carries tenant = true := by
  rw [← keys_eq, Node.carries, contains_iff_mem_keys]

theorem Source.credited {rest : Children} {wider : TenantId → Prop}
    (source : Source tidy tenants remoteAbove (.cons key remoteChild remoteBelow rest))
    (widens : ∀ tenant, Source.inner tidy tenants remoteChild tenant → wider tenant) (node : Node)
    (length : node.text.charCount = edgeChars) (ledger : Ledger) :
    let merged := mergeTenants edgeChars remoteChild.tenantLastAccessTime.toList node ledger
    Credited wider node merged.1 ledger merged.2 ∧
      (tidy → ∀ tenant, Source.inner tidy tenants remoteChild tenant → merged.1.carries tenant = true) := by
  obtain ⟨credited, exactly⟩ := mergeTenants_credited wider remoteChild.tenantLastAccessTime.toList node ledger
    length fun entry mem => by
      have held := mem_map_fst_toList.mp (mem_map_of_mem (f := fst) mem)
      exact widens _ ⟨(hangs_cons.mp source.inside).1 entry.1 held, fun _ => held⟩
  exact ⟨credited, fun clean tenant inner =>
    (exactly tenant).mpr (.inr (mem_map_fst_toList.mpr (inner.2 clean)))⟩

/-- A grafted copy is an edit for the tenants of the subtree. -/
theorem graft_edit {below : Children} (parent : Nat) (node : Node) (ledger : Ledger)
    (vacant : children.find? key = none) (starts : node.text.text.head? = some key)
    (length : node.text.charCount = node.text.text.length)
    (carried : ∀ tenant, node.carries tenant = true → tenants tenant)
    (tenanted : tidy → ∃ tenant, node.carries tenant = true) (source : Source tidy tenants above below)
    (same : ∀ tenant, above.carries tenant = node.carries tenant) :
    Edit tidy tenants parent children ledger (graft parent key node below children ledger).1
      (graft parent key node below children ledger).2 := by
  have copies := cloneChildren_copies ledger.nextId below (ledger.nextId + 1)
  have next := cloneChildren_next ledger.nextId below (ledger.nextId + 1)
  have inside : ∀ upper, Hangs (Inside tenants) upper
      (.cons key { node with id := ledger.nextId, parent := some parent }
        (cloneChildren ledger.nextId below (ledger.nextId + 1)).1 .nil) :=
    fun upper => hangs_cons.mpr ⟨carried, copies.inside source.inside, hangs_nil⟩
  refine .graft vacant ⟨?_, ⟨rfl, copies.distinct source.distinct, trivial⟩, inside, ?_, ?_, ?_, ?_⟩
  · rintro upper rfl
    exact hangs_cons.mpr ⟨⟨starts, length, rfl⟩, cloneChildren_linked rfl source.linked _, hangs_nil⟩
  · intro clean upper lead
    exact hangs_cons.mpr ⟨⟨tenanted clean, fun tenant held => lead tenant (carried tenant held)⟩,
      copies.nested (fun tenant => (same tenant).symm) (source.nested clean), hangs_nil⟩
  · exact (Nat.le_succ _).trans next
  · intro id
    have ids := cloneChildren_ids ledger.nextId below (ledger.nextId + 1) id
    simp only [idCount] at ids
    rw [idCount, total, mark_hasId_eq_window]
    simp only [ids, total, Nat.add_zero]
    exact window_append (Nat.le_succ _) next
  · refine ⟨fun tenant => getD_accumulateTenantCounts _ _ _, fun tenant held => ?_, fun tenant held => ?_⟩
    · exact (contains_accumulateTenantCounts _ _ _).mpr (.inl held)
    · refine ((contains_accumulateTenantCounts _ _ _).mp held).imp_right fun some => ?_
      obtain ⟨spot, mem, holds⟩ := exists_of_total_mark above some
      exact inside above spot mem tenant holds

/-- Merging one remote child edits the local children, given that merging its own children
does. -/
theorem mergeChild_edit {rest : Children} {descend : Nat → Children → Ledger → Children × Ledger}
    (source : Source tidy tenants remoteAbove (.cons key remoteChild remoteBelow rest))
    (linked : Hangs Linked above children) (distinct : children.Distinct)
    (descends : ∀ node below ledger, Hangs Linked node below → below.Distinct → Edit tidy
      (Source.inner tidy tenants remoteChild) node.id below ledger (descend node.id below ledger).1
      (descend node.id below ledger).2) : Edit tidy tenants above.id children ledger
      (mergeChild descend above.id key remoteChild remoteBelow children ledger).1
      (mergeChild descend above.id key remoteChild remoteBelow children ledger).2 := by
  have remoteFit := (hangs_cons.mp source.linked).1
  have carried := (hangs_cons.mp source.inside).1
  have tenanted : tidy → ∃ tenant, remoteChild.carries tenant = true := fun clean =>
    (hangs_cons.mp (source.nested clean)).1.1
  have narrower : ∀ tenant, Source.inner tidy tenants remoteChild tenant → tenants tenant := fun _ inner => inner.1
  rw [mergeChild]
  cases found : children.find? key with
  | none =>
    exact graft_edit above.id remoteChild ledger found remoteFit.1 remoteFit.2.1 carried tenanted
      (source.below.mono narrower) fun _ => rfl
  | some held =>
    obtain ⟨localChild, localBelow⟩ := held
    obtain ⟨fit, hangsBelow⟩ := linked.find? found
    have distinctBelow := distinct.find? found
    have shares := sharedPrefixCount_eq localChild.text.text remoteChild.text.text
    simp only
    generalize sharedPrefixCount localChild.text.text remoteChild.text.text = shared at shares ⊢
    split
    · -- equal edges
      obtain ⟨credited, leads⟩ := source.credited narrower localChild rfl ledger
      exact .through _ found credited narrower leads credited.id
        (descends localChild localBelow _ hangsBelow distinctBelow) .refl
    · split
      · -- the local edge is a proper prefix of the remote edge
        obtain ⟨credited, leads⟩ := source.credited narrower localChild fit.2.1 ledger
        cases remainder : advanceByChars remoteChild.text.text shared with
        | nil => exact .credit found credited
        | cons first tail =>
          simp only
          cases deep : localBelow.find? first with
          | none =>
            refine .through _ found credited narrower leads credited.id ?_ .refl
            exact graft_edit localChild.id { remoteChild with text := .new (first :: tail) } _ deep rfl rfl
              (fun tenant held => ⟨carried tenant held, fun _ => held⟩) tenanted source.below fun _ => rfl
          | some deeperHeld =>
            obtain ⟨deeper, deeperBelow⟩ := deeperHeld
            obtain ⟨-, hangsDeeper⟩ := hangsBelow.find? deep
            refine .through _ found credited narrower leads credited.id ?_ .refl
            obtain ⟨creditedDeeper, leadsDeeper⟩ := source.credited (fun _ => id) deeper rfl
              (mergeTenants localChild.text.text.length remoteChild.tenantLastAccessTime.toList localChild ledger).2
            exact .through _ deep creditedDeeper (fun _ => id) leadsDeeper creditedDeeper.id
              (descends deeper deeperBelow _ hangsDeeper (distinctBelow.find? deep)) .refl
      · -- the local edge is split
        rename_i short
        have within : shared < localChild.text.charCount := by
          have := commonPrefix_le_left localChild.text.text remoteChild.text.text
          have := fit.2.1
          omega
        cases second : (localChild.text.splitAtChar shared).2.firstChar with
        | none => exact .refl
        | some localFirst =>
          have pos : 0 < shared := shares ▸ commonPrefix_pos fit.1 remoteFit.1
          have parted := parted_of_split ledger.nextId fit pos within second
          have parting : Edit tidy tenants above.id children ledger _ _ := .split found parted
          have length : (localChild.text.splitAtChar shared).1.charCount = shared := by
            rw [splitAtChar_inside pos within]
          obtain ⟨credited, leads⟩ := source.credited narrower ⟨ledger.nextId,
            (localChild.text.splitAtChar shared).1, localChild.tenantLastAccessTime, some above.id,
            localChild.lastTenant⟩ length ledger.allocate
          refine parting.trans ?_
          cases remainder : advanceByChars remoteChild.text.text shared with
          | nil =>
            have crediting : Edit tidy tenants above.id _ _ _ _ :=
              .credit (find?_put_self children key _ (.cons localFirst { localChild with
                text := (localChild.text.splitAtChar shared).2, parent := some ledger.nextId }
                localBelow .nil)) credited
            rw [put_put] at crediting
            exact crediting
          | cons first tail =>
            have apart : localFirst ≠ first := by
              rw [splitAtChar_inside pos within] at second
              rw [advanceByChars_eq] at remainder
              subst shares
              exact drop_commonPrefix_ne second (by rw [remainder]; rfl)
            have vacant : Forest.find? first (.cons localFirst { localChild with
                text := (localChild.text.splitAtChar shared).2, parent := some ledger.nextId }
                localBelow .nil) = none := find?_cons_eq_none.mpr ⟨apart, rfl⟩
            have grafting := Edit.through above.id (find?_put_self children key _ _) credited narrower leads credited.id
              (graft_edit ledger.nextId { remoteChild with text := .new (first :: tail) } _ vacant rfl rfl
                (fun tenant held => ⟨carried tenant held, fun _ => held⟩) tenanted source.below
                fun _ => rfl) .refl
            rw [put_put] at grafting
            exact grafting

theorem mergeChildren_edit (source : Source tidy tenants remoteAbove remote)
    (linked : Hangs Linked above children) (distinct : children.Distinct) :
    Edit tidy tenants above.id children ledger (mergeChildren remote above.id children ledger).1
      (mergeChildren remote above.id children ledger).2 := by
  induction remote generalizing tenants above remoteAbove children ledger with
  | nil => exact .refl
  | cons key remoteChild remoteBelow rest ihBelow ihRest =>
    have first : Edit tidy tenants above.id children ledger _ _ :=
      mergeChild_edit source linked distinct fun node below ledger hangs apart =>
        ihBelow source.below hangs apart
    exact first.trans (ihRest source.rest (first.linked rfl linked) (first.distinct distinct))

end ModelGateway.StringTree
