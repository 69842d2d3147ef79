import ModelGateway.StringTreeEdits

/-! Insertion as an edit. -/
namespace ModelGateway.StringTree
open StringText CommonPrefix Forest Ledger Node

/-! ### Ledgers -/

variable (ledger : Ledger)

variable (tenant probe : TenantId)

@[simp] theorem Ledger.chars_add (count : Nat) : (ledger.add tenant count).chars probe =
      ledger.chars probe + if probe = tenant then count else 0 := by
  simp only [chars, add, addChars, KeyedMap.get?_insert]
  by_cases same : probe = tenant <;> simp [same]

@[simp] theorem Ledger.holds_add (count : Nat) :
    (ledger.add tenant count).holds probe = (decide (probe = tenant) || ledger.holds probe) := by
  simp [holds, add, addChars]

variable (tenant : TenantId)

@[simp] theorem Ledger.nextId_add (count : Nat) : (ledger.add tenant count).nextId = ledger.nextId := rfl

@[simp] theorem Ledger.chars_allocate : ledger.allocate.chars tenant = ledger.chars tenant := rfl

@[simp] theorem Ledger.holds_allocate : ledger.allocate.holds tenant = ledger.holds tenant := rfl

@[simp] theorem Node.carries_credit (epoch : Nat) (node : Node) :
    (node.credit tenant epoch).carries probe = (decide (probe = tenant) || node.carries probe) := by
  simp [carries, credit]

@[simp] theorem Node.carries_release (node : Node) :
    (node.release tenant).carries probe = (!decide (probe = tenant) && node.carries probe) := by
  simp [carries, release]

/-! ### Crediting -/

namespace Credited

variable {tenants : TenantId → Prop} {node : Node} {ledger : Ledger} {tenant : TenantId}

theorem refl : Credited tenants node node ledger ledger :=
  ⟨rfl, rfl, rfl, fun _ carried => carried, fun _ => .inl, fun _ => .inl, rfl, .refl⟩

theorem trans {node₁ node₂ : Node} {ledger₁ ledger₂ : Ledger} (first : Credited tenants node node₁ ledger ledger₁)
    (second : Credited tenants node₁ node₂ ledger₁ ledger₂) :
    Credited tenants node node₂ ledger ledger₂ where
  id := second.id.trans first.id
  text := second.text.trans first.text
  parent := second.parent.trans first.parent
  grows tenant carried := second.grows tenant (first.grows tenant carried)
  only tenant carried := (second.only tenant carried).elim (first.only tenant) .inr
  holds tenant carried := (second.holds tenant carried).elim
    (fun carried => (first.holds tenant carried).imp_right (second.counted.keeps tenant)) .inr
  next := second.next.trans first.next
  counted := first.counted.trans second.counted

theorem of_carried (carried : node.carries tenant = true) (epoch : Nat) :
    Credited tenants node (node.credit tenant epoch) ledger ledger := by
  have same : ∀ probe, (node.credit tenant epoch).carries probe = node.carries probe := by
    intro probe
    rw [carries_credit]
    by_cases equal : probe = tenant <;> simp [equal, carried]
  refine ⟨rfl, rfl, rfl, fun probe held => by rwa [same], fun probe held => .inl (by rwa [← same]),
    fun probe held => .inl (by rwa [← same]), rfl, ?_⟩
  have still : Counted tenants ledger ledger (fun _ => 0) fun _ => 0 := .refl
  refine still.shift fun probe => ?_
  simp only [chars, same]
  rfl

/-- A new tenant is credited and counted. -/
theorem of_new (fresh : node.carries tenant = false) (allowed : tenants tenant) (epoch : Nat) {count : Nat}
    (length : node.text.charCount = count) :
    Credited tenants node (node.credit tenant epoch) ledger (ledger.add tenant count) := by
  refine ⟨rfl, rfl, rfl, fun probe held => ?_, fun probe held => ?_, fun probe held => ?_, rfl,
    ⟨fun probe => ?_, fun probe held => ?_, fun probe held => ?_⟩⟩
  · simp [held]
  · simp only [carries_credit, Bool.or_eq_true, decide_eq_true_eq] at held
    rcases held with rfl | held
    · exact .inr allowed
    · exact .inl held
  · simp only [carries_credit, Bool.or_eq_true, decide_eq_true_eq] at held
    rcases held with rfl | held
    · exact .inr (by simp)
    · exact .inl held
  · have text : (node.credit tenant epoch).text.charCount = count := length
    simp only [chars_add, chars, carries_credit, text, length]
    by_cases same : probe = tenant
    · subst same
      simp [fresh]
    · simp [same]
  · simp [held]
  · simp only [holds_add, Bool.or_eq_true, decide_eq_true_eq] at held
    rcases held with rfl | held
    · exact .inr allowed
    · exact .inl held

end Credited

variable {count : Nat} {tidy : Prop} {below : Children} {key : Char} {node : Node} {lowerKey : Char}

theorem attachTenant_credited (node : Node) (ledger : Ledger) (length : node.text.charCount = count) :
    Credited (· = tenant) node (attachTenant tenant count node ledger).1 ledger
        (attachTenant tenant count node ledger).2 ∧
      (attachTenant tenant count node ledger).1.carries tenant = true := by
  rw [attachTenant]
  split
  · exact ⟨.refl, ‹_›⟩
  · rename_i fresh
    refine ⟨?_, by simp⟩
    exact Credited.of_new (Bool.eq_false_iff.mpr fresh) (by exact rfl) 0 length

theorem Edit.through {tenants inner : TenantId → Prop} (parent : Nat) {children below' : Children}
    {node₁ node₂ : Node} {ledger ledger₁ ledger₂ ledger₃ : Ledger}
    (found : children.find? key = some (node, below))
    (credited : Credited tenants node node₁ ledger ledger₁)
    (narrower : ∀ tenant, inner tenant → tenants tenant)
    (leads : tidy → ∀ tenant, inner tenant → node₁.carries tenant = true) {id : Nat} (named : node₁.id = id)
    (edit : Edit tidy inner id below ledger₁ below' ledger₂)
    (touched : Credited tenants node₁ node₂ ledger₂ ledger₃) :
    Edit tidy tenants parent children ledger (children.put key node₂ below') ledger₃ := by
  subst named
  have first : Edit tidy tenants parent children ledger (children.put key node₁ below) ledger₁ :=
    .credit found credited
  have second := first.trans (.descend (find?_put_self ..) narrower leads edit)
  have third := second.trans (.credit (find?_put_self ..) touched)
  simpa only [put_put] using third

/-! ### Insertion -/

theorem splitAtChar_inside {text : NodeText} (pos : 0 < count) (inside : count < text.charCount) :
    text.splitAtChar count = (⟨text.text.take count, count⟩, ⟨text.text.drop count, text.charCount - count⟩) := by
  rw [NodeText.splitAtChar, if_neg (by omega), if_neg (by omega)]

theorem parted_of_split {above : Node} (fresh : Nat) (linked : Linked above key node) (pos : 0 < count)
    (inside : count < node.text.charCount)
    (second : (node.text.splitAtChar count).2.firstChar = some lowerKey) :
    Parted above.id key lowerKey node
      ⟨fresh, (node.text.splitAtChar count).1, node.tenantLastAccessTime, some above.id, node.lastTenant⟩
      { node with text := (node.text.splitAtChar count).2, parent := some fresh } fresh := by
  obtain ⟨starts, length, -⟩ := linked
  rw [splitAtChar_inside pos inside] at second ⊢
  refine ⟨rfl, rfl, ?_, ?_, rfl, rfl, second, ?_, fun _ => rfl, fun _ => rfl, ?_⟩
  · cases text : node.text.text with
    | nil => simp [text] at starts
    | cons head tail =>
      rw [text] at starts
      obtain ⟨count, rfl⟩ := Nat.exists_eq_succ_of_ne_zero (by omega : count ≠ 0)
      simpa using starts
  · simp only [List.length_take]
    omega
  · simp only [List.length_drop]
    omega
  · simp only
    omega

theorem Parted.linked {parent fresh : Nat} {upper lower : Node}
    (parted : Parted parent key lowerKey node upper lower fresh) (hangs : Hangs Linked node below) :
    Hangs Linked upper (.cons lowerKey lower below .nil) := by
  refine hangs_cons.mpr ⟨⟨parted.lowerFirst, parted.lowerCount, ?_⟩, hangs.rehang fun key node fit => ?_, hangs_nil⟩
  · rw [parted.lowerParent, parted.upperId]
  · rwa [Linked, parted.lowerId]

/-- A new leaf for a text and a tenant. -/
theorem grown_leaf {tenant : TenantId} (epoch : Nat) (first : Char) (rest : List Char)
    (parent : Nat) (ledger : Ledger) :
    Grown tidy (· = tenant) parent
      (.cons first ⟨ledger.nextId, .new (first :: rest), (∅ : KeyedMap TenantId Nat).insert tenant epoch,
        some parent, some tenant⟩ .nil .nil)
      ledger (ledger.add tenant (first :: rest).length).allocate := by
  have carries : ∀ probe, (Node.mk ledger.nextId (.new (first :: rest))
      ((∅ : KeyedMap TenantId Nat).insert tenant epoch) (some parent) (some tenant)).carries probe =
        decide (probe = tenant) := by
    intro probe
    simp [Node.carries]
  constructor
  · rintro above rfl
    exact hangs_cons.mpr ⟨⟨rfl, rfl, rfl⟩, hangs_nil, hangs_nil⟩
  · exact ⟨rfl, trivial, trivial⟩
  · intro above
    refine hangs_cons.mpr ⟨fun probe carried => ?_, hangs_nil, hangs_nil⟩
    simpa only [carries, decide_eq_true_eq] using carried
  · intro _ above lead
    refine hangs_cons.mpr ⟨⟨⟨tenant, by simp [carries]⟩, fun probe carried => ?_⟩, hangs_nil, hangs_nil⟩
    exact lead probe (by simpa only [carries, decide_eq_true_eq] using carried)
  · simp
  · intro id
    have next : (ledger.add tenant (first :: rest).length).allocate.nextId = ledger.nextId + 1 := rfl
    rw [idCount, total, mark_hasId_eq_window, next]
    rfl
  · refine ⟨fun probe => ?_, fun probe held => by simp [held], fun probe held => ?_⟩
    · simp only [total, chars, carries, decide_eq_true_eq, chars_allocate, chars_add]
      rfl
    · simpa [or_comm] using held

/-- The loop of `insert_text` edits the children for its tenant, and writes at most a
timestamp of that tenant to the node it starts from. -/
theorem insertLoop_edit (tidy : Prop) (tenant : TenantId) (epoch : Nat) :
    ∀ fuel prev children remaining ledger, Hangs Linked prev children → prev.carries tenant = true →
      Edit tidy (· = tenant) prev.id children ledger (insertLoop tenant epoch fuel prev children remaining ledger).2.1
          (insertLoop tenant epoch fuel prev children remaining ledger).2.2 ∧
        ∀ ledger', Credited (· = tenant) prev
          (insertLoop tenant epoch fuel prev children remaining ledger).1 ledger' ledger' := by
  intro fuel
  induction fuel with
  | zero => exact fun _ _ _ _ _ _ => ⟨.refl, fun _ => .refl⟩
  | succ fuel ih =>
    intro prev children remaining ledger linked carried
    cases remaining with
    | nil => exact ⟨.refl, fun _ => .of_carried carried epoch⟩
    | cons first rest =>
      rw [insertLoop]
      cases found : children.find? first with
      | none => exact ⟨.graft found (grown_leaf epoch first rest prev.id ledger), fun _ => .refl⟩
      | some held =>
        obtain ⟨matched, below⟩ := held
        obtain ⟨fit, hangsBelow⟩ := linked.find? found
        have pos : 0 < sharedPrefixCount (first :: rest) matched.text.text := by
          rw [sharedPrefixCount_eq]
          exact commonPrefix_pos rfl fit.1
        simp only
        generalize sharedPrefixCount (first :: rest) matched.text.text = shared at pos ⊢
        split
        · rename_i short
          cases second : (matched.text.splitAtChar shared).2.firstChar with
          | none => exact ⟨.refl, fun _ => .refl⟩
          | some firstNew =>
            have parted := parted_of_split ledger.nextId fit pos short second
            have length : (matched.text.splitAtChar shared).1.charCount = shared := by
              rw [splitAtChar_inside pos short]
            obtain ⟨credited, carries⟩ := attachTenant_credited tenant
              ⟨ledger.nextId, (matched.text.splitAtChar shared).1, matched.tenantLastAccessTime,
                some prev.id, matched.lastTenant⟩ ledger.allocate length
            obtain ⟨edit, touched⟩ := ih _ _ (advanceByChars (first :: rest) shared) _
              ((parted.linked hangsBelow).rehang fun key node fit => by rwa [Linked, credited.id]) carries
            have parting : Edit tidy (· = tenant) prev.id children ledger _ _ := .split found parted
            refine ⟨parting.trans ?_, fun _ => .refl⟩
            have inner := Edit.through prev.id (find?_put_self children first _ _) credited
              (fun _ => id) (fun _ probe same => same ▸ carries) rfl edit (touched _)
            rw [put_put] at inner
            exact inner
        · obtain ⟨credited, carries⟩ := attachTenant_credited tenant matched ledger rfl
          obtain ⟨edit, touched⟩ := ih _ below (advanceByChars (first :: rest) shared) _
            (hangsBelow.rehang fun key node fit => by rwa [Linked, credited.id]) carries
          exact ⟨.through _ found credited (fun _ => id) (fun _ probe same => same ▸ carries) rfl edit
            (touched _), fun _ => .refl⟩

end ModelGateway.StringTree
