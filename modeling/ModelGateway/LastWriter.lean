import Mathlib.Data.List.MinMax

/-! Last-writer-wins views. Writes carry a key and a stamp from a linear order;
the view of a collection of writes is decided, key by key, by the write with the
greatest stamp. A collection may forget dominated writes without changing its
view, and two collections with the same members have the same view. -/
namespace ModelGateway.LastWriter
open List

variable {α κ σ : Type} [LinearOrder σ] (key : α → κ) (stamp : α → σ)

/-- `write` is a write to `target` that no other write to it outranks. -/
def Greatest (writes : List α) (target : κ) (write : α) : Prop :=
  write ∈ writes ∧ key write = target ∧ ∀ other ∈ writes, key other = target → stamp other ≤ stamp write

/-- A stamp names at most one write of the collection. -/
def StampsIdentify (writes : List α) : Prop :=
  ∀ first ∈ writes, ∀ second ∈ writes, stamp first = stamp second → first = second

/-- `kept` forgets only writes that a kept write to the same key outranks. -/
def Covers (kept writes : List α) : Prop :=
  (∀ write ∈ kept, write ∈ writes) ∧ ∀ write ∈ writes, ∃ held ∈ kept, key held = key write ∧ stamp write ≤ stamp held

variable {key stamp} {writes kept rest : List α} {target : κ} {write first second : α}

theorem Greatest.keep (top : Greatest key stamp writes target write)
    (below : key first = target → stamp first ≤ stamp write) :
    Greatest key stamp (writes ++ [first]) target write :=
  ⟨mem_append_left _ top.1, top.2.1, forall_mem_append.mpr ⟨top.2.2, forall_mem_singleton.mpr below⟩⟩

theorem greatest_last (above : ∀ other ∈ writes, key other = key write → stamp other ≤ stamp write) :
    Greatest key stamp (writes ++ [write]) (key write) write :=
  ⟨mem_append_right _ mem_cons_self, rfl, forall_mem_append.mpr ⟨above, forall_mem_singleton.mpr fun _ => le_rfl⟩⟩

theorem greatest_unique (identify : StampsIdentify stamp writes) (left : Greatest key stamp writes target first)
    (right : Greatest key stamp writes target second) : first = second :=
  identify first left.1 second right.1
    (le_antisymm (right.2.2 first left.1 left.2.1) (left.2.2 second right.1 right.2.1))

theorem greatest_exists (mem : write ∈ writes) (named : key write = target) :
    ∃ winner, Greatest key stamp writes target winner := by
  classical
  have inside : write ∈ writes.filter (fun other => key other = target) :=
    mem_filter.mpr ⟨mem, by simpa using named⟩
  cases top : (writes.filter (fun other => key other = target)).argmax stamp with
  | none =>
    rw [argmax_eq_none] at top
    simp [top] at inside
  | some winner =>
    obtain ⟨held, keyed⟩ := mem_filter.mp (argmax_mem top)
    refine ⟨winner, held, by simpa using keyed, ?_⟩
    intro other otherMember otherNamed
    exact le_of_mem_argmax (mem_filter.mpr ⟨otherMember, by simpa using otherNamed⟩) top

theorem Covers.refl (writes : List α) : Covers key stamp writes writes :=
  ⟨fun _ mem => mem, fun write mem => ⟨write, mem, rfl, le_rfl⟩⟩

theorem Covers.trans (outer : Covers key stamp kept writes) (inner : Covers key stamp writes rest) :
    Covers key stamp kept rest := by
  refine ⟨fun write mem => inner.1 write (outer.1 write mem), ?_⟩
  intro write mem
  obtain ⟨middle, middleHeld, middleKey, below⟩ := inner.2 write mem
  obtain ⟨held, heldMember, heldKey, above⟩ := outer.2 middle middleHeld
  exact ⟨held, heldMember, heldKey.trans middleKey, below.trans above⟩

theorem Covers.append (covers : Covers key stamp kept writes) (added : List α) :
    Covers key stamp (kept ++ added) (writes ++ added) := by
  constructor
  · intro write mem
    rcases mem_append.mp mem with old | new
    · exact mem_append_left _ (covers.1 write old)
    · exact mem_append_right _ new
  · intro write mem
    rcases mem_append.mp mem with old | new
    · obtain ⟨held, heldMember, named, above⟩ := covers.2 write old
      exact ⟨held, mem_append_left _ heldMember, named, above⟩
    · exact ⟨write, mem_append_right _ new, rfl, le_rfl⟩

theorem Covers.recollect {added : List α} (covers : Covers key stamp kept (writes ++ added)) :
    Covers key stamp kept (writes ++ kept) := by
  refine ⟨fun write mem => mem_append_right _ mem, fun write mem => ?_⟩
  rcases mem_append.mp mem with old | held
  · exact covers.2 write (mem_append_left _ old)
  · exact ⟨write, held, rfl, le_rfl⟩

theorem Covers.greatest (covers : Covers key stamp kept writes)
    (top : Greatest key stamp kept target write) : Greatest key stamp writes target write := by
  refine ⟨covers.1 write top.1, top.2.1, ?_⟩
  intro other mem named
  obtain ⟨held, heldMember, heldKey, below⟩ := covers.2 other mem
  exact below.trans (top.2.2 held heldMember (heldKey.trans named))

theorem Covers.greatest_iff (covers : Covers key stamp kept writes) (identify : StampsIdentify stamp writes) :
    Greatest key stamp kept target write ↔ Greatest key stamp writes target write := by
  refine ⟨covers.greatest, fun top => ?_⟩
  obtain ⟨held, heldMember, heldKey, -⟩ := covers.2 write top.1
  obtain ⟨winner, best⟩ : ∃ winner, Greatest key stamp kept target winner :=
    greatest_exists heldMember (heldKey.trans top.2.1)
  rwa [greatest_unique identify top (covers.greatest best)]

theorem greatest_congr (same : ∀ write, write ∈ writes ↔ write ∈ rest) :
    Greatest key stamp writes target write ↔ Greatest key stamp rest target write := by
  simp only [Greatest, same]

end ModelGateway.LastWriter
