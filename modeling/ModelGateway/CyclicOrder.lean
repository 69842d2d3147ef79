import Mathlib.Data.List.Sort

/-! Lists kept in the order of a key and read cyclically from a point on. -/
namespace ModelGateway.CyclicOrder
open List

variable {α κ : Type} [LinearOrder κ] (key : α → κ)

/-- The entries in the order of their keys. -/
def inOrder (entries : List α) : List α :=
  entries.insertionSort fun first second => key first ≤ key second

/-- The first position whose entry is not before the point, as a binary search finds it. -/
def partitionPoint (point : κ) (entries : List α) : Nat :=
  (entries.takeWhile fun entry => key entry < point).length

/-- The entries from the point on, followed by those before it. -/
def walk (point : κ) (entries : List α) : List α :=
  entries.filter (fun entry => point ≤ key entry) ++ entries.filter (fun entry => key entry < point)

/-- Entries that share a key are equal. -/
def Separates (entries : List α) : Prop :=
  ∀ first ∈ entries, ∀ second ∈ entries, key first = key second → first = second

variable {key}

variable {entries : List α} {entry : α} {point : κ}

omit [LinearOrder κ] in
theorem Separates.mono {fewer : List α} (separates : Separates key entries) (subset : fewer ⊆ entries) :
    Separates key fewer :=
  fun first mem second memberToo => separates first (subset mem) second (subset memberToo)

theorem perm_inOrder (entries : List α) : (inOrder key entries).Perm entries := perm_insertionSort _ _

theorem mem_inOrder : entry ∈ inOrder key entries ↔ entry ∈ entries := (perm_inOrder entries).mem_iff

theorem pairwise_inOrder (entries : List α) :
    (inOrder key entries).Pairwise fun first second => key first ≤ key second := by
  have : Std.Total fun first second => key first ≤ key second :=
    ⟨fun first second => le_total (key first) (key second)⟩
  have : IsTrans α fun first second => key first ≤ key second := ⟨fun _ _ _ pre post => le_trans pre post⟩
  exact pairwise_insertionSort _ _

theorem inOrder_unique {arranged : List α} (separates : Separates key entries)
    (perm : arranged.Perm entries) (ordered : arranged.Pairwise fun first second => key first ≤ key second) :
    arranged = inOrder key entries := by
  apply Perm.eq_of_pairwise _ ordered (pairwise_inOrder entries) (perm.trans (perm_inOrder entries).symm)
  intro first second mem memberToo pre post
  exact separates first (perm.subset mem) second (mem_inOrder.mp memberToo) (le_antisymm pre post)

theorem filter_inOrder (separates : Separates key entries) (p : α → Bool) :
    (inOrder key entries).filter p = inOrder key (entries.filter p) := by
  apply inOrder_unique (separates.mono filter_sublist.subset)
  · exact (perm_inOrder entries).filter p
  · exact (pairwise_inOrder entries).filter p

theorem mem_walk : entry ∈ walk key point entries ↔ entry ∈ entries := by
  simp only [walk, mem_append, mem_filter, decide_eq_true_eq, ← and_or_left, le_or_gt, and_true]

theorem filter_walk (point : κ) (entries : List α) (p : α → Bool) :
    (walk key point entries).filter p = walk key point (entries.filter p) := by
  simp only [walk, filter_append, filter_filter, Bool.and_comm]

/-- In an ordered list the entries before the point are the ones in front. -/
theorem takeWhile_eq_filter (point : κ) (ordered : entries.Pairwise fun first second => key first ≤ key second) :
    entries.takeWhile (fun entry => key entry < point) = entries.filter (fun entry => key entry < point) ∧
      entries.dropWhile (fun entry => key entry < point) = entries.filter (fun entry => point ≤ key entry) := by
  induction entries with
  | nil => exact ⟨rfl, rfl⟩
  | cons entry rest ih =>
    obtain ⟨first, later⟩ := pairwise_cons.mp ordered
    obtain ⟨front, back⟩ := ih later
    by_cases pre : key entry < point
    · simp only [takeWhile_cons, dropWhile_cons, filter_cons, pre, front, back,
        decide_true, if_true, not_le.mpr pre, decide_false, Bool.false_eq_true, if_false,
        and_self]
    · -- nothing behind an entry at or after the point is before it
      have post : point ≤ key entry := not_lt.mp pre
      have none_before : rest.filter (fun entry => key entry < point) = [] := by
        apply filter_eq_nil_iff.mpr
        intro other mem
        simpa using post.trans (first other mem)
      have all_after : rest.filter (fun entry => point ≤ key entry) = rest := by
        apply filter_eq_self.mpr
        intro other mem
        simpa using post.trans (first other mem)
      simp only [takeWhile_cons, dropWhile_cons, filter_cons, pre, post,
        none_before, all_after, decide_true, if_true, decide_false, Bool.false_eq_true, if_false,
        and_self]

theorem rotate_partitionPoint (ordered : entries.Pairwise fun first second => key first ≤ key second) :
    entries.drop (partitionPoint key point entries) ++
        entries.take (partitionPoint key point entries) = walk key point entries := by
  obtain ⟨front, back⟩ := takeWhile_eq_filter point ordered
  unfold walk
  rw [← front, ← back]
  have split := takeWhile_append_dropWhile (p := fun entry => decide (key entry < point)) (l := entries)
  have dropped := congrArg (drop (partitionPoint key point entries)) split
  have taken := congrArg (take (partitionPoint key point entries)) split
  unfold partitionPoint at dropped taken ⊢
  rw [drop_left] at dropped
  rw [take_left] at taken
  rw [← dropped, ← taken]

end ModelGateway.CyclicOrder
