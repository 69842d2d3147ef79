import Mathlib.Data.List.Basic
import Mathlib.Logic.Relation

/-! Depth-first search for a back edge of a directed graph, with the nodes visited so far and the nodes
on the path that is being followed.  A search that finds none proves the node it started from
accessible: every path from it ends. -/
namespace ModelGateway.DepthFirst
open List Relation

/-- What a search has seen: the nodes it entered, and those of them it has not left. -/
structure Marks (α : Type) where
  visited : List α := []
  path : List α := []
  deriving DecidableEq, Repr

variable {α : Type} {next : α → List α} {step : α → Marks α → Option (Bool × Marks α)}

/-- Every path from the node ends. -/
def Grounded (next : α → List α) (node : α) : Prop := Acc (fun post pre => post ∈ next pre) node

/-- The nodes that were left are grounded. -/
def Settled (next : α → List α) (marks : Marks α) : Prop :=
  ∀ node ∈ marks.visited, node ∉ marks.path → Grounded next node

theorem Settled.start : Settled next {} := forall_mem_nil _

/-- What a search that finds nothing leaves behind. -/
structure Passed (next : α → List α) (pre post : Marks α) : Prop where
  path : post.path = pre.path
  visited : pre.visited ⊆ post.visited
  settled : Settled next pre → Settled next post

theorem Passed.refl (marks : Marks α) : Passed next marks marks :=
  ⟨rfl, fun _ mem => mem, fun settled => settled⟩

theorem Passed.trans {first second third : Marks α} (earlier : Passed next first second)
    (later : Passed next second third) : Passed next first third :=
  ⟨later.path.trans earlier.path, fun _ mem => later.visited (earlier.visited mem),
    fun settled => later.settled (earlier.settled settled)⟩

/-- Search from each node of a list, up to the first back edge. -/
def searchAll (search : α → Marks α → Option (Bool × Marks α)) :
    List α → Marks α → Option (Bool × Marks α)
  | [], marks => some (false, marks)
  | node :: rest, marks =>
    match search node marks with
    | some (false, marks) => searchAll search rest marks
    | stopped => stopped

theorem searchAll_passed (single : ∀ node pre post, step node pre = some (false, post) →
      Passed next pre post ∧ (Settled next pre → Grounded next node)) :
    ∀ (nodes : List α) {pre post : Marks α}, searchAll step nodes pre = some (false, post) →
      Passed next pre post ∧ (Settled next pre → ∀ node ∈ nodes, Grounded next node)
  | [], pre, post, found => by
    obtain ⟨rfl⟩ : pre = post := by simpa [searchAll] using found
    exact ⟨.refl _, fun _ => forall_mem_nil _⟩
  | node :: rest, pre, post, found => by
    unfold searchAll at found
    split at found
    · next between here =>
      obtain ⟨passed, grounded⟩ := single node pre between here
      obtain ⟨later, others⟩ := searchAll_passed single rest found
      refine ⟨passed.trans later, fun settled => forall_mem_cons.mpr ⟨grounded settled, ?_⟩⟩
      exact others (passed.settled settled)
    · next stopped => exact absurd found (stopped post)

section
variable [DecidableEq α] {nodes : List α}

/-- Whether a back edge is found from a node, and the marks left behind; nothing when the depth does not
suffice. -/
def search (next : α → List α) : Nat → α → Marks α → Option (Bool × Marks α)
  | 0, _, _ => none
  | depth + 1, node, marks =>
    if node ∈ marks.path then some (true, marks)
    else if node ∈ marks.visited then some (false, marks)
    else
      match searchAll (search next depth) (next node) ⟨node :: marks.visited, node :: marks.path⟩ with
      | some (false, marks) => some (false, { marks with path := marks.path.filter (· ≠ node) })
      | stopped => stopped

/-! ### A search without a back edge -/

/-- A search that finds no back edge shows its node grounded. -/
theorem search_passed : ∀ (depth : Nat) (node : α) (pre post : Marks α),
      search next depth node pre = some (false, post) →
      Passed next pre post ∧ (Settled next pre → Grounded next node)
  | 0, _, _, _, found => by cases found
  | depth + 1, node, pre, post, found => by
    unfold search at found
    split at found
    · cases found
    · next off =>
      split at found
      · next visited =>
        obtain ⟨rfl⟩ : pre = post := by simpa using found
        exact ⟨.refl _, fun settled => settled node visited off⟩
      · split at found
        · next between inner =>
          obtain ⟨rfl⟩ : { between with path := between.path.filter (· ≠ node) } = post := by
            simpa using found
          obtain ⟨passed, successors⟩ := searchAll_passed (search_passed depth) (next node) inner
          have restored : between.path.filter (· ≠ node) = pre.path := by
            rw [passed.path, filter_cons_of_neg (by simp)]
            exact filter_eq_self.mpr fun other mem => by
              simpa using fun same : other = node => off (same ▸ mem)
          -- while the node is on the path it is not required to be grounded yet
          have entered : Settled next pre → Settled next ⟨node :: pre.visited, node :: pre.path⟩ := by
            intro settled other visited outside
            rcases mem_cons.mp visited with rfl | visited
            · exact absurd mem_cons_self outside
            · exact settled other visited fun mem => outside (mem_cons_of_mem _ mem)
          have grounded : Settled next pre → Grounded next node := fun settled =>
            Acc.intro node fun successor mem => successors (entered settled) successor mem
          refine ⟨⟨restored, fun _ mem => passed.visited (mem_cons_of_mem _ mem), ?_⟩, grounded⟩
          intro settled other visited outside
          by_cases same : other = node
          · exact same ▸ grounded settled
          · apply passed.settled (entered settled) other visited
            intro mem
            apply outside
            exact mem_filter.mpr ⟨mem, by simpa using same⟩
        · next stopped => exact absurd found (stopped post)

/-! ### A back edge -/

omit [DecidableEq α] in
theorem searchAll_found {path : List α} {fact : Prop}
    (single : ∀ node ∈ nodes, ∀ pre post, pre.path = path → step node pre = some (true, post) → fact)
    (kept : ∀ node pre post, step node pre = some (false, post) → post.path = pre.path)
    {pre post : Marks α} (start : pre.path = path) (found : searchAll step nodes pre = some (true, post)) :
    fact := by
  induction nodes generalizing pre with
  | nil => cases found
  | cons node rest ih =>
    rw [forall_mem_cons] at single
    unfold searchAll at found
    split at found
    · next between here => exact ih single.2 ((kept _ _ _ here).trans start) found
    · exact single.1 pre post start found

theorem search_found : ∀ (depth : Nat) (node : α) (pre post : Marks α),
      (∀ upper ∈ pre.path, TransGen (fun upper lower => lower ∈ next upper) upper node) →
      search next depth node pre = some (true, post) →
      ∃ node, TransGen (fun upper lower => lower ∈ next upper) node node
  | 0, _, _, _, _, found => by cases found
  | depth + 1, node, pre, post, leads, found => by
    unfold search at found
    split at found
    · next on => exact ⟨node, leads node on⟩
    · split at found
      · cases found
      · split at found
        · cases found
        · refine searchAll_found (fun successor mem marks _ path inner => ?_)
            (fun other marks _ passed => (search_passed depth other marks _ passed).1.path) rfl found
          refine search_found depth successor marks _ (fun upper inside => ?_) inner
          rw [path] at inside
          rcases mem_cons.mp inside with rfl | inside
          · exact .single mem
          · exact (leads upper inside).tail mem

omit [DecidableEq α] in
theorem Grounded.no_cycle {node : α} (grounded : Grounded next node) :
    ¬ TransGen (fun upper lower => lower ∈ next upper) node node := by
  induction Acc.transGen grounded with
  | intro node _ ih => exact fun cycle => ih node (transGen_swap.mpr cycle) grounded cycle

/-! ### Enough depth -/

/-- The nodes of a finite graph that were not entered. -/
def unvisited (nodes : List α) (marks : Marks α) : Nat :=
  nodes.countP fun node => decide (node ∉ marks.visited)

theorem unvisited_mono (nodes : List α) {pre post : Marks α}
    (grown : pre.visited ⊆ post.visited) : unvisited nodes post ≤ unvisited nodes pre := by
  apply countP_mono_left
  intro node _ outside
  rw [decide_eq_true_eq] at outside ⊢
  exact fun visited => outside (grown visited)

theorem unvisited_enter {node : α} {marks : Marks α} (mem : node ∈ nodes)
    (new : node ∉ marks.visited) (path : List α) :
    unvisited nodes ⟨node :: marks.visited, path⟩ < unvisited nodes marks := by
  unfold unvisited
  dsimp only
  induction nodes with
  | nil => cases mem
  | cons first rest ih =>
    have fewer : rest.countP (fun other => decide (other ∉ node :: marks.visited)) ≤
        rest.countP (fun other => decide (other ∉ marks.visited)) :=
      @unvisited_mono _ _ rest marks ⟨node :: marks.visited, path⟩ fun _ held => mem_cons_of_mem _ held
    by_cases same : first = node
    · subst same
      rw [countP_cons_of_neg (by simp), countP_cons_of_pos (by simpa using new)]
      omega
    · have inner := ih ((mem_cons.mp mem).resolve_left fun same' => same same'.symm)
      rw [countP_cons, countP_cons]
      have agree : decide (first ∉ node :: marks.visited) = decide (first ∉ marks.visited) := by
        simp [same]
      rw [agree]
      omega

theorem searchAll_isSome {depth : Nat} (grows : ∀ node pre post, step node pre = some (false,
      post) → pre.visited ⊆ post.visited)
    (defined : ∀ node ∈ nodes, ∀ marks, unvisited nodes marks < depth → (step node marks).isSome) :
    ∀ (list : List α) {marks : Marks α}, list ⊆ nodes → unvisited nodes marks < depth →
      (searchAll step list marks).isSome
  | [], _, _, _ => rfl
  | node :: rest, marks, inside, enough => by
    have here := defined node (inside mem_cons_self) marks enough
    unfold searchAll
    split
    · next post found =>
      apply searchAll_isSome grows defined rest
      · exact fun _ mem => inside (mem_cons_of_mem _ mem)
      · exact Nat.lt_of_le_of_lt (unvisited_mono nodes (grows node marks post found)) enough
    · exact here

theorem search_isSome (closed : ∀ node, next node ⊆ nodes) :
    ∀ (depth : Nat) (node : α), node ∈ nodes → ∀ (marks : Marks α), unvisited nodes marks < depth →
      (search next depth node marks).isSome
  | 0, _, _, _, enough => absurd enough (Nat.not_lt_zero _)
  | depth + 1, node, mem, marks, enough => by
    unfold search
    split
    · rfl
    · split
      · rfl
      · next new =>
        have inner := searchAll_isSome
          (fun node pre post found => (search_passed depth node pre post found).1.visited)
          (search_isSome closed depth) (next node) (closed node)
          (Nat.lt_of_lt_of_le (unvisited_enter mem new (node :: marks.path)) (Nat.le_of_lt_succ enough))
        split
        · rfl
        · exact inner

end
end ModelGateway.DepthFirst
