import Mathlib

/-! Forests of nodes that hang under keys, as the child maps of a search tree make them:
lookup, insertion and removal of a tree by its key, weights summed over all nodes, and
properties of every node together with the node it hangs under. -/
namespace ModelGateway
open List Bool

/-- Trees side by side: each hangs under `key`, and `below` hangs under its node. -/
inductive Forest (κ ν : Type) where
  | nil
  | cons (key : κ) (node : ν) (below rest : Forest κ ν)

namespace Forest
variable {κ ν μ : Type}

/-- A node of a forest with the node it hangs under and what hangs below it. -/
structure Spot (κ ν : Type) where
  above : ν
  key : κ
  node : ν
  below : Forest κ ν

/-- All nodes of a forest that hangs under `above`. -/
def spots (above : ν) : Forest κ ν → List (Spot κ ν)
  | nil => []
  | cons key node below rest => ⟨above, key, node, below⟩ :: (spots node below ++ spots above rest)

/-- Every node fits under the node it hangs under. -/
def Hangs (fits : ν → κ → ν → Prop) (above : ν) (forest : Forest κ ν) : Prop :=
  ∀ spot ∈ forest.spots above, fits spot.above spot.key spot.node

/-- The sum of a weight over all nodes. -/
def total (weight : ν → Nat) : Forest κ ν → Nat
  | nil => 0
  | cons _ node below rest => weight node + below.total weight + rest.total weight

/-- The sum of a weight over the nodes reached through entered nodes only. -/
def reached (enter : ν → Bool) (weight : ν → Nat) : Forest κ ν → Nat
  | nil => 0
  | cons _ node below rest =>
    (if enter node then weight node + below.reached enter weight else 0) + rest.reached enter weight

/-- The nodes at the top of the forest. -/
def tops : Forest κ ν → List ν
  | nil => []
  | cons _ node _ rest => node :: rest.tops

def isEmpty : Forest κ ν → Bool
  | nil => true
  | cons .. => false

/-- Rewrites every node in place. -/
def map (rewrite : ν → μ) : Forest κ ν → Forest κ μ
  | nil => nil
  | cons key node below rest => cons key (rewrite node) (below.map rewrite) (rest.map rewrite)

/-- Two forests side by side. -/
def append : Forest κ ν → Forest κ ν → Forest κ ν
  | nil, others => others
  | cons key node below rest, others => cons key node below (rest.append others)

/-! ### Every node -/

variable {fits : ν → κ → ν → Prop} {above node : ν} {key : κ} {forest rest : Forest κ ν}
  {spot : Spot κ ν} {rewrite : ν → μ} {weight weight' : ν → Nat}

theorem mem_spots_cons {below : Forest κ ν} : spot ∈ (cons key node below rest).spots above ↔
    spot = ⟨above, key, node, below⟩ ∨ spot ∈ below.spots node ∨ spot ∈ rest.spots above := by
  rw [spots, mem_cons, mem_append]

theorem forall_spots_cons {property : Spot κ ν → Prop} {below : Forest κ ν} :
    (∀ spot ∈ (cons key node below rest).spots above, property spot) ↔
      property ⟨above, key, node, below⟩ ∧ (∀ spot ∈ below.spots node, property spot) ∧
        ∀ spot ∈ rest.spots above, property spot := by
  rw [spots, forall_mem_cons, forall_mem_append]

@[simp] theorem hangs_nil : Hangs fits above nil := by
  simp [Hangs, spots]

@[simp] theorem hangs_cons {below : Forest κ ν} : Hangs fits above (cons key node below rest) ↔
      fits above key node ∧ Hangs fits node below ∧ Hangs fits above rest := forall_spots_cons

theorem Hangs.mono {fits' : ν → κ → ν → Prop} (hangs : Hangs fits above forest)
    (weaker : ∀ above key node, fits above key node → fits' above key node) :
    Hangs fits' above forest := fun spot mem => weaker _ _ _ (hangs spot mem)

theorem Hangs.rehang {above' : ν} (hangs : Hangs fits above forest)
    (weaker : ∀ key node, fits above key node → fits above' key node) : Hangs fits above' forest := by
  induction forest with
  | nil => simp
  | cons key node below rest _ ihRest =>
    rw [hangs_cons] at hangs ⊢
    exact ⟨weaker _ _ hangs.1, hangs.2.1, ihRest hangs.2.2⟩

theorem spots_map (rewrite : ν → μ) (above : ν) (forest : Forest κ ν) :
    (forest.map rewrite).spots (rewrite above) = (forest.spots above).map fun spot =>
      ⟨rewrite spot.above, spot.key, rewrite spot.node, spot.below.map rewrite⟩ := by
  induction forest generalizing above with
  | nil => rfl
  | cons key node below rest ihBelow ihRest => simp [map, spots, ihBelow, ihRest]

theorem mem_spots_map (rewrite : ν → μ) {written : Spot κ μ} :
    written ∈ (forest.map rewrite).spots (rewrite above) ↔ ∃ spot ∈ forest.spots above,
      ⟨rewrite spot.above, spot.key, rewrite spot.node, spot.below.map rewrite⟩ = written := by
  rw [spots_map, mem_map]

theorem hangs_map {fits : μ → κ → μ → Prop} (rewrite : ν → μ) (above : ν) :
    Hangs fits (rewrite above) (forest.map rewrite) ↔
      ∀ spot ∈ forest.spots above, fits (rewrite spot.above) spot.key (rewrite spot.node) := by
  simp only [Hangs, spots_map, forall_mem_map]

theorem spots_below {inner : Spot κ ν} (mem : spot ∈ forest.spots above)
    (within : inner ∈ spot.below.spots spot.node) : inner ∈ forest.spots above := by
  induction forest generalizing above with
  | nil => simp [spots] at mem
  | cons key node below rest ihBelow ihRest =>
    simp only [mem_spots_cons] at mem ⊢
    rcases mem with rfl | inBelow | inRest
    · exact .inr (.inl within)
    · exact .inr (.inl (ihBelow inBelow))
    · exact .inr (.inr (ihRest inRest))

theorem Hangs.below (hangs : Hangs fits above forest) (mem : spot ∈ forest.spots above) :
    Hangs fits spot.node spot.below :=
  fun _ within => hangs _ (spots_below mem within)

variable {below : Forest κ ν}

theorem spot_of_mem_tops (mem : node ∈ forest.tops) (above : ν) :
    ∃ key below, ⟨above, key, node, below⟩ ∈ forest.spots above := by
  induction forest with
  | nil => cases mem
  | cons held other below rest _ ihRest =>
    rcases mem_cons.mp mem with rfl | beside
    · exact ⟨_, _, mem_cons_self⟩
    · obtain ⟨key, inner, inside⟩ := ihRest beside
      exact ⟨key, inner, by simp [spots, inside]⟩

/-- One forest is another with the trees in another order, at every depth. -/
inductive Shuffled : Forest κ ν → Forest κ ν → Prop where
  | nil : Shuffled nil nil
  | cons {key node below below' rest rest'} : Shuffled below below' → Shuffled rest rest' →
    Shuffled (cons key node below rest) (cons key node below' rest')
  | swap {key node below key' node' below' rest} : Shuffled (cons key node below (cons key' node' below' rest))
      (cons key' node' below' (cons key node below rest))
  | trans {first second third} : Shuffled first second → Shuffled second third → Shuffled first third

theorem Shuffled.refl : ∀ forest : Forest κ ν, Shuffled forest forest
  | .nil => .nil
  | .cons _ _ below rest => .cons (refl below) (refl rest)

variable {copy : Forest κ ν}

theorem Shuffled.hangs (shuffled : Shuffled copy forest) : Hangs fits above copy ↔ Hangs fits above forest := by
  induction shuffled generalizing above with
  | nil => rfl
  | cons _ _ ihBelow ihRest => rw [hangs_cons, hangs_cons, ihBelow, ihRest]
  | swap =>
    simp only [hangs_cons]
    tauto
  | trans _ _ ihFirst ihSecond => exact ihFirst.trans ihSecond

theorem Shuffled.total (weight : ν → Nat) (shuffled : Shuffled copy forest) :
    copy.total weight = forest.total weight := by
  induction shuffled with
  | nil => rfl
  | cons _ _ ihBelow ihRest => rw [Forest.total, Forest.total, ihBelow, ihRest]
  | swap =>
    simp only [Forest.total]
    omega
  | trans _ _ ihFirst ihSecond => exact ihFirst.trans ihSecond

theorem exists_deepest (property : ν → Prop) (mem : spot ∈ forest.spots above)
    (holds : property spot.node) : ∃ last ∈ forest.spots above, property last.node ∧
      ∀ inner ∈ last.below.spots last.node, ¬ property inner.node := by
  induction forest generalizing above spot with
  | nil => cases mem
  | cons key node below rest ihBelow ihRest =>
    simp only [mem_spots_cons, exists_eq_or_imp] at mem ⊢
    by_cases deeper : ∃ inner ∈ below.spots node, property inner.node
    · obtain ⟨inner, inside, held⟩ := deeper
      obtain ⟨last, within, found⟩ := ihBelow inside held
      exact .inr ⟨last, .inl within, found⟩
    · rcases mem with rfl | inside | beside
      · exact .inl ⟨holds, fun inner inside held => deeper ⟨inner, inside, held⟩⟩
      · exact absurd ⟨spot, inside, holds⟩ deeper
      · obtain ⟨last, within, found⟩ := ihRest beside holds
        exact .inr ⟨last, .inr within, found⟩

theorem append_nil (forest : Forest κ ν) : forest.append nil = forest := by
  induction forest with
  | nil => rfl
  | cons key node below rest _ ihRest => rw [append, ihRest]

theorem append_assoc (first second third : Forest κ ν) :
    (first.append second).append third = first.append (second.append third) := by
  induction first with
  | nil => rfl
  | cons key node below rest _ ihRest => rw [append, append, ihRest, append]

/-! ### Weights -/

theorem total_eq_sum (above : ν) (forest : Forest κ ν) :
    forest.total weight = ((forest.spots above).map fun spot => weight spot.node).sum := by
  induction forest generalizing above with
  | nil => rfl
  | cons key node below rest ihBelow ihRest =>
    simp [total, spots, ihBelow node, ihRest above, Nat.add_assoc]

@[simp] theorem total_map (weight : μ → Nat) (forest : Forest κ ν) :
    (forest.map rewrite).total weight = forest.total (weight ∘ rewrite) := by
  induction forest with
  | nil => rfl
  | cons _ node below rest ihBelow ihRest => simp [map, total, ihBelow, ihRest]

theorem map_map {ρ : Type} (rewrite : ν → μ) (again : μ → ρ) (forest : Forest κ ν) :
    (forest.map rewrite).map again = forest.map (again ∘ rewrite) := by
  induction forest with
  | nil => rfl
  | cons key node below rest ihBelow ihRest => simp [map, ihBelow, ihRest]

theorem map_congr {rewrite' : ν → μ} (same : ∀ spot ∈ forest.spots above, rewrite spot.node = rewrite' spot.node) :
    forest.map rewrite = forest.map rewrite' := by
  induction forest generalizing above with
  | nil => rfl
  | cons key node below rest ihBelow ihRest =>
    rw [forall_spots_cons] at same
    rw [map, map, same.1, ihBelow same.2.1, ihRest same.2.2]

theorem le_total (mem : spot ∈ forest.spots above) :
    weight spot.node + spot.below.total weight ≤ forest.total weight := by
  induction forest generalizing above with
  | nil => simp [spots] at mem
  | cons key node below rest ihBelow ihRest =>
    rw [mem_spots_cons] at mem
    rw [total]
    rcases mem with rfl | inBelow | inRest
    · exact Nat.le_add_right _ _
    · have := ihBelow inBelow
      omega
    · have := ihRest inRest
      omega

theorem total_congr (same : ∀ spot ∈ forest.spots above, weight spot.node = weight' spot.node) :
    forest.total weight = forest.total weight' := by
  rw [total_eq_sum above, total_eq_sum above, map_congr_left same]

/-! ### One marked node -/

/-- The weight that counts marked nodes. -/
def mark (marked : ν → Bool) (node : ν) : Nat := if marked node then 1 else 0

variable {marked : ν → Bool} {enter enter' : ν → Bool}

theorem total_mark_eq_countP (above : ν) (forest : Forest κ ν) :
    forest.total (mark marked) = (forest.spots above).countP fun spot => marked spot.node := by
  induction forest generalizing above with
  | nil => rfl
  | cons key node below rest ihBelow ihRest =>
    simp [total, spots, mark, ihBelow node, ihRest above, countP_cons]
    omega

theorem one_le_total_mark (mem : spot ∈ forest.spots above) (hit : marked spot.node = true) :
    1 ≤ forest.total (mark marked) := by
  have heavy : mark marked spot.node = 1 := if_pos hit
  have bound : mark marked spot.node + spot.below.total (mark marked) ≤ forest.total (mark marked) := le_total mem
  omega

theorem exists_of_total_pos {weight : ν → Nat} (above : ν) (some : 0 < forest.total weight) :
    ∃ spot ∈ forest.spots above, 0 < weight spot.node := by
  rw [total_eq_sum above, List.sum_pos_iff_exists_pos_nat] at some
  simpa using some

theorem exists_of_total_mark (above : ν) (some : 0 < forest.total (mark marked)) :
    ∃ spot ∈ forest.spots above, marked spot.node = true := by
  obtain ⟨spot, mem, hit⟩ := exists_of_total_pos above some
  exact ⟨spot, mem, by_contra fun unmarked => Nat.ne_of_gt hit (if_neg unmarked)⟩

theorem total_mark_pos (above : ν) :
    0 < forest.total (mark marked) ↔ ∃ spot ∈ forest.spots above, marked spot.node = true :=
  ⟨exists_of_total_mark above, fun ⟨_, mem, hit⟩ => one_le_total_mark mem hit⟩

theorem single_cons {key : κ} {node : ν} (single : (cons key node below rest).total (mark marked) ≤ 1)
    (mem : spot ∈ (cons key node below rest).spots above) (hit : marked spot.node = true) :
    (spot = ⟨above, key, node, below⟩ ∧ below.total (mark marked) = 0 ∧ rest.total (mark marked) = 0) ∨
      (spot ∈ below.spots node ∧ marked node = false ∧ below.total (mark marked) ≤ 1 ∧ rest.total (mark marked) = 0) ∨
      (spot ∈ rest.spots above ∧ marked node = false ∧ below.total (mark marked) = 0 ∧
        rest.total (mark marked) ≤ 1) := by
  have heavy : marked node = true → mark marked node = 1 := fun marks => if_pos marks
  rw [total] at single
  rw [mem_spots_cons] at mem
  rcases mem with rfl | inBelow | inRest
  · have := heavy hit
    exact .inl ⟨rfl, by omega, by omega⟩
  · have := one_le_total_mark inBelow hit
    have unmarked : marked node = false := eq_false_iff.mpr fun marks => by
      have := heavy marks
      omega
    exact .inr (.inl ⟨inBelow, unmarked, by omega, by omega⟩)
  · have := one_le_total_mark inRest hit
    have unmarked : marked node = false := eq_false_iff.mpr fun marks => by
      have := heavy marks
      omega
    exact .inr (.inr ⟨inRest, unmarked, by omega, by omega⟩)

theorem reached_congr (same : ∀ spot ∈ forest.spots above, enter' spot.node = enter spot.node) :
    forest.reached enter' weight = forest.reached enter weight := by
  induction forest generalizing above with
  | nil => rfl
  | cons key node below rest ihBelow ihRest =>
    rw [forall_spots_cons] at same
    rw [reached, reached, same.1, ihBelow same.2.1, ihRest same.2.2]

theorem reached_idle (idle : ∀ node ∈ forest.tops, enter node = false) : forest.reached enter weight = 0 := by
  induction forest with
  | nil => rfl
  | cons key node below rest _ ihRest =>
    simp only [tops, mem_cons, or_imp, forall_and, forall_eq] at idle
    rw [reached, idle.1, ihRest idle.2]
    rfl

section
variable (single : forest.total (mark marked) ≤ 1) (mem : spot ∈ forest.spots above)
  (hit : marked spot.node = true)
include single mem hit

theorem spots_single : ∃ pre post, forest.spots above = pre ++ spot :: post ∧
    ∀ other ∈ pre ++ post, marked other.node = false := by
  obtain ⟨pre, post, split⟩ := append_of_mem mem
  refine ⟨pre, post, split, fun other inside => eq_false_iff.mpr fun marks => ?_⟩
  have heavy : 0 < ((pre ++ post).map fun spot => mark marked spot.node).sum :=
    List.sum_pos_iff_exists_pos_nat.mpr ⟨1, mem_map.mpr ⟨other, inside, if_pos marks⟩, Nat.one_pos⟩
  rw [total_eq_sum above, split] at single
  simp only [map_append, map_cons, sum_append, sum_cons, mark, hit, if_true] at single heavy
  omega

theorem spot_unique {other : Spot κ ν} (member' : other ∈ forest.spots above)
    (hit' : marked other.node = true) : other = spot := by
  obtain ⟨pre, post, split, unmarked⟩ := spots_single single mem hit
  by_contra apart
  have elsewhere : other ∈ pre ++ post := by simpa [split, apart] using member'
  rw [unmarked other elsewhere] at hit'
  cases hit'

theorem total_change (weight weight' : ν → Nat) (same : ∀ node, marked node = false → weight' node = weight node) :
    forest.total weight' + weight spot.node = forest.total weight + weight' spot.node := by
  obtain ⟨pre, post, split, unmarked⟩ := spots_single single mem hit
  have rest : ((pre ++ post).map fun spot => weight' spot.node) =
      (pre ++ post).map fun spot => weight spot.node :=
    map_congr_left fun other inside => same _ (unmarked other inside)
  have sums := congrArg List.sum rest
  rw [total_eq_sum above, total_eq_sum above, split]
  simp only [map_append, map_cons, sum_append, sum_cons] at sums ⊢
  omega

/-- Closing the only marked node, when nothing is entered below it, unreaches it at most. -/
theorem reached_change (same : ∀ node, marked node = false → enter' node = enter node)
    (closed : enter' spot.node = false) (idle : ∀ node ∈ spot.below.tops, enter node = false) :
    forest.reached enter' weight = forest.reached enter weight ∨
      forest.reached enter' weight + weight spot.node = forest.reached enter weight := by
  have rewritten (above : ν) {other : Forest κ ν} (none : other.total (mark marked) = 0) :
      other.reached enter' weight = other.reached enter weight :=
    reached_congr fun spot (inside : spot ∈ other.spots above) =>
      same _ (eq_false_iff.mpr fun hit => Nat.ne_of_gt (one_le_total_mark inside hit) none)
  induction forest generalizing above with
  | nil => simp [spots] at mem
  | cons key node below rest ihBelow ihRest =>
    rw [reached, reached]
    rcases single_cons single mem hit with ⟨rfl, noBelow, noRest⟩ | ⟨inBelow, clean, one, none⟩ |
      ⟨inRest, clean, none, one⟩
    · simp only at closed idle ⊢
      rw [rewritten above noRest, reached_idle idle, closed]
      cases enter node
      · exact .inl rfl
      · right
        simp [Nat.add_comm]
    · rw [rewritten above none, same node clean]
      cases enter node
      · exact .inl rfl
      · have := ihBelow one inBelow
        simp only [if_true]
        omega
    · rw [rewritten node none, same node clean]
      have := ihRest one inRest
      omega

end

theorem reached_map {rewrite : ν → μ} (enter : μ → Bool) (weight : μ → Nat) (forest : Forest κ ν) :
    (forest.map rewrite).reached enter weight = forest.reached (enter ∘ rewrite) (weight ∘ rewrite) := by
  induction forest with
  | nil => rfl
  | cons key node below rest ihBelow ihRest => simp [map, reached, ihBelow, ihRest]

theorem reached_all (weight : ν → Nat) (forest : Forest κ ν) :
    forest.reached (fun _ => true) weight = forest.total weight := by
  induction forest with
  | nil => rfl
  | cons key node below rest ihBelow ihRest => rw [reached, if_pos rfl, ihBelow, ihRest, total]

/-! ### Lookup -/

variable [DecidableEq κ]

/-- The tree under a key: its node and what hangs below. -/
def find? (key : κ) : Forest κ ν → Option (ν × Forest κ ν)
  | nil => none
  | cons held node below rest => if held = key then some (node, below) else rest.find? key

/-- Puts a tree under a key, in place of the tree that is there. -/
def put : Forest κ ν → κ → ν → Forest κ ν → Forest κ ν
  | nil, key, node, below => cons key node below nil
  | cons held old oldBelow rest, key, node, below =>
    if held = key then cons held node below rest else cons held old oldBelow (rest.put key node below)

def remove (key : κ) : Forest κ ν → Forest κ ν
  | nil => nil
  | cons held node below rest => if held = key then rest else cons held node below (rest.remove key)

/-- Removes the tree under a key from below the marked nodes. -/
def prune (marked : ν → Bool) (key : κ) : Forest κ ν → Forest κ ν
  | nil => nil
  | cons held node below rest =>
    cons held node (if marked node then (below.prune marked key).remove key else below.prune marked key)
      (rest.prune marked key)

/-- No key occurs twice side by side. -/
def Distinct : Forest κ ν → Prop
  | nil => True
  | cons key _ below rest => rest.find? key = none ∧ below.Distinct ∧ rest.Distinct

variable {probe : κ}

theorem find?_cons_eq_none {held : κ} :
    (cons held node below rest).find? key = none ↔ held ≠ key ∧ rest.find? key = none := by
  rw [find?]
  split
  · simp [*]
  · simp [*]

theorem find?_put (forest : Forest κ ν) (key probe : κ) (node : ν) (below : Forest κ ν) :
    (forest.put key node below).find? probe =
      if probe = key then some (node, below) else forest.find? probe := by
  induction forest with
  | nil => simp [put, find?, eq_comm]
  | cons held other otherBelow rest _ ihRest =>
    by_cases same : held = key
    · subst same
      by_cases probed : probe = held
      · simp [put, find?, probed]
      · simp [put, find?, probed, Ne.symm probed]
    · rw [put, if_neg same, find?, ihRest, find?]
      by_cases probed : held = probe
      · subst probed
        simp [same]
      · simp [probed]

@[simp] theorem find?_put_self (forest : Forest κ ν) (key : κ) (node : ν) (below : Forest κ ν) :
    (forest.put key node below).find? key = some (node, below) := by
  rw [find?_put, if_pos rfl]

@[simp] theorem put_put (forest : Forest κ ν) (key : κ) (node node' : ν) (below below' : Forest κ ν) :
    (forest.put key node below).put key node' below' = forest.put key node' below' := by
  induction forest with
  | nil => simp [put]
  | cons held other otherBelow rest _ ihRest =>
    by_cases same : held = key <;> simp [put, same, ihRest]

theorem find?_map (forest : Forest κ ν) (key : κ) : (forest.map rewrite).find? key =
      (forest.find? key).map fun tree => (rewrite tree.1, tree.2.map rewrite) := by
  induction forest with
  | nil => rfl
  | cons held node below rest _ ihRest =>
    by_cases same : held = key <;> simp [map, find?, same, ihRest]

theorem mem_tops_of_find? (found : forest.find? key = some (node, below)) : node ∈ forest.tops := by
  induction forest with
  | nil => cases found
  | cons held other otherBelow rest _ ihRest =>
    rw [find?] at found
    split at found
    · cases found
      exact mem_cons_self
    · exact mem_cons_of_mem _ (ihRest found)

theorem mem_spots_of_find? (above : ν) (found : forest.find? key = some (node, below)) :
    ⟨above, key, node, below⟩ ∈ forest.spots above := by
  induction forest with
  | nil => cases found
  | cons held other otherBelow rest _ ihRest =>
    rw [find?] at found
    simp only [spots, mem_cons, mem_append]
    split at found
    · rename_i same
      cases found
      exact .inl (by rw [same])
    · exact .inr (.inr (ihRest found))

theorem remove_of_vacant (vacant : forest.find? key = none) : forest.remove key = forest := by
  induction forest with
  | nil => rfl
  | cons held node below rest _ ihRest =>
    rw [find?_cons_eq_none] at vacant
    rw [remove, if_neg vacant.1, ihRest vacant.2]

theorem shuffled_put (forest : Forest κ ν) (key : κ) (node : ν) (below : Forest κ ν) :
    Shuffled (forest.put key node below) (cons key node below (forest.remove key)) := by
  induction forest with
  | nil => exact .refl _
  | cons held other otherBelow rest _ ihRest =>
    rw [put, remove]
    split
    · rename_i same
      exact same ▸ .refl _
    · exact (Shuffled.cons (.refl _) ihRest).trans .swap

theorem shuffled_found (found : forest.find? key = some (node, below)) :
    Shuffled forest (cons key node below (forest.remove key)) := by
  induction forest with
  | nil => cases found
  | cons held other otherBelow rest _ ihRest =>
    rw [find?] at found
    rw [remove]
    split at found
    · rename_i same
      cases found
      rw [if_pos same, same]
      exact .refl _
    · rename_i differs
      rw [if_neg differs]
      exact (Shuffled.cons (.refl _) (ihRest found)).trans .swap

theorem Shuffled.distinct (shuffled : Shuffled copy forest) : (copy.Distinct ↔ forest.Distinct) ∧
    ∀ probe, copy.find? probe = none ↔ forest.find? probe = none := by
  induction shuffled with
  | nil => exact ⟨Iff.rfl, fun _ => Iff.rfl⟩
  | cons _ _ ihBelow ihRest =>
    refine ⟨and_congr (ihRest.2 _) (and_congr ihBelow.1 ihRest.1), fun probe => ?_⟩
    rw [find?_cons_eq_none, find?_cons_eq_none, ihRest.2]
  | swap =>
    simp only [Distinct, find?_cons_eq_none]
    refine ⟨?_, fun _ => and_left_comm⟩
    rw [ne_comm]
    tauto
  | trans _ _ ihFirst ihSecond =>
    exact ⟨ihFirst.1.trans ihSecond.1, fun probe => (ihFirst.2 probe).trans (ihSecond.2 probe)⟩

variable (hangs : Hangs fits above forest)
include hangs

theorem Hangs.find? (found : forest.find? key = some (node, below)) : fits above key node ∧ Hangs fits node below :=
  have mem := mem_spots_of_find? above found
  ⟨hangs _ mem, hangs.below mem⟩

theorem Hangs.remove (key : κ) : Hangs fits above (forest.remove key) := by
  cases found : forest.find? key with
  | none => rwa [remove_of_vacant found]
  | some tree => exact (hangs_cons.mp ((shuffled_found found).hangs.mp hangs)).2.2

theorem Hangs.put (fit : fits above key node) (hangsBelow : Hangs fits node below) :
    Hangs fits above (forest.put key node below) :=
  (shuffled_put ..).hangs.mpr (hangs_cons.mpr ⟨fit, hangsBelow, hangs.remove key⟩)

theorem Hangs.prune (marked : ν → Bool) (key : κ) : Hangs fits above (forest.prune marked key) := by
  induction forest generalizing above with
  | nil => exact hangs
  | cons held node below rest ihBelow ihRest =>
    rw [hangs_cons] at hangs
    rw [Forest.prune, hangs_cons]
    refine ⟨hangs.1, ?_, ihRest hangs.2.2⟩
    split
    · exact (ihBelow hangs.2.1).remove key
    · exact ihBelow hangs.2.1

omit hangs

/-! ### Distinct keys -/

variable (distinct : forest.Distinct)
include distinct

theorem spot_find? (mem : spot ∈ forest.spots above) :
    (spot.above = above ∧ forest.find? spot.key = some (spot.node, spot.below)) ∨
      ∃ upper ∈ forest.spots above, upper.node = spot.above ∧
        upper.below.find? spot.key = some (spot.node, spot.below) := by
  induction forest generalizing above with
  | nil => simp [spots] at mem
  | cons key node below rest ihBelow ihRest =>
    simp only [mem_spots_cons] at mem ⊢
    rcases mem with rfl | inBelow | inRest
    · exact .inl ⟨rfl, by rw [find?, if_pos rfl]⟩
    · rcases ihBelow distinct.2.1 inBelow with ⟨hung, top⟩ | ⟨upper, held, hung, top⟩
      · exact .inr ⟨_, .inl rfl, hung.symm, top⟩
      · exact .inr ⟨upper, .inr (.inl held), hung, top⟩
    · rcases ihRest distinct.2.2 inRest with ⟨hung, top⟩ | ⟨upper, held, hung, top⟩
      · have differs : key ≠ spot.key := by
          rintro rfl
          cases distinct.1.symm.trans top
        exact .inl ⟨hung, by rw [find?, if_neg differs, top]⟩
      · exact .inr ⟨upper, .inr (.inr held), hung, top⟩

theorem Distinct.find? (found : forest.find? key = some (node, below)) :
    below.Distinct := ((shuffled_found found).distinct.1.mp distinct).2.1

theorem Distinct.map (rewrite : ν → μ) : (forest.map rewrite).Distinct := by
  induction forest with
  | nil => trivial
  | cons held node below rest ihBelow ihRest =>
    refine ⟨?_, ihBelow distinct.2.1, ihRest distinct.2.2⟩
    rw [find?_map, distinct.1]
    rfl

theorem Distinct.remove (key : κ) : (forest.remove key).find? key = none ∧ (forest.remove key).Distinct := by
  cases found : forest.find? key with
  | none => exact (remove_of_vacant found).symm ▸ ⟨found, distinct⟩
  | some tree =>
    have split := (shuffled_found found).distinct.1.mp distinct
    exact ⟨split.1, split.2.2⟩

theorem Distinct.put (distinctBelow : below.Distinct) : (forest.put key node below).Distinct :=
  have removed := distinct.remove key
  (shuffled_put ..).distinct.1.mpr ⟨removed.1, distinctBelow, removed.2⟩

omit distinct

theorem find?_prune_none {marked : ν → Bool} (vacant : forest.find? probe = none) :
    (forest.prune marked key).find? probe = none := by
  induction forest with
  | nil => rfl
  | cons held node below rest _ ihRest =>
    rw [find?_cons_eq_none] at vacant
    exact find?_cons_eq_none.mpr ⟨vacant.1, ihRest vacant.2⟩

theorem Distinct.prune (distinct : forest.Distinct) (marked : ν → Bool) (key : κ) :
    (forest.prune marked key).Distinct := by
  induction forest with
  | nil => trivial
  | cons held node below rest ihBelow ihRest =>
    refine ⟨find?_prune_none distinct.1, ?_, ihRest distinct.2.2⟩
    split
    · exact ((ihBelow distinct.2.1).remove key).2
    · exact ihBelow distinct.2.1

theorem put_vacant (vacant : forest.find? key = none) (node : ν) (below : Forest κ ν) :
    forest.put key node below = forest.append (cons key node below nil) := by
  induction forest with
  | nil => rfl
  | cons held other otherBelow rest _ ihRest =>
    rw [find?_cons_eq_none] at vacant
    rw [put, if_neg vacant.1, ihRest vacant.2, append]

theorem total_put_vacant (vacant : forest.find? key = none) (weight : ν → Nat) (node : ν)
    (below : Forest κ ν) : (forest.put key node below).total weight =
      forest.total weight + (weight node + below.total weight) := by
  rw [(shuffled_put ..).total, total, remove_of_vacant vacant, Nat.add_comm]

theorem total_put_held {below' : Forest κ ν} {node' : ν} (found : forest.find? key = some (node', below'))
    (weight : ν → Nat) (node : ν) (below : Forest κ ν) :
    (forest.put key node below).total weight + (weight node' + below'.total weight) =
      forest.total weight + (weight node + below.total weight) := by
  rw [(shuffled_put ..).total, (shuffled_found found).total, total, total]
  omega

theorem total_remove_le (weight : ν → Nat) (key : κ) (forest : Forest κ ν) :
    (forest.remove key).total weight ≤ forest.total weight := by
  cases found : forest.find? key with
  | none => exact Nat.le_of_eq (congrArg _ (remove_of_vacant found))
  | some tree =>
    rw [(shuffled_found found).total, total]
    omega

theorem total_prune_le (weight : ν → Nat) (marked : ν → Bool) (key : κ) (forest : Forest κ ν) :
    (forest.prune marked key).total weight ≤ forest.total weight := by
  induction forest with
  | nil => exact Nat.le_refl _
  | cons held node below rest ihBelow ihRest =>
    rw [prune, total, total]
    have := total_remove_le weight key (below.prune marked key)
    split <;> omega

/-! ### Pruning -/

theorem reached_prune (enter : ν → Bool) (weight : ν → Nat) (marked : ν → Bool) (key : κ)
    (closed : ∀ spot ∈ forest.spots above, marked spot.above = true → spot.key = key →
      (if enter spot.node then weight spot.node + spot.below.reached enter weight else 0) = 0) :
    (forest.prune marked key).reached enter weight = forest.reached enter weight ∧
      (marked above = true → ((forest.prune marked key).remove key).reached enter weight =
        forest.reached enter weight) := by
  induction forest generalizing above with
  | nil => exact ⟨rfl, fun _ => rfl⟩
  | cons held node below rest ihBelow ihRest =>
    obtain ⟨head, inBelow, inRest⟩ := forall_spots_cons.mp closed
    obtain ⟨restSame, restRemoved⟩ := ihRest inRest
    have belowSame : (if marked node then (below.prune marked key).remove key
        else below.prune marked key).reached enter weight = below.reached enter weight := by
      split
      · exact (ihBelow inBelow).2 ‹_›
      · exact (ihBelow inBelow).1
    refine ⟨by rw [prune, reached, reached, belowSame, restSame], fun marks => ?_⟩
    rw [prune, remove, reached]
    split
    · rename_i same
      rw [restSame, head marks same, Nat.zero_add]
    · rw [reached, belowSame, restRemoved marks]

/-- Pruning leaves the nodes that hang elsewhere. -/
theorem hangs_prune (keeps : ν → Prop) (marked : ν → Bool) (key : κ) (distinct : forest.Distinct)
    (kept : ∀ spot ∈ forest.spots above, keeps spot.node ∨ marked spot.above = true ∧ spot.key = key) :
    (marked above = false → Hangs (fun _ _ node => keeps node) above (forest.prune marked key)) ∧
      (marked above = true → Hangs (fun _ _ node => keeps node) above ((forest.prune marked key).remove key)) := by
  induction forest generalizing above with
  | nil => exact ⟨fun _ => hangs_nil, fun _ => hangs_nil⟩
  | cons held node below rest ihBelow ihRest =>
    obtain ⟨head, inBelow, inRest⟩ := forall_spots_cons.mp kept
    obtain ⟨restPlain, restRemoved⟩ := ihRest distinct.2.2 inRest
    have belowKept : Hangs (fun _ _ node => keeps node) node
        (if marked node then (below.prune marked key).remove key else below.prune marked key) := by
      split
      · exact (ihBelow distinct.2.1 inBelow).2 ‹_›
      · exact (ihBelow distinct.2.1 inBelow).1 (eq_false_iff.mpr ‹_›)
    refine ⟨fun clean => ?_, fun marks => ?_⟩
    · rw [prune, hangs_cons]
      refine ⟨head.resolve_right fun other => ?_, belowKept, restPlain clean⟩
      cases clean.symm.trans other.1
    · rw [prune, remove]
      split
      · rename_i same
        have vacant : (rest.prune marked key).find? held = none := find?_prune_none distinct.1
        rw [same] at vacant
        exact remove_of_vacant vacant ▸ restRemoved marks
      · rename_i differs
        exact hangs_cons.mpr ⟨head.resolve_right fun other => differs other.2, belowKept, restRemoved marks⟩

end Forest
end ModelGateway
