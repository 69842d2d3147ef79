import ModelGateway.KeyedForest

/-! Words covered by labelled paths: a word is covered for an owner when it is a prefix of a
path whose node has that owner. The paths of a forest are read off the texts of its nodes. -/
namespace ModelGateway.PathCover
open List Forest

variable {α κ ν : Type}

/-- Paths with the node each leads to. -/
abbrev Entries (α ν : Type) := List (List α × ν)

def Covers (owns : ν → Bool) (entries : Entries α ν) (word : List α) : Prop :=
  ∃ entry ∈ entries, owns entry.2 = true ∧ word <+: entry.1

instance [DecidableEq α] (owns : ν → Bool) (entries : Entries α ν) (word : List α) :
    Decidable (Covers owns entries word) :=
  inferInstanceAs (Decidable (∃ entry ∈ entries, owns entry.2 = true ∧ word <+: entry.1))

/-- Puts a text before every path. -/
def shift (text : List α) (entries : Entries α ν) : Entries α ν :=
  entries.map fun entry => (text ++ entry.1, entry.2)

/-- A node and what hangs below it. -/
def branch (text : List α) (node : ν) (below : Entries α ν) : Entries α ν :=
  (text, node) :: shift text below

variable {owns : ν → Bool} {entries others : Entries α ν} {text word : List α} {node node' : ν}

@[simp] theorem covers_nil : ¬ Covers owns ([] : Entries α ν) word := by
  rintro ⟨_, mem, -⟩
  cases mem

@[simp] theorem covers_cons : Covers owns ((text, node) :: entries) word ↔
    (owns node = true ∧ word <+: text) ∨ Covers owns entries word := by
  simp only [Covers, exists_mem_cons_iff]

@[simp] theorem covers_append :
    Covers owns (entries ++ others) word ↔ Covers owns entries word ∨ Covers owns others word := by
  simp only [Covers, mem_append, or_and_right, exists_or]

theorem Covers.of_longer {longer : List α} (covers : Covers owns entries longer)
    (shorter : word <+: longer) : Covers owns entries word := by
  obtain ⟨entry, mem, owned, covered⟩ := covers
  exact ⟨entry, mem, owned, shorter.trans covered⟩

theorem prefix_append_iff {path : List α} :
    word <+: text ++ path ↔ word <+: text ∨ ∃ tail, word = text ++ tail ∧ tail <+: path := by
  constructor
  · intro covered
    rcases prefix_or_prefix_of_prefix covered (prefix_append text path) with inside | past
    · exact .inl inside
    · obtain ⟨tail, rfl⟩ := past
      exact .inr ⟨tail, rfl, (prefix_append_right_inj text).mp covered⟩
  · rintro (inside | ⟨tail, rfl, covered⟩)
    · exact inside.trans (prefix_append text path)
    · exact (prefix_append_right_inj text).mpr covered

theorem covers_shift : Covers owns (shift text entries) word ↔ (word <+: text ∧ Covers owns entries []) ∨
      ∃ tail, word = text ++ tail ∧ Covers owns entries tail := by
  have mapped : Covers owns (shift text entries) word ↔
      ∃ entry ∈ entries, owns entry.2 = true ∧ word <+: text ++ entry.1 := by
    constructor
    · rintro ⟨entry, mem, owned⟩
      obtain ⟨entry, inside, rfl⟩ := mem_map.mp mem
      exact ⟨entry, inside, owned⟩
    · rintro ⟨entry, mem, owned⟩
      exact ⟨_, mem_map_of_mem mem, owned⟩
  rw [mapped]
  simp only [Covers, prefix_append_iff, nil_prefix, and_true]
  constructor
  · rintro ⟨entry, mem, owned, inside | ⟨tail, same, covered⟩⟩
    · exact .inl ⟨inside, entry, mem, owned⟩
    · exact .inr ⟨tail, same, entry, mem, owned, covered⟩
  · rintro (⟨inside, entry, mem, owned⟩ | ⟨tail, same, entry, mem, owned, covered⟩)
    · exact ⟨entry, mem, owned, .inl inside⟩
    · exact ⟨entry, mem, owned, .inr ⟨tail, same, covered⟩⟩

theorem covers_shift_congr (same : ∀ word, Covers owns entries word ↔ Covers owns others word) :
    Covers owns (shift text entries) word ↔ Covers owns (shift text others) word := by
  simp only [covers_shift, same]

theorem shift_append : shift text (entries ++ others) = shift text entries ++ shift text others := map_append

theorem shift_branch (first second : List α) :
    shift first (branch second node entries) = branch (first ++ second) node entries := by
  simp [branch, shift]

theorem covers_branch_congr (same : owns node = owns node')
    (deeper : ∀ word, Covers owns entries word ↔ Covers owns others word) :
    Covers owns (branch text node entries) word ↔ Covers owns (branch text node' others) word := by
  rw [branch, branch, covers_cons, covers_cons, same, covers_shift_congr deeper]

theorem covers_cut {first second : List α} {upper lower : ν} (same : owns upper = owns node)
    (same' : owns lower = owns node) : Covers owns (branch first upper (branch second lower entries)) word ↔
      Covers owns (branch (first ++ second) node entries) word := by
  rw [branch, shift_branch, covers_cons, same, covers_branch_congr same' fun _ => Iff.rfl, branch, covers_cons]
  constructor
  · rintro (⟨owned, inside⟩ | rest)
    · exact .inl ⟨owned, inside.trans (prefix_append first second)⟩
    · exact rest
  · exact .inr

theorem covers_branch_union {both other : ν} {union : Entries α ν}
    (owned : owns both = true ↔ owns node = true ∨ owns other = true)
    (deeper : ∀ word, Covers owns union word ↔ Covers owns entries word ∨ Covers owns others word) :
    Covers owns (branch text both union) word ↔
      Covers owns (branch text node entries) word ∨ Covers owns (branch text other others) word := by
  have split : ∀ word, Covers owns union word ↔ Covers owns (entries ++ others) word := fun word =>
    (deeper word).trans covers_append.symm
  rw [branch, branch, branch, covers_cons, covers_cons, covers_cons, owned, covers_shift_congr split,
    shift_append, covers_append, or_and_right]
  exact or_or_or_comm

/-! ### Forests -/

variable [DecidableEq κ] (edge : ν → List α)

/-- The nodes of a forest with the text that leads to each. -/
def paths : Forest κ ν → Entries α ν
  | .nil => []
  | .cons _ node below rest => branch (edge node) node (paths below) ++ paths rest

variable {edge} {forest below rest : Forest κ ν} {key : κ}

omit [DecidableEq κ] in
theorem paths_shuffled {copy : Forest κ ν} (shuffled : Shuffled copy forest) :
    (paths edge copy).Perm (paths edge forest) := by
  induction shuffled with
  | nil => rfl
  | cons _ _ ihBelow ihRest => exact ((ihBelow.map _).cons _).append ihRest
  | swap => exact perm_append_comm_assoc ..
  | trans _ _ ihFirst ihSecond => exact ihFirst.trans ihSecond

omit [DecidableEq κ] in
theorem covers_shuffled (shuffled : Shuffled forest (.cons key node below rest)) :
    Covers owns (paths edge forest) word ↔
      Covers owns (branch (edge node) node (paths edge below)) word ∨ Covers owns (paths edge rest) word := by
  simp only [Covers, (paths_shuffled shuffled).mem_iff]
  exact covers_append

theorem covers_put_more (found : forest.find? key = some (node, below)) {below' : Forest κ ν}
    (grows : Covers owns (branch (edge node') node' (paths edge below')) word ↔ Covers owns (branch
      (edge node) node (paths edge below)) word ∨ Covers owns others word) :
    Covers owns (paths edge (forest.put key node' below')) word ↔
      Covers owns (paths edge forest) word ∨ Covers owns others word := by
  rw [covers_shuffled (shuffled_put ..), covers_shuffled (shuffled_found found), grows, or_right_comm]

omit [DecidableEq κ] in
theorem spot_of_path (above : ν) {entry : List α × ν} (mem : entry ∈ paths edge forest) :
    ∃ spot ∈ forest.spots above, spot.node = entry.2 := by
  induction forest generalizing above entry with
  | nil => cases mem
  | cons key node below rest ihBelow ihRest =>
    simp only [paths, branch, shift, cons_append, mem_cons, mem_append, mem_map] at mem
    simp only [spots, mem_cons, mem_append]
    rcases mem with rfl | ⟨inner, deeper, rfl⟩ | beside
    · exact ⟨_, .inl rfl, rfl⟩
    · obtain ⟨spot, inside, same⟩ := ihBelow node deeper
      exact ⟨spot, .inr (.inl inside), same⟩
    · obtain ⟨spot, inside, same⟩ := ihRest above beside
      exact ⟨spot, .inr (.inr inside), same⟩

omit [DecidableEq κ] in
theorem paths_map {rewrite : ν → ν} (same : ∀ node, edge (rewrite node) = edge node) :
    paths edge (forest.map rewrite) = (paths edge forest).map fun entry => (entry.1, rewrite entry.2) := by
  induction forest with
  | nil => rfl
  | cons key node below rest ihBelow ihRest =>
    simp [Forest.map, paths, branch, shift, ihBelow, ihRest, same, Function.comp_def]

end ModelGateway.PathCover
