import ModelGateway.PathCover
import ModelGateway.StringTreeRuns

/-! The texts each tenant holds in a tree, and what a match for a tenant finds of them. -/
namespace ModelGateway.StringTree
open StringText CommonPrefix PathCover List Forest Nat

def edgeOf (node : Node) : List Char := node.text.text

/-- A tenant holds the texts covered by the paths to nodes that carry it. -/
abbrev owns (tenant : TenantId) : Node → Bool := fun node => node.carries tenant

/-- A node is entered where one of its children is. -/
def Upward (enter : Node → Bool) (above : Node) (_ : Char) (node : Node) : Prop :=
  enter node = true → enter above = true

variable {enter : Node → Bool} {upper node : Node} {children below : Children} {text : List Char}
  {tree : Tree} {fuel : Nat}

theorem Tidy.upward (tidy : Tidy tree) (tenant : TenantId) : Hangs (Upward (owns tenant)) tree.root tree.children :=
  Hangs.mono tidy fun _ _ _ fit => fit.2 tenant

theorem covers_uncut {lower : Node} {lowerKey : Char} (joined : edgeOf upper ++ edgeOf lower = edgeOf node)
    (same : enter upper = enter node) (same' : enter lower = enter node) :
    Covers enter (branch (edgeOf upper) upper (paths edgeOf (.cons lowerKey lower below .nil))) text ↔
      Covers enter (branch (edgeOf node) node (paths edgeOf below)) text := by
  rw [← joined, paths, paths, List.append_nil]
  exact covers_cut same same'

theorem covers_above (nested : Hangs (Upward enter) upper children)
    (holds : Covers enter (paths edgeOf children) text) : enter upper = true := by
  induction children generalizing upper text with
  | nil => exact absurd holds covers_nil
  | cons key node below rest ihBelow ihRest =>
    obtain ⟨fit, nestedBelow, nestedRest⟩ := hangs_cons.mp nested
    rw [paths, covers_append, branch, covers_cons, covers_shift] at holds
    rcases holds with (⟨carried, -⟩ | ⟨-, deeper⟩ | ⟨_, -, deeper⟩) | beside
    · exact fit carried
    · exact fit (ihBelow nestedBelow deeper)
    · exact fit (ihBelow nestedBelow deeper)
    · exact ihRest nestedRest beside

theorem covers_branch (nested : Hangs (Upward enter) node below) :
    Covers enter (branch (edgeOf node) node (paths edgeOf below)) text ↔ enter node = true ∧ (text <+: edgeOf node ∨
        ∃ tail, text = edgeOf node ++ tail ∧ Covers enter (paths edgeOf below) tail) := by
  rw [branch, covers_cons, covers_shift]
  constructor
  · rintro (⟨carried, inside⟩ | ⟨inside, deeper⟩ | ⟨tail, same, deeper⟩)
    · exact ⟨carried, .inl inside⟩
    · exact ⟨covers_above nested deeper, .inl inside⟩
    · exact ⟨covers_above nested deeper, .inr ⟨tail, same, deeper⟩⟩
  · rintro ⟨carried, inside | past⟩
    · exact .inl ⟨carried, inside⟩
    · exact .inr (.inr past)

/-- Every path starts with the key its first node hangs under. -/
theorem head?_path (linked : Hangs Linked upper children)
    {entry : List Char × Node} (mem : entry ∈ paths edgeOf children) :
    ∃ key, entry.1.head? = some key ∧ children.find? key ≠ none := by
  induction children with
  | nil => cases mem
  | cons key node below rest _ ihRest =>
    obtain ⟨⟨starts, -⟩, -, linkedRest⟩ := hangs_cons.mp linked
    have here : ∀ tail, (edgeOf node ++ tail).head? = some key := by
      intro tail
      rw [head?_append, edgeOf, starts]
      rfl
    have top : Forest.find? key (.cons key node below rest) ≠ none := by
      rw [Forest.find?, if_pos rfl]
      exact Option.some_ne_none _
    rw [paths, branch, shift, mem_append, mem_cons, mem_map] at mem
    rcases mem with (rfl | ⟨deeper, -, rfl⟩) | beside
    · exact ⟨key, starts, top⟩
    · exact ⟨key, here deeper.1, top⟩
    · obtain ⟨other, starts', held⟩ := ihRest linkedRest beside
      refine ⟨other, starts', ?_⟩
      rw [Forest.find?]
      split
      · exact Option.some_ne_none _
      · exact held

/-- A text is held through the child under its first character. -/
theorem covers_cons_iff (linked : Hangs Linked upper children) (distinct : children.Distinct)
    (nested : Hangs (Upward enter) upper children) (first : Char) (rest : List Char) :
    Covers enter (paths edgeOf children) (first :: rest) ↔
      ∃ node below, children.find? first = some (node, below) ∧ enter node = true ∧
        (first :: rest <+: edgeOf node ∨ ∃ tail, first :: rest = edgeOf node ++ tail ∧
          Covers enter (paths edgeOf below) tail) := by
  have vacant : ∀ {others : Children}, Hangs Linked upper others → others.find? first = none →
      ¬ Covers enter (paths edgeOf others) (first :: rest) := by
    rintro others hangs absent ⟨entry, mem, -, tail, covered⟩
    obtain ⟨key, starts, held⟩ := head?_path hangs mem
    rw [← covered, cons_append, head?_cons] at starts
    cases starts
    exact held absent
  cases found : children.find? first with
  | none =>
    refine iff_of_false (vacant linked found) ?_
    rintro ⟨node, below, absent, -⟩
    cases absent
  | some held =>
    obtain ⟨node, below⟩ := held
    rw [covers_shuffled (shuffled_found found), covers_branch (nested.find? found).2,
      or_iff_left (vacant (linked.remove first) (distinct.remove first).1)]
    constructor
    · exact fun holds => ⟨node, below, rfl, holds⟩
    · rintro ⟨node', below', same, holds⟩
      cases same
      exact holds

/-- The step of a match into a child that carries the tenant, given what the match finds below. -/
theorem le_entered_iff (text : List Char) {key : Char}
    (starts : node.text.text.head? = some key) (first : text.head? = some key)
    (length : node.text.charCount = node.text.text.length) (deeper : ∀ {rest : List Char},
      rest.length < text.length → ∀ count, count ≤ (walk enter fuel below rest).matchedChars ↔ count
      = 0 ∨ count ≤ rest.length ∧ Covers enter (paths edgeOf below) (rest.take count)) (count : Nat) :
    let sharedCount := sharedPrefixCount text node.text.text
    count ≤ (if sharedCount = node.text.charCount then
        let next := walk enter fuel below (advanceByChars text sharedCount)
        (⟨node :: next.visited, sharedCount + next.matchedChars⟩ : Walk)
      else ⟨[node], sharedCount⟩).matchedChars ↔
      count ≤ text.length ∧ (text.take count <+: edgeOf node ∨ ∃ tail, text.take count = edgeOf node ++ tail ∧
          Covers enter (paths edgeOf below) tail) := by
  simp only [sharedPrefixCount_eq, advanceByChars_eq, length]
  have bound := commonPrefix_le_left text node.text.text
  have pos := commonPrefix_pos first starts
  generalize shares : commonPrefix text node.text.text = shared at bound pos
  have rest : ∀ count, count ≤ (walk enter fuel below (text.drop shared)).matchedChars ↔
      count = 0 ∨ count ≤ text.length - shared ∧
        Covers enter (paths edgeOf below) ((text.drop shared).take count) := by
    intro count
    rw [deeper (by rw [length_drop]; omega), length_drop]
  have within : (walk enter fuel below (text.drop shared)).matchedChars ≤ text.length - shared := by
    rcases (rest _).mp le_rfl with none | some
    · rw [none]
      exact zero_le _
    · exact some.1
  by_cases fits : count ≤ text.length
  · rw [and_iff_right fits, take_along_iff fits, edgeOf, shares]
    split
    · rename_i full
      rw [← full, eq_self, true_and]
      by_cases short : count ≤ shared
      · exact iff_of_true (short.trans (le_add_right _ _)) (.inl short)
      · have beyond := rest (count - shared)
        rw [or_iff_right short, and_iff_right (Nat.le_of_not_le short)]
        rw [or_iff_right (by omega), and_iff_right (by omega)] at beyond
        rw [← beyond]
        dsimp only
        omega
    · rename_i cut
      exact ⟨.inl, fun holds => holds.elim id fun past => absurd past.1.symm cut⟩
  · refine iff_of_false (fun reached => fits ?_) fun holds => fits holds.1
    split at reached
    · dsimp only at reached
      omega
    · exact reached.trans bound

/-- A match for a tenant finds the longest prefix of the text that the tenant holds. -/
theorem le_matchedChars_iff (linked : Hangs Linked upper children) (distinct : children.Distinct)
    (nested : Hangs (Upward enter) upper children) (enough : text.length < fuel) (count : Nat) :
    count ≤ (walk enter fuel children text).matchedChars ↔ count = 0 ∨ count ≤ text.length ∧
        Covers enter (paths edgeOf children) (text.take count) := by
  induction fuel generalizing upper children text count with
  | zero => exact absurd enough (not_lt_zero _)
  | succ fuel ih =>
    cases count with
    | zero => simp
    | succ count =>
      cases text with
      | nil => simp [walk]
      | cons first rest =>
        rw [take_succ_cons, covers_cons_iff linked distinct nested, walk]
        cases found : children.find? first with
        | none => simp
        | some held =>
          obtain ⟨node, below⟩ := held
          obtain ⟨⟨starts, length, -⟩, linkedBelow⟩ := linked.find? found
          have only : (∃ node' below', some (node, below) = some (node', below') ∧
              enter node' = true ∧ (first :: rest.take count <+: edgeOf node' ∨
                ∃ tail, first :: rest.take count = edgeOf node' ++ tail ∧ Covers enter (paths edgeOf below') tail)) ↔
              enter node = true ∧ ((first :: rest).take (count + 1) <+: edgeOf node ∨
                ∃ tail, (first :: rest).take (count + 1) = edgeOf node ++ tail ∧
                  Covers enter (paths edgeOf below) tail) := by
            constructor
            · rintro ⟨node', below', same, holds⟩
              cases same
              exact holds
            · exact fun holds => ⟨node, below, rfl, holds⟩
          rw [only]
          simp only [add_one_ne_zero, false_or]
          split
          · rename_i carried
            rw [and_iff_right carried]
            refine le_entered_iff (first :: rest) starts rfl length (fun shorter count => ?_) (count + 1)
            exact ih linkedBelow (distinct.find? found) (nested.find? found).2 (by omega) count
          · rename_i absent
            simp [absent]

theorem le_length_prefixMatchTenant (sound : Sound tree) (tidy : Tidy tree) (text : List Char)
    (tenant : TenantId) (epoch count : Nat) :
    count ≤ (prefixMatchTenant tree text tenant epoch).1.length ↔ count = 0 ∨ count ≤ text.length ∧
        Covers (owns tenant) (paths edgeOf tree.children) (text.take count) := by
  have spec : ∀ count, count ≤ (walk (owns tenant) (text.length + 1) tree.children text).matchedChars ↔
      count = 0 ∨ count ≤ text.length ∧ Covers (owns tenant) (paths edgeOf tree.children) (text.take count) :=
    le_matchedChars_iff sound.linked sound.distinct (tidy.upward tenant) (lt_succ_self text.length)
  have within : (walk (owns tenant) (text.length + 1) tree.children text).matchedChars ≤ text.length := by
    rcases (spec _).mp le_rfl with none | some
    · rw [none]
      exact zero_le _
    · exact some.1
  rw [← spec, prefixMatchTenant, takeChars, length_take, min_eq_left within]

end ModelGateway.StringTree
