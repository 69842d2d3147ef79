import ModelGateway.StringTreePaths

/-! Where a merge puts the paths of the remote tree. -/
namespace ModelGateway.StringTree
open StringText CommonPrefix PathCover List Forest

/-! ### Landings -/

/-- The paths at which the tenants of a remote child and of the nodes below it are credited.
`descend` gives the landings of the nodes below under the children of a local node. -/
def childLandings (descend : Children → Entries Char Node) (key : Char) (remoteChild : Node)
    (remoteBelow children : Children) : Entries Char Node :=
  let remoteEdge := remoteChild.text.text
  match children.find? key with
  | none => branch remoteEdge remoteChild (paths edgeOf remoteBelow)
  | some (localChild, localBelow) =>
    let localEdge := localChild.text.text
    let shared := commonPrefix localEdge remoteEdge
    if shared = localEdge.length ∧ shared = remoteEdge.length then
      branch localEdge remoteChild (descend localBelow)
    else
      match remoteEdge.drop shared with
      -- the remote edge ends inside the local one: what is below it is left behind
      | [] => [(localEdge.take shared, remoteChild)]
      | first :: _ =>
        match if shared = localEdge.length then localBelow.find? first else none with
        | none => branch remoteEdge remoteChild (paths edgeOf remoteBelow)
        -- whatever the deeper edge is, the remote child is taken to end with it
        | some (deeper, deeperBelow) =>
          branch (localEdge ++ deeper.text.text) remoteChild (descend deeperBelow)

/-- The paths at which a merge credits the tenants of each remote node. -/
def landings : Children → Children → Entries Char Node
  | .nil, _ => []
  | .cons key remoteChild remoteBelow rest, children =>
    childLandings (landings remoteBelow) key remoteChild remoteBelow children ++ landings rest children

variable {remote children : Children} {tenant : TenantId} {copy : Children} {key : Char}
  {above remoteAbove remoteChild : Node} {remoteBelow : Children} {ledger : Ledger}
  {descend : Nat → Children → Ledger → Children × Ledger} {tree : Tree} {landing : List Char × Node}

theorem landings_congr {children' : Children}
    (same : ∀ key, remote.find? key ≠ none → children'.find? key = children.find? key)
    (distinct : remote.Distinct) : landings remote children' = landings remote children := by
  induction remote with
  | nil => rfl
  | cons key node below rest _ ihRest =>
    have here : children'.find? key = children.find? key := same key (by simp [Forest.find?])
    rw [landings, landings, childLandings, childLandings, here, ihRest ?_ distinct.2.2]
    intro probe held
    refine same probe ?_
    rw [Forest.find?]
    split
    · exact Option.some_ne_none _
    · exact held

/-! ### Copies -/

theorem childLandings_congr {descend descend' : Children → Entries Char Node} {remoteChild' : Node}
    {remoteBelow' : Children} (same : remoteChild'.text = remoteChild.text)
    (owned : owns tenant remoteChild' = owns tenant remoteChild)
    (below : ∀ text, Covers (owns tenant) (paths edgeOf remoteBelow') text ↔
      Covers (owns tenant) (paths edgeOf remoteBelow) text)
    (deeper : ∀ children text, Covers (owns tenant) (descend' children) text ↔
      Covers (owns tenant) (descend children) text) (children : Children) (text : List Char) :
    Covers (owns tenant) (childLandings descend' key remoteChild' remoteBelow' children) text ↔
      Covers (owns tenant) (childLandings descend key remoteChild remoteBelow children) text := by
  rw [childLandings, childLandings, same]
  cases children.find? key with
  | none => exact covers_branch_congr owned below
  | some held =>
    obtain ⟨localChild, localBelow⟩ := held
    simp only
    split
    · exact covers_branch_congr owned (deeper _)
    · cases remoteChild.text.text.drop _ with
      | nil => simp only [covers_cons, owned]
      | cons first tail =>
        simp only
        generalize (if commonPrefix localChild.text.text remoteChild.text.text =
          localChild.text.text.length then localBelow.find? first else none) = next
        cases next with
        | none => exact covers_branch_congr owned below
        | some => exact covers_branch_congr owned (deeper _)

/-- For a tenant the two forests hold the same texts and land alike. -/
def Alike (tenant : TenantId) (copy children : Children) : Prop :=
  ∀ text, (Covers (owns tenant) (paths edgeOf copy) text ↔ Covers (owns tenant) (paths edgeOf children) text) ∧
    ∀ host, Covers (owns tenant) (landings copy host) text ↔ Covers (owns tenant) (landings children host) text

theorem Alike.refl : Alike tenant children children := fun _ => ⟨Iff.rfl, fun _ => Iff.rfl⟩

theorem Alike.trans {last : Children} (first : Alike tenant last copy) (second : Alike tenant copy children) :
    Alike tenant last children := fun text =>
  ⟨(first text).1.trans (second text).1, fun host => ((first text).2 host).trans ((second text).2 host)⟩

theorem Alike.cons {node node' : Node} {below below' rest rest' : Children} (same : node'.text = node.text)
    (owned : owns tenant node' = owns tenant node) (inner : Alike tenant below' below)
    (beside : Alike tenant rest' rest) :
    Alike tenant (.cons key node' below' rest') (.cons key node below rest) := by
  intro text
  simp only [paths, landings, covers_append, edgeOf, same, (beside text).1, (beside text).2]
  refine ⟨or_congr_left (covers_branch_congr owned fun text => (inner text).1), fun host => or_congr_left ?_⟩
  exact childLandings_congr same owned (fun text => (inner text).1) (fun host text => (inner text).2 host) host text

theorem alike_shuffled (shuffled : Shuffled copy children) : Alike tenant copy children := by
  induction shuffled with
  | nil => exact .refl
  | cons _ _ ihBelow ihRest => exact .cons rfl rfl ihBelow ihRest
  | swap =>
    intro text
    simp only [paths, landings, covers_append]
    exact ⟨or_left_comm, fun _ => or_left_comm⟩
  | trans _ _ ihFirst ihSecond => exact ihFirst.trans ihSecond

theorem Copies.alike (copies : Copies children copy) : Alike tenant copy children := by
  induction children, copy using Copies.induct with
  | case1 => exact .refl
  | case2 held node below rest held' node' below' rest' ihBelow ihRest =>
    obtain ⟨rfl, same, tenants, belowCopies, restCopies⟩ := copies
    exact .cons same (carries tenants tenant) (ihBelow belowCopies) (ihRest restCopies)
  | case3 => exact absurd copies (by simp [Copies])

theorem graft_covers (vacant : children.find? key = none) (parent : Nat) (node : Node) (below : Children)
    (ledger : Ledger) (text : List Char) :
    Covers (owns tenant) (paths edgeOf (graft parent key node below children ledger).1) text ↔
      Covers (owns tenant) (paths edgeOf children) text ∨
        Covers (owns tenant) (branch (edgeOf node) node (paths edgeOf below)) text := by
  rw [graft, covers_shuffled (shuffled_put ..), remove_of_vacant vacant, or_comm]
  exact or_congr_right (covers_branch_congr rfl fun text => ((cloneChildren_copies ..).alike text).1)

/-! ### Merging -/

theorem mergeChild_covers {descended : Children → Entries Char Node}
    (linked : Hangs Linked above children) (distinct : children.Distinct)
    (remoteFit : Linked remoteAbove key remoteChild)
    (descends : ∀ node below ledger, Hangs Linked node below → below.Distinct → ∀ text,
      Covers (owns tenant) (paths edgeOf (descend node.id below ledger).1) text ↔
        Covers (owns tenant) (paths edgeOf below) text ∨ Covers (owns tenant) (descended below) text)
    (text : List Char) : Covers (owns tenant) (paths edgeOf
        (mergeChild descend above.id key remoteChild remoteBelow children ledger).1) text ↔
      Covers (owns tenant) (paths edgeOf children) text ∨
        Covers (owns tenant) (childLandings descended key remoteChild remoteBelow children) text := by
  rw [mergeChild, childLandings]
  cases found : children.find? key with
  | none => exact graft_covers found ..
  | some held =>
    obtain ⟨localChild, localBelow⟩ := held
    obtain ⟨fit, hangsBelow⟩ := linked.find? found
    have distinctBelow := distinct.find? found
    have credits : ∀ (node : Node) (edgeChars : Nat) (ledger : Ledger), node.text.charCount = edgeChars →
        edgeOf (mergeTenants edgeChars remoteChild.tenantLastAccessTime.toList node ledger).1 = edgeOf node ∧
        (owns tenant (mergeTenants edgeChars remoteChild.tenantLastAccessTime.toList node ledger).1 = true
          ↔ owns tenant node = true ∨ owns tenant remoteChild = true) := by
      intro node edgeChars ledger length
      obtain ⟨credited, exactly⟩ := mergeTenants_credited (fun _ => True)
        remoteChild.tenantLastAccessTime.toList node ledger length fun _ _ => trivial
      refine ⟨congrArg NodeText.text credited.text, ?_⟩
      rw [owns, exactly, mem_map_fst_toList]
    have joined := take_commonPrefix localChild.text.text remoteChild.text.text
    have pos := commonPrefix_pos fit.1 remoteFit.1
    have inRemote := commonPrefix_le_right localChild.text.text remoteChild.text.text
    have inLocal := commonPrefix_le_left localChild.text.text remoteChild.text.text
    simp only [sharedPrefixCount_eq, advanceByChars_eq]
    generalize shares : commonPrefix localChild.text.text remoteChild.text.text = shared at *
    split
    · -- equal edges
      obtain ⟨edge, owned⟩ := credits localChild _ ledger rfl
      refine covers_put_more found ?_
      rw [edge]
      exact covers_branch_union owned (descends localChild localBelow _ hangsBelow distinctBelow)
    · rename_i unequal
      have whole : remoteChild.text.text = localChild.text.text.take shared ++ remoteChild.text.text.drop shared := by
        rw [joined, take_append_drop]
      by_cases ends : shared = localChild.text.text.length
      · -- the local edge is a proper prefix of the remote edge
        obtain ⟨edge, owned⟩ := credits localChild _ ledger fit.2.1
        rw [take_of_length_le ends.ge] at whole
        rw [if_pos ends]
        cases remainder : remoteChild.text.text.drop shared with
        | nil =>
          have := drop_eq_nil_iff.mp remainder
          omega
        | cons first tail =>
          rw [remainder] at whole
          simp only
          rw [if_pos ends]
          cases deep : localBelow.find? first with
          | none =>
            refine covers_put_more found ?_
            rw [edge]
            refine (covers_branch_union owned (graft_covers deep _ _ _ _)).trans (or_congr_right ?_)
            rw [whole]
            exact covers_cut rfl rfl
          | some deeperHeld =>
            obtain ⟨deeper, deeperBelow⟩ := deeperHeld
            obtain ⟨-, hangsDeeper⟩ := hangsBelow.find? deep
            obtain ⟨deeperEdge, deeperOwned⟩ := credits deeper _
              (mergeTenants localChild.text.text.length remoteChild.tenantLastAccessTime.toList localChild
                ledger).2 rfl
            refine covers_put_more found ?_
            rw [edge]
            refine (covers_branch_union owned fun _ => covers_put_more deep ?_).trans
              (or_congr_right (covers_cut rfl rfl))
            rw [deeperEdge]
            exact covers_branch_union deeperOwned
              (descends deeper deeperBelow _ hangsDeeper (distinctBelow.find? deep))
      · -- the local edge is split
        have within : shared < localChild.text.charCount := by
          rw [fit.2.1]
          omega
        rw [if_neg ends, splitAtChar_inside pos within]
        cases second : (localChild.text.text.drop shared).head? with
        | none =>
          rw [head?_eq_none_iff, drop_eq_nil_iff] at second
          omega
        | some localFirst =>
          obtain ⟨edge, owned⟩ := credits ⟨ledger.nextId, ⟨localChild.text.text.take shared, shared⟩,
            localChild.tenantLastAccessTime, some above.id, localChild.lastTenant⟩ shared ledger.allocate rfl
          simp only [NodeText.firstChar, second]
          cases remainder : remoteChild.text.text.drop shared with
          | nil =>
            refine covers_put_more found ?_
            rw [edge]
            refine (covers_branch_union owned fun _ => (or_iff_left covers_nil).symm).trans
              (or_congr_left (covers_uncut ?_ rfl rfl))
            exact take_append_drop shared _
          | cons first tail =>
            have apart : localFirst ≠ first := by
              subst shares
              exact drop_commonPrefix_ne second (by rw [remainder]; rfl)
            refine covers_put_more found ?_
            rw [edge]
            refine (covers_branch_union owned (graft_covers (find?_cons_eq_none.mpr ⟨apart, rfl⟩) _ _ _
              _)).trans (or_congr (covers_uncut ?_ rfl rfl) ?_)
            · exact take_append_drop shared _
            · rw [remainder] at whole
              simp only
              rw [whole, if_neg ends]
              exact covers_cut rfl rfl

theorem find?_mergeChild {localId : Nat} {probe : Char} (differs : probe ≠ key) :
    (mergeChild descend localId key remoteChild remoteBelow children ledger).1.find? probe =
      children.find? probe := by
  have elsewhere : ∀ node below, (children.put key node below).find? probe = children.find? probe :=
    fun node below => by rw [find?_put, if_neg differs]
  rw [mergeChild]
  split
  · exact elsewhere _ _
  · simp only
    split
    · exact elsewhere _ _
    · split
      · split
        · exact elsewhere _ _
        · split
          · exact elsewhere _ _
          · exact elsewhere _ _
      · split
        · rfl
        · split
          · exact elsewhere _ _
          · exact elsewhere _ _

theorem mergeChildren_covers (source : Source False (fun _ => True) remoteAbove remote)
    (linked : Hangs Linked above children) (distinct : children.Distinct) (text : List Char) :
    Covers (owns tenant) (paths edgeOf (mergeChildren remote above.id children ledger).1) text ↔
      Covers (owns tenant) (paths edgeOf children) text ∨ Covers (owns tenant) (landings remote children) text := by
  induction remote generalizing above remoteAbove children ledger text with
  | nil => exact (or_iff_left covers_nil).symm
  | cons key remoteChild remoteBelow rest ihBelow ihRest =>
    have inner : Source False (fun _ => True) remoteChild remoteBelow := source.below.mono fun _ _ => trivial
    have edit : Edit False (fun _ => True) above.id children ledger
        (mergeChild (mergeChildren remoteBelow) above.id key remoteChild remoteBelow children ledger).1
        (mergeChild (mergeChildren remoteBelow) above.id key remoteChild remoteBelow children ledger).2 :=
      mergeChild_edit source linked distinct fun node below ledger hangs apart =>
        mergeChildren_edit source.below hangs apart
    rw [mergeChildren, landings, covers_append, ihRest source.rest (edit.linked rfl linked) (edit.distinct distinct),
      mergeChild_covers linked distinct (hangs_cons.mp source.linked).1
        fun node below ledger hangs apart => ihBelow inner hangs apart,
      landings_congr (fun probe held => find?_mergeChild fun same => held (same ▸ source.distinct.1))
        source.distinct.2.2, or_assoc]

/-! ### The longest match -/

/-- What a tenant matches in the merged tree is the longer of its matches in the two trees. -/
def MatchesLonger (merged tree remote : Tree) : Prop :=
  ∀ text tenant epoch, (prefixMatchTenant merged text tenant epoch).1.length =
    max (prefixMatchTenant tree text tenant epoch).1.length (prefixMatchTenant remote text tenant epoch).1.length

theorem matchesLonger_iff {merged remote : Tree} (sound : Sound merged) (tidy : Tidy merged)
    (treeSound : Sound tree) (treeTidy : Tidy tree) (remoteSound : Sound remote) (remoteTidy : Tidy remote) :
    MatchesLonger merged tree remote ↔ ∀ tenant text, text ≠ [] →
      (Covers (owns tenant) (paths edgeOf merged.children) text ↔
        Covers (owns tenant) (paths edgeOf tree.children) text ∨
          Covers (owns tenant) (paths edgeOf remote.children) text) := by
  constructor
  · intro longer tenant text nonempty
    have whole : ∀ {tree : Tree}, Sound tree → Tidy tree → (Covers (owns tenant) (paths edgeOf tree.children) text ↔
          text.length ≤ (prefixMatchTenant tree text tenant 0).1.length) := by
      intro tree sound tidy
      rw [le_length_prefixMatchTenant sound tidy, take_length,
        or_iff_right (by rwa [length_eq_zero_iff]), and_iff_right le_rfl]
    rw [whole sound tidy, whole treeSound treeTidy, whole remoteSound remoteTidy, longer text tenant 0, le_max_iff]
  · intro held text tenant epoch
    refine eq_of_forall_le_iff fun count => ?_
    rw [le_max_iff, le_length_prefixMatchTenant sound tidy, le_length_prefixMatchTenant treeSound treeTidy,
      le_length_prefixMatchTenant remoteSound remoteTidy]
    by_cases zero : count = 0
    · simp [zero]
    · by_cases within : count ≤ text.length
      · have nonempty : text.take count ≠ [] := by
          rw [← length_pos_iff, length_take]
          omega
        rw [or_iff_right zero, or_iff_right zero, or_iff_right zero, and_iff_right within,
          and_iff_right within, and_iff_right within, held tenant _ nonempty]
      · simp [zero, within]

/-- Each remote node is followed down both trees. Where it lands, its tenants hold the text in
one of the trees already; and where it belongs, they hold it locally already or land there. -/
def Harmless (tree remote : Tree) : Prop :=
  (∀ landing ∈ landings remote.children tree.children, ∀ tenant ∈ landing.2.tenantLastAccessTime.keys,
      Covers (owns tenant) (paths edgeOf tree.children) landing.1 ∨
        Covers (owns tenant) (paths edgeOf remote.children) landing.1) ∧
  ∀ entry ∈ paths edgeOf remote.children, ∀ tenant ∈ entry.2.tenantLastAccessTime.keys,
    Covers (owns tenant) (paths edgeOf tree.children) entry.1 ∨
      Covers (owns tenant) (landings remote.children tree.children) entry.1

instance (tree remote : Tree) : Decidable (Harmless tree remote) := instDecidableAnd

theorem childLandings_ne_nil {descend : Children → Entries Char Node}
    (linked : Hangs Linked above children) (remoteFit : Linked remoteAbove key remoteChild)
    (mem : landing ∈ childLandings descend key remoteChild remoteBelow children) : landing.1 ≠ [] := by
  have starts : ∀ {text : List Char} {node : Node} {below : Entries Char Node}, text ≠ [] →
      landing ∈ branch text node below → landing.1 ≠ [] := by
    intro text node below nonempty inside
    rcases mem_cons.mp inside with rfl | deeper
    · exact nonempty
    · obtain ⟨entry, -, rfl⟩ := mem_map.mp deeper
      exact append_ne_nil_of_left_ne_nil nonempty _
  have edge : ∀ {above node : Node}, Linked above key node → node.text.text ≠ [] := by
    rintro above node ⟨first, -⟩ empty
    rw [empty] at first
    cases first
  rw [childLandings] at mem
  cases found : children.find? key with
  | none =>
    rw [found] at mem
    exact starts (edge remoteFit) mem
  | some held =>
    obtain ⟨localChild, localBelow⟩ := held
    obtain ⟨fit, -⟩ := linked.find? found
    have pos := commonPrefix_pos fit.1 remoteFit.1
    simp only [found] at mem
    split at mem
    · exact starts (edge fit) mem
    · split at mem
      · rw [mem_singleton.mp mem]
        simp only [ne_eq, take_eq_nil_iff]
        exact not_or.mpr ⟨pos.ne', edge fit⟩
      · split at mem
        · exact starts (edge remoteFit) mem
        · exact starts (append_ne_nil_of_left_ne_nil (edge fit) _) mem

theorem landings_ne_nil (linked : Hangs Linked above children)
    (remoteLinked : Hangs Linked remoteAbove remote) (mem : landing ∈ landings remote children) :
    landing.1 ≠ [] := by
  induction remote with
  | nil => cases mem
  | cons key node below rest _ ihRest =>
    rw [hangs_cons] at remoteLinked
    rcases mem_append.mp mem with here | beside
    · exact childLandings_ne_nil linked remoteLinked.1 here
    · exact ihRest remoteLinked.2.2 beside

theorem harmless_iff {remote : Tree} (treeSound : Sound tree) (remoteSound : Sound remote) :
    Harmless tree remote ↔ ∀ tenant text, text ≠ [] → ((Covers (owns tenant) (paths edgeOf tree.children) text ∨
          Covers (owns tenant) (landings remote.children tree.children) text) ↔
        Covers (owns tenant) (paths edgeOf tree.children) text ∨
          Covers (owns tenant) (paths edgeOf remote.children) text) := by
  simp only [Harmless, ← KeyedMap.contains_iff_mem_keys]
  constructor
  · rintro ⟨landed, belongs⟩ tenant text -
    constructor
    · rintro (held | ⟨landing, mem, owned, within⟩)
      · exact .inl held
      · exact (landed landing mem tenant owned).imp (·.of_longer within) (·.of_longer within)
    · rintro (held | ⟨entry, mem, owned, within⟩)
      · exact .inl held
      · exact (belongs entry mem tenant owned).imp (·.of_longer within) (·.of_longer within)
  · intro same
    refine ⟨fun landing mem tenant owned => ?_, fun entry mem tenant owned => ?_⟩
    · exact (same tenant landing.1 (landings_ne_nil treeSound.linked remoteSound.linked mem)).mp
        (.inr ⟨landing, mem, owned, prefix_rfl⟩)
    · obtain ⟨key, starts, -⟩ := head?_path remoteSound.linked mem
      refine (same tenant entry.1 fun empty => ?_).mpr (.inr ⟨entry, mem, owned, prefix_rfl⟩)
      rw [empty] at starts
      cases starts

/-- Merging a tree, or its snapshot, gives every tenant the longer of its two matches exactly
when the merge is harmless. -/
theorem mergeTree_matchesLonger_iff {remote : Tree} (sound : Sound tree) (tidy : Tidy tree)
    (remoteSound : Sound remote) (remoteTidy : Tidy remote) :
    (MatchesLonger (mergeTree tree remote) tree remote ↔ Harmless tree remote) ∧
      (MatchesLonger (mergeSnapshot tree (snapshot remote)) tree remote ↔ Harmless tree remote) := by
  have merges : ∀ {other : Tree}, Sound other → Tidy other →
      Sound (mergeTree tree other) ∧ Tidy (mergeTree tree other) ∧ ∀ tenant text,
        Covers (owns tenant) (paths edgeOf (mergeTree tree other).children) text ↔
          Covers (owns tenant) (paths edgeOf tree.children) text ∨
            Covers (owns tenant) (landings other.children tree.children) text := by
    intro other otherSound otherTidy
    have nested : True → Tidy other := fun _ => otherTidy
    have grows := mergeTree_grows sound otherSound (Nested.inside otherTidy) nested
    refine ⟨grows.sound sound, grows.keeps_tidy tidy, fun tenant text => ?_⟩
    exact mergeChildren_covers ⟨otherSound.linked, otherSound.distinct, fun _ _ _ _ => trivial,
      False.elim, False.elim⟩ sound.linked sound.distinct text
  have restored : True → Tidy remote := fun _ => remoteTidy
  obtain ⟨grows, -, copies⟩ := fromSnapshot_snapshot remoteSound (Nested.inside remoteTidy) restored
  obtain ⟨mergedSound, mergedTidy, merged⟩ := merges remoteSound remoteTidy
  obtain ⟨copiedSound, copiedTidy, copied⟩ := merges (grows.sound sound_new) (grows.keeps_tidy tidy_new)
  have snapshots : mergeSnapshot tree (snapshot remote) = mergeTree tree (fromSnapshot (snapshot remote)) := rfl
  constructor
  · rw [matchesLonger_iff mergedSound mergedTidy sound tidy remoteSound remoteTidy, harmless_iff sound remoteSound]
    simp only [merged]
  · rw [snapshots, matchesLonger_iff copiedSound copiedTidy sound tidy remoteSound remoteTidy,
      harmless_iff sound remoteSound]
    simp only [copied, (copies.alike.trans (alike_shuffled (shuffled_sortDeep _)) _).2]

/-- Whatever is merged into a tree, every tenant still matches as much of a text as before. -/
theorem merge_keeps_matches {remote : Tree} (reachable : Reachable LeavesOwners tree)
    (other : Reachable LeavesOwners remote) (text : List Char) (tenant : TenantId) (epoch : Nat) :
    (prefixMatchTenant tree text tenant epoch).1.length ≤
      (prefixMatchTenant (mergeTree tree remote) text tenant epoch).1.length := by
  obtain ⟨sound, tidy⟩ := reachable.tidy
  obtain ⟨merged, mergedTidy⟩ := (Reachable.mergeTree reachable other).tidy
  have found := (le_length_prefixMatchTenant sound tidy text tenant epoch _).mp le_rfl
  rw [le_length_prefixMatchTenant merged mergedTidy]
  refine found.imp id (And.imp id fun held => ?_)
  exact (mergeChildren_covers ⟨other.tidy.1.linked, other.tidy.1.distinct, fun _ _ _ _ => trivial, False.elim,
    False.elim⟩ sound.linked sound.distinct _).mpr (.inl held)

/-- The remote text splits the local edge, and the local match stays as long as it was. -/
theorem merge_keeps_insertion :
    let tree := insertText .new ['a', 'b', 'c'] "t" 1
    let remote := insertText (insertText .new ['a', 'b', 'd'] "u" 2) ['a', 'b'] "t" 3
    (prefixMatchTenant remote ['a', 'b', 'c'] "t" 4).1.length = 2 ∧
      3 ≤ (prefixMatchTenant (mergeTree tree remote) ['a', 'b', 'c'] "t" 4).1.length := by
  intro tree remote
  have reachable : Reachable LeavesOwners tree := .step (.insertText ['a', 'b', 'c'] "t" 1) .new trivial
  have other : Reachable LeavesOwners remote :=
    .step (.insertText ['a', 'b'] "t" 3) (.step (.insertText ['a', 'b', 'd'] "u" 2) .new trivial) trivial
  exact ⟨by decide, merge_keeps_matches reachable other ['a', 'b', 'c'] "t" 4⟩

/-- The tree that insertions build. -/
def insertAll (insertions : List (List Char × TenantId × Nat)) : Tree :=
  insertions.foldl (fun tree insertion => insertText tree insertion.1 insertion.2.1 insertion.2.2) .new

theorem insertAll_tidy (insertions : List (List Char × TenantId × Nat)) :
    Sound (insertAll insertions) ∧ Tidy (insertAll insertions) := by
  refine foldlRecOn (motive := fun tree => Sound tree ∧ Tidy tree) insertions _ ⟨sound_new, tidy_new⟩
    fun tree kept insertion _ => ?_
  have grows := insertText_grows kept.1 True insertion.1 insertion.2.1 insertion.2.2
  exact ⟨grows.sound kept.1, grows.keeps_tidy kept.2⟩

/-- Trees built by insertions: merging one into the other, or its snapshot, gives every tenant
the longer of its two matches exactly when the merge is harmless. -/
theorem inserted_trees_merge_iff (insertions remoteInsertions : List (List Char × TenantId × Nat)) :
    (MatchesLonger (mergeTree (insertAll insertions) (insertAll remoteInsertions))
        (insertAll insertions) (insertAll remoteInsertions) ↔
      Harmless (insertAll insertions) (insertAll remoteInsertions)) ∧
    (MatchesLonger (mergeSnapshot (insertAll insertions) (snapshot (insertAll remoteInsertions)))
        (insertAll insertions) (insertAll remoteInsertions) ↔
      Harmless (insertAll insertions) (insertAll remoteInsertions)) := by
  obtain ⟨sound, tidy⟩ := insertAll_tidy insertions
  obtain ⟨remoteSound, remoteTidy⟩ := insertAll_tidy remoteInsertions
  exact mergeTree_matchesLonger_iff sound tidy remoteSound remoteTidy

/-- The remote text goes on after a local edge with another character than the local child
does: the remote tenant loses its text and is credited with the local one. -/
theorem merged_tree_misroutes :
    let tree := insertAll [(['a'], "u", 1), (['a', 'b', 'c'], "u", 2)]
    let remote := insertAll [(['a', 'b', 'd'], "t", 3)]
    (prefixMatchTenant (mergeTree tree remote) ['a', 'b', 'd'] "t" 4).1.length = 2 ∧
      (prefixMatchTenant tree ['a', 'b', 'd'] "t" 4).1.length = 0 ∧
      (prefixMatchTenant remote ['a', 'b', 'd'] "t" 4).1.length = 3 ∧
      (prefixMatchTenant (mergeTree tree remote) ['a', 'b', 'c'] "t" 4).1.length = 3 ∧
      (prefixMatchTenant tree ['a', 'b', 'c'] "t" 4).1.length = 0 ∧
      (prefixMatchTenant remote ['a', 'b', 'c'] "t" 4).1.length = 2 ∧
      (prefixMatchTenant (mergeSnapshot tree (snapshot remote)) ['a', 'b', 'd'] "t" 4).1.length = 2 ∧
      (prefixMatchTenant (mergeSnapshot tree (snapshot remote)) ['a', 'b', 'c'] "t" 4).1.length = 3 := by
  decide

theorem split_tree_merges :
    let tree := insertAll [(['a', 'b', 'c'], "u", 1)]
    let remote := insertAll [(['a', 'b', 'd'], "t", 2)]
    MatchesLonger (mergeTree tree remote) tree remote ∧
      MatchesLonger (mergeSnapshot tree (snapshot remote)) tree remote := by
  intro tree remote
  have harmless : Harmless tree remote := by decide
  exact ⟨(inserted_trees_merge_iff _ _).1.mpr harmless, (inserted_trees_merge_iff _ _).2.mpr harmless⟩

end ModelGateway.StringTree
