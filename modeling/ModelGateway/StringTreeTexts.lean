import ModelGateway.StringTreePaths

/-! What insertions put into a tree and what the matches find of it. -/
namespace ModelGateway.StringTree
open StringText CommonPrefix PathCover List Forest

/-! ### Insertion -/

/-- A node of one tenant alone. -/
def leafFor (tenant : TenantId) : Node := Tree.new.root.credit tenant 0

/-- The entry an insertion adds: its text, held by its tenant. An empty text adds none. -/
def added (tenant : TenantId) (text : List Char) : Entries Char Node :=
  if text = [] then [] else [(text, leafFor tenant)]

variable {tenant probe : TenantId} {text word : List Char} {tree : Tree} {texts : List (List Char)}
  {enter : Node → Bool} (calls : List Call)

@[simp] theorem owns_leafFor : owns probe (leafFor tenant) = decide (probe = tenant) := by
  simp [leafFor, Tree.new, Node.carries]

theorem covers_added : Covers (owns probe) (added tenant text) word ↔ probe = tenant ∧ text ≠ [] ∧ word <+: text := by
  unfold added
  split <;> simp_all

theorem added_of_ne_nil (nonempty : text ≠ []) : added tenant text = branch text (leafFor tenant) [] :=
  if_neg nonempty

theorem covers_branch_added {edge rest : List Char} (starts : edge ≠ []) :
    Covers (owns probe) (branch edge (leafFor tenant) (added tenant rest)) word ↔
      Covers (owns probe) (added tenant (edge ++ rest)) word := by
  cases rest with
  | nil => simp [added, branch, shift, starts]
  | cons first rest =>
    rw [added_of_ne_nil (cons_ne_nil _ _), added_of_ne_nil (append_ne_nil_of_left_ne_nil starts _)]
    exact covers_cut rfl rfl

theorem Credited.carries_iff {node node' : Node} {ledger ledger' : Ledger}
    (credited : Credited (· = tenant) node node' ledger ledger') (carried : node'.carries tenant = true) :
    node'.carries probe = true ↔ node.carries probe = true ∨ owns probe (leafFor tenant) = true := by
  rw [owns_leafFor, decide_eq_true_eq]
  exact ⟨credited.only probe, fun held => held.elim (credited.grows probe) fun same => same ▸ carried⟩

/-- The loop of `insert_text` adds the remaining text for its tenant. -/
theorem insertLoop_covers (tenant probe : TenantId) (epoch : Nat) (word : List Char) :
    ∀ fuel prev children remaining ledger, remaining.length < fuel → Hangs Linked prev children →
      prev.carries tenant = true → (Covers (owns probe)
          (paths edgeOf (insertLoop tenant epoch fuel prev children remaining ledger).2.1) word ↔
        Covers (owns probe) (paths edgeOf children) word ∨ Covers (owns probe) (added tenant remaining) word) := by
  intro fuel
  induction fuel generalizing word with
  | zero => exact fun _ _ _ _ enough => absurd enough (Nat.not_lt_zero _)
  | succ fuel ih =>
    intro prev children remaining ledger enough linked carried
    cases remaining with
    | nil => simp [insertLoop, added]
    | cons first rest =>
      rw [insertLoop]
      cases found : children.find? first with
      | none =>
        simp only
        rw [covers_shuffled (shuffled_put ..), remove_of_vacant found, or_comm]
        simp [added, branch, shift, paths, edgeOf, NodeText.new, Node.carries]
      | some held =>
        obtain ⟨matched, below⟩ := held
        obtain ⟨fit, hangsBelow⟩ := linked.find? found
        have pos := commonPrefix_pos (rfl : (first :: rest).head? = some first) fit.1
        have along := take_commonPrefix (first :: rest) matched.text.text
        have length := commonPrefix_le_right (first :: rest) matched.text.text
        simp only [sharedPrefixCount_eq, advanceByChars_eq]
        generalize commonPrefix (first :: rest) matched.text.text = shared at pos along length ⊢
        have starts : (first :: rest).take shared ≠ [] := by simp [pos.ne']
        have fewer : ((first :: rest).drop shared).length < fuel := by
          rw [length_drop]
          simp only [length_cons] at enough ⊢
          omega
        -- the node gone through holds the text so far, and what is below it the rest
        have through : ∀ (start attached : Node) (inner : Children) (ledger₁ ledger₂ : Ledger),
            Credited (· = tenant) start attached ledger₁ ledger₂ → attached.carries tenant = true →
            start.text.text = (first :: rest).take shared → start.carries = matched.carries →
            Hangs Linked start inner →
            (Covers (owns probe) (branch ((first :: rest).take shared) matched (paths edgeOf inner)) word ↔
              Covers (owns probe) (branch (edgeOf matched) matched (paths edgeOf below)) word) →
            let next := insertLoop tenant epoch fuel attached inner ((first :: rest).drop shared) ledger₂
            Covers (owns probe) (paths edgeOf (children.put first next.1 next.2.1)) word ↔
              Covers (owns probe) (paths edgeOf children) word ∨
                Covers (owns probe) (added tenant (first :: rest)) word := by
          intro start attached inner ledger₁ ledger₂ credited carries reads same hangs kept
          have rehung := hangs.rehang fun key node fit => by rwa [Linked, credited.id]
          have touched := (insertLoop_edit True tenant epoch fuel attached inner
            ((first :: rest).drop shared) ledger₂ rehung carries).2 ledger₂
          have owned : _ ↔ _ ∨ owns probe _ = true := (credited.trans touched).carries_iff (touched.grows tenant carries)
          rw [same] at owned
          refine covers_put_more found ?_
          rw [edgeOf, touched.text, credited.text, reads,
            covers_branch_union owned fun word => ih word _ _ _ _ fewer rehung carries, kept,
            covers_branch_added starts, take_append_drop]
        split
        · rename_i short
          cases second : (matched.text.splitAtChar shared).2.firstChar with
          | none =>
            rw [splitAtChar_inside pos short, NodeText.firstChar, head?_eq_none_iff,
              drop_eq_nil_iff, ← fit.2.1] at second
            omega
          | some firstNew =>
            have hangs := (parted_of_split ledger.nextId fit pos short second).linked hangsBelow
            rw [splitAtChar_inside pos short] at hangs ⊢
            obtain ⟨credited, carries⟩ := attachTenant_credited tenant
              ⟨ledger.nextId, ⟨matched.text.text.take shared, shared⟩, matched.tenantLastAccessTime,
                some prev.id, matched.lastTenant⟩ ledger.allocate rfl
            refine through _ _ _ _ _ credited carries along.symm rfl hangs ?_
            have joined : matched.text.text.take shared ++ matched.text.text.drop shared = edgeOf matched :=
              take_append_drop _ _
            rw [along, put, paths, paths, List.append_nil, ← joined]
            exact covers_cut rfl rfl
        · obtain ⟨credited, carries⟩ := attachTenant_credited tenant matched ledger rfl
          have whole : matched.text.text = (first :: rest).take shared := by
            rw [along, take_of_length_le (by have := fit.2.1; omega)]
          exact through _ _ _ _ _ credited carries whole rfl hangsBelow (by rw [← whole]; rfl)

theorem insertText_covers (sound : Sound tree) (tenant probe : TenantId) (epoch : Nat) (text word : List Char) :
    Covers (owns probe) (paths edgeOf (insertText tree text tenant epoch).children) word ↔
      Covers (owns probe) (paths edgeOf tree.children) word ∨ probe = tenant ∧ text ≠ [] ∧ word <+: text := by
  rw [← covers_added, insertText]
  refine insertLoop_covers tenant probe epoch word _ _ _ _ _ (Nat.lt_succ_self _)
    (sound.linked.rehang fun _ _ fit => ?_) ?_
  · split
    · exact fit
    · exact fit
  · split
    · assumption
    · simp

theorem Touches.covers {id : Nat} {change : Node → Node} (touches : Touches tree id change)
    (probe : TenantId) (word : List Char) :
    Covers (owns probe) (paths edgeOf (tree.modify id change).children) word ↔
      Covers (owns probe) (paths edgeOf tree.children) word := by
  have same : ∀ node, edgeOf (node.writeAt id change) = edgeOf node := fun node =>
    congrArg NodeText.text (touches.1.writeAt id node).2.1
  simp only [Tree.modify, Covers, paths_map same, mem_map, exists_exists_and_eq_and]
  refine exists_congr fun entry => and_congr_right fun mem => ?_
  obtain ⟨spot, inside, named⟩ := spot_of_path tree.root mem
  rw [owns, ← named, touches.carries (node_mem_nodes inside)]

/-! ### Calls -/

/-- Insertions and matches, in any order. -/
inductive Call
  | insertText (text : List Char) (tenant : TenantId) (epoch : Nat)
  | matchPrefixWithCounts (text : List Char) (order epoch : Nat)
  | prefixMatchTenant (text : List Char) (tenant : TenantId) (epoch : Nat)

def Call.op : Call → Op
  | .insertText text tenant epoch => .insertText text tenant epoch
  | .matchPrefixWithCounts text order epoch => .matchPrefixWithCounts text order epoch
  | .prefixMatchTenant text tenant epoch => .prefixMatchTenant text tenant epoch

def Call.insertion : Call → Option (List Char × TenantId)
  | .insertText text tenant _ => some (text, tenant)
  | _ => none

/-- The tree that calls on a new tree lead to. -/
def afterCalls (calls : List Call) : Tree := calls.foldl (fun tree call => call.op.run tree) .new

theorem afterCalls_concat (call : Call) : afterCalls (calls ++ [call]) = call.op.run (afterCalls calls) := by
  simp [afterCalls]

theorem afterCalls_orderly : Orderly (afterCalls calls) := by
  rw [afterCalls, ← foldl_map (f := Call.op) (g := Op.run)]
  refine orderly_build (forall_mem_map.mpr fun call _ => ?_)
  cases call <;> rfl

/-- A tenant holds the beginnings of the texts inserted for it. -/
theorem afterCalls_covers (tenant : TenantId) (some : word ≠ []) :
    Covers (owns tenant) (paths edgeOf (afterCalls calls).children) word ↔
      ∃ text, (text, tenant) ∈ calls.filterMap Call.insertion ∧ word <+: text := by
  induction calls using List.reverseRecOn with
  | nil => simp [afterCalls, Tree.new, paths]
  | append_singleton calls call ih =>
    have sound := (afterCalls_orderly calls).sound
    rw [afterCalls_concat, filterMap_append]
    cases call with
    | insertText text owner epoch =>
      have nonempty : word <+: text → text ≠ [] := fun begins empty =>
        some (prefix_nil.mp (empty ▸ begins))
      show Covers _ (paths edgeOf (StringTree.insertText _ text owner epoch).children) word ↔ _
      rw [insertText_covers sound, ih, and_iff_right_of_imp nonempty]
      simp only [mem_append, or_and_right, exists_or, filterMap_cons, Call.insertion,
        filterMap_nil, mem_singleton, Prod.mk.injEq, and_assoc, exists_eq_left]
    | matchPrefixWithCounts text order epoch =>
      rw [show [Call.matchPrefixWithCounts text order epoch].filterMap Call.insertion = [] from rfl, List.append_nil]
      exact ((matchPrefixWithCounts_touches _ _ order epoch).covers tenant word).trans ih
    | prefixMatchTenant text owner epoch =>
      rw [show [Call.prefixMatchTenant text owner epoch].filterMap Call.insertion = [] from rfl, List.append_nil]
      exact prefixMatchTenant_keeps (P := fun tree => Covers _ (paths edgeOf tree.children) word ↔ _) sound ih
        (fun _ _ touches => (touches.covers tenant word).trans ih) _ _ _

/-! ### The longest match -/

/-- The most leading characters a text shares with one of the given texts. -/
def longestShared (texts : List (List Char)) (query : List Char) : Nat :=
  (texts.map fun text => commonPrefix text query).foldr max 0

theorem le_longestShared_iff {query : List Char} {count : Nat} : count ≤ longestShared texts query ↔
      count = 0 ∨ ∃ text ∈ texts, count ≤ query.length ∧ query.take count <+: text := by
  induction texts with
  | nil => simp [longestShared]
  | cons text texts ih =>
    rw [longestShared, map_cons, foldr_cons, le_max_iff, le_commonPrefix_iff]
    rw [longestShared] at ih
    simp [ih, or_left_comm]

theorem walk_eq_of_owned {children : Children} {fuel : Nat} {text : List Char}
    (owned : ∀ node ∈ (walk (fun _ => true) fuel children text).visited, enter node = true) :
    walk enter fuel children text = walk (fun _ => true) fuel children text := by
  induction fuel generalizing children text with
  | zero => rfl
  | succ fuel ih =>
    cases text with
    | nil => rfl
    | cons first rest =>
      rw [walk] at owned ⊢
      rw [walk]
      cases found : children.find? first with
      | none => rfl
      | some held =>
        simp only [found, if_true] at owned ⊢
        split at owned
        · rename_i full
          rw [if_pos (owned _ mem_cons_self), if_pos full, if_pos full,
            ih fun node mem => owned node (mem_cons_of_mem _ mem)]
        · rename_i cut
          rw [if_pos (owned _ mem_cons_self), if_neg cut, if_neg cut]

theorem Sound.matchedChars_eq (sound : Sound tree)
    (upward : Hangs (Upward enter) tree.root tree.children) (covered : ∀ word, word ≠ [] → (Covers
      enter (paths edgeOf tree.children) word ↔ ∃ text ∈ texts, word <+: text)) (query : List Char) :
    (walk enter (query.length + 1) tree.children query).matchedChars = longestShared texts query := by
  refine eq_of_forall_le_iff fun count => ?_
  rw [le_matchedChars_iff sound.linked sound.distinct upward (Nat.lt_succ_self _), le_longestShared_iff]
  refine or_congr_right' fun pos => ?_
  by_cases within : count ≤ query.length
  · have nonempty : query.take count ≠ [] := by
      rw [Ne, take_eq_nil_iff]
      rintro (zero | rfl)
      · exact pos zero
      · exact pos (Nat.le_zero.mp within)
    simp [within, covered _ nonempty]
  · simp [within]

theorem Tidy.covers_any (tidy : Tidy tree) : Covers (fun _ => true) (paths edgeOf tree.children) text ↔
      ∃ tenant, Covers (owns tenant) (paths edgeOf tree.children) text := by
  constructor
  · rintro ⟨entry, mem, -, begins⟩
    obtain ⟨spot, inside, named⟩ := spot_of_path tree.root mem
    obtain ⟨tenant, carried⟩ := (tidy spot inside).1
    exact ⟨tenant, entry, mem, named ▸ carried, begins⟩
  · rintro ⟨tenant, entry, mem, -, begins⟩
    exact ⟨entry, mem, rfl, begins⟩

/-- After any insertions and matches, a match finds the most characters the query shares with an
inserted text and names a tenant that inserted such a text, and a match for a tenant finds the
longest beginning of the query shared with a text of the tenant. -/
theorem inserted_texts_matched (calls : List Call) (query : List Char) :
    let inserted := calls.filterMap Call.insertion
    (∀ order epoch,
      let found := (matchPrefixWithCounts (afterCalls calls) query order epoch).1
      found.matchedCharCount = longestShared (inserted.map Prod.fst) query ∧
        (found.matchedCharCount = 0 ∨ ∃ text, (text, found.tenant) ∈ inserted ∧
          commonPrefix text query = found.matchedCharCount)) ∧
    ∀ tenant epoch, (prefixMatchTenant (afterCalls calls) query tenant epoch).1 =
      query.take (longestShared ((inserted.filter fun insertion => insertion.2 = tenant).map Prod.fst) query) := by
  obtain ⟨sound, tidy, -⟩ := afterCalls_orderly calls
  intro inserted
  have whole : (walk (fun _ => true) (query.length + 1) (afterCalls calls).children query).matchedChars =
      longestShared (inserted.map Prod.fst) query :=
    sound.matchedChars_eq (fun _ _ _ => rfl) (fun word some => by
      rw [tidy.covers_any]
      simp only [afterCalls_covers calls _ some, mem_map, Prod.exists, exists_and_right, exists_eq_right]
      rw [exists_comm]
      simp only [exists_and_right, inserted]) query
  have owned : ∀ tenant, (walk (owns tenant) (query.length + 1) (afterCalls calls).children
      query).matchedChars = longestShared ((inserted.filter fun insertion => insertion.2 = tenant).map
        Prod.fst) query := fun tenant =>
    sound.matchedChars_eq (tidy.upward tenant) (fun word some => by
      simp [afterCalls_covers calls tenant some, inserted]) query
  refine ⟨fun order epoch => ⟨whole, ?_⟩, fun tenant epoch => congrArg (query.take ·) (owned tenant)⟩
  refine (Nat.eq_zero_or_pos _).imp_right fun matched => ?_
  -- the tenant named owns the nodes of the match, so a match for it finds as much
  have same := congrArg Walk.matchedChars (walk_eq_of_owned (tidy.match_owned query order epoch matched).2)
  rw [owned] at same
  obtain ⟨text, mem, begins⟩ := (le_longestShared_iff.mp same.ge).resolve_left matched.ne'
  obtain ⟨⟨_, _⟩, held, rfl⟩ := mem_map.mp mem
  obtain ⟨inside, named⟩ := mem_filter.mp held
  refine ⟨_, of_decide_eq_true named ▸ inside, le_antisymm ?_ (le_commonPrefix_iff.mpr begins)⟩
  exact (le_longestShared_iff.mpr (.inr ⟨_, mem_map_of_mem inside, le_commonPrefix_iff.mp le_rfl⟩)).trans whole.ge

end ModelGateway.StringTree
