import ModelGateway.HashRing

/-! A ring represents its node set: every history of calls keeps that, so the ring is the one
built from the set, and walking it clockwise meets every node. -/
namespace ModelGateway.HashRing.ConsistentHashRing
open List KeyedMap KeyedSet Nat Prod
variable {hash : String → Hash}

/-! ### What a ring holds -/

/-- The ring holds exactly the virtual nodes of these nodes. -/
structure Represents (hash : String → Hash) (built : ConsistentHashRing) (nodes : Finset String) :
    Prop where
  free : CollisionFree hash nodes
  position : ∀ h node, built.ring.get? h = some node ↔ node ∈ nodes ∧ h ∈ virtualHashes hash node
  mem : ∀ node, node ∈ nodes ↔ ∃ hashes, built.nodeHashes.get? node = some hashes
  hashes : ∀ node hashes, built.nodeHashes.get? node = some hashes → ∀ h, h ∈ hashes ↔ h ∈ virtualHashes hash node

variable {nodes : Finset String} {self : ConsistentHashRing} {nodeName key : String} {other : ConsistentHashRing}

theorem CollisionFree.mono {fewer : Finset String} (free : CollisionFree hash nodes)
    (subset : fewer ⊆ nodes) : CollisionFree hash fewer :=
  fun first mem second memberToo => free first (subset mem) second (subset memberToo)

theorem represents_new : Represents hash new ∅ where
  free := fun _ mem => absurd mem (Finset.notMem_empty _)
  position := by simp [new]
  mem := by simp [new]
  hashes := by simp [new]

section Calls
variable (represents : Represents hash self nodes)
include represents

theorem Represents.contains (node : String) : self.nodeHashes.contains node = true ↔ node ∈ nodes := by
  rw [KeyedMap.contains, Option.isSome_iff_exists, represents.mem]

theorem Represents.addNode (free : CollisionFree hash (insert nodeName nodes)) :
    Represents hash (self.addNode hash nodeName) (insert nodeName nodes) := by
  rw [ConsistentHashRing.addNode]
  split
  · have held := (represents.contains nodeName).mp ‹_›
    rwa [Finset.insert_eq_of_mem held]
  · refine ⟨free, fun h node => ?_, fun node => ?_, fun node hashes => ?_⟩
    · rw [get?_foldl_insert, Finset.mem_insert]
      split
      · -- a position of the new node belongs to no other node of the set
        rename_i added
        constructor
        · rintro ⟨⟩
          exact ⟨.inl rfl, added⟩
        · rintro ⟨mem, mine⟩
          exact congrArg some (free nodeName (Finset.mem_insert_self _ _) node
            (Finset.mem_insert.mpr mem) h added mine)
      · rename_i other
        rw [represents.position]
        constructor
        · exact And.imp_left .inr
        · rintro ⟨rfl | mem, mine⟩
          · exact absurd mine other
          · exact ⟨mem, mine⟩
    · rw [get?_insert, Finset.mem_insert, represents.mem]
      by_cases same : node = nodeName <;> simp [same]
    · rw [get?_insert]
      split
      · rintro ⟨⟩ h
        rw [mem_foldl_insert, ‹node = nodeName›]
        simp
      · exact represents.hashes node hashes

theorem Represents.removeNode (nodeName : String) :
    Represents hash (self.removeNode nodeName) (nodes.erase nodeName) := by
  rw [ConsistentHashRing.removeNode]
  cases held : self.nodeHashes.get? nodeName with
  | none =>
    have absent : nodeName ∉ nodes := by
      rw [represents.mem, held]
      simp
    rwa [Finset.erase_eq_of_notMem absent]
  | some hashes =>
    have inSet : nodeName ∈ nodes := (represents.mem nodeName).mpr ⟨hashes, held⟩
    have positions := represents.hashes nodeName hashes held
    refine ⟨represents.free.mono (Finset.erase_subset _ _), fun h node => ?_, fun node => ?_, fun node others => ?_⟩
    · simp only [get?_foldl_erase, mem_toList, positions, Finset.mem_erase]
      split
      · rename_i mine
        refine ⟨nofun, fun ⟨⟨differs, mem⟩, others⟩ => ?_⟩
        exact absurd (represents.free node mem nodeName inSet h others mine) differs
      · rename_i other
        rw [represents.position]
        constructor
        · rintro ⟨mem, mine⟩
          refine ⟨⟨?_, mem⟩, mine⟩
          rintro rfl
          exact other mine
        · exact fun ⟨⟨_, mem⟩, mine⟩ => ⟨mem, mine⟩
    · rw [get?_erase, Finset.mem_erase, represents.mem]
      by_cases same : node = nodeName <;> simp [same]
    · rw [get?_erase]
      split
      · nofun
      · exact represents.hashes node others

theorem Represents.addNodes (added : List String) (free : CollisionFree hash (nodes ∪ added.toFinset)) :
    Represents hash (added.foldl (fun ring node => ring.addNode hash node) self) (nodes ∪ added.toFinset) := by
  induction added generalizing self nodes with
  | nil => simpa using represents
  | cons node rest ih =>
    have union : insert node nodes ∪ rest.toFinset = nodes ∪ (node :: rest).toFinset := by
      rw [toFinset_cons, Finset.insert_union, Finset.union_insert]
    rw [foldl_cons, ← union]
    rw [← union] at free
    exact ih (represents.addNode (free.mono Finset.subset_union_left)) free

theorem Represents.removeNodes (removed : List String) :
    Represents hash (removed.foldl (fun ring node => ring.removeNode node) self) (nodes \ removed.toFinset) := by
  induction removed generalizing self nodes with
  | nil => simpa using represents
  | cons node rest ih =>
    have difference : nodes.erase node \ rest.toFinset = nodes \ (node :: rest).toFinset := by
      ext other
      simp only [Finset.mem_sdiff, Finset.mem_erase, mem_toFinset, mem_cons]
      tauto
    rw [foldl_cons, ← difference]
    exact ih (represents.removeNode node)

theorem Represents.mem_keys (node : String) : node ∈ self.nodeHashes.keys ↔ node ∈ nodes := by
  rw [mem_keys_iff, represents.mem]

theorem Represents.updateMembership (listing : List String) (free : CollisionFree hash listing.toFinset) :
    Represents hash (self.updateMembership hash listing) listing.toFinset := by
  unfold ConsistentHashRing.updateMembership
  extract_lets currentNodes newNodes removed
  have inNew (node : String) : node ∈ newNodes ↔ node ∈ listing := by
    simp [newNodes, mem_foldl_insert]
  have kept : Represents hash removed (nodes \ (currentNodes.filter (· ∉ newNodes)).toFinset) :=
    represents.removeNodes _
  have whole : nodes \ (currentNodes.filter (· ∉ newNodes)).toFinset ∪
      (newNodes.filter (· ∉ currentNodes)).toFinset = listing.toFinset := by
    ext node
    simp only [Finset.mem_union, Finset.mem_sdiff, mem_toFinset, mem_filter, inNew,
      decide_eq_true_eq, currentNodes, represents.mem_keys]
    tauto
  rw [← whole] at free ⊢
  exact kept.addNodes _ free

end Calls

theorem Reached.represents (reached : Reached hash self nodes) : Represents hash self nodes := by
  induction reached with
  | new => exact represents_new
  | call call _ free ih =>
    cases call with
    | add nodeName => exact ih.addNode free
    | remove nodeName => exact ih.removeNode nodeName
    | update listing => exact ih.updateMembership listing free

theorem Represents.same {first second : ConsistentHashRing} (one : Represents hash first nodes)
    (other : Represents hash second nodes) : first.Same second := by
  refine ⟨fun h => Option.ext fun node => (one.position h node).trans (other.position h node).symm, fun node => ?_⟩
  by_cases mem : node ∈ nodes
  · obtain ⟨hashes, held⟩ := (one.mem node).mp mem
    obtain ⟨others, heldToo⟩ := (other.mem node).mp mem
    rw [held, heldToo]
    exact .some fun h => (one.hashes node hashes held h).trans (other.hashes node others heldToo h).symm
  · have vacant {self : ConsistentHashRing} (represents : Represents hash self nodes) :
        self.nodeHashes.get? node = none := by
      rw [Option.eq_none_iff_forall_ne_some]
      exact fun hashes held => mem ((represents.mem node).mpr ⟨hashes, held⟩)
    rw [vacant one, vacant other]
    exact .none

/-! ### Walking the ring -/

/-- The nodes from the position of the key to the end, and then all around. -/
def walk (hash : String → Hash) (key : String) (self : ConsistentHashRing) : List String :=
  (self.rangeFrom (hash key)).map snd ++ self.ring.ascending.map snd

/-- The loop collects first occurrences. `rest` is what is still to come after a wrap-around;
owners and what is to come cover all nodes, so there is never a second one. -/
theorem ownersLoop_eq {all iter rest owners : List String} {total fuel : Nat} {seen : KeyedSet String}
    (passes : rest = [] ∨ rest = all) (fuelled : iter.length + 2 * rest.length < fuel)
    (known : ∀ node, node ∈ seen ↔ node ∈ owners) (count : seen.size = owners.length)
    (few : owners.length ≤ numOwners)
    (covers : (owners ++ firsts owners (iter ++ rest)).length = total) :
    ownersLoop all total fuel iter owners seen = some ((owners ++ firsts owners (iter ++ rest)).take numOwners) := by
  induction fuel generalizing iter rest owners seen with
  | zero => exact absurd fuelled (not_lt_zero _)
  | succ fuel ih =>
    rw [length_append] at covers
    unfold ownersLoop
    split
    · rename_i running
      cases iter with
      | nil =>
        have later : rest ≠ [] := by
          rintro rfl
          rw [append_nil, firsts, length_nil] at covers
          omega
        obtain rfl : rest = all := passes.resolve_left later
        have pos := length_pos_iff.mpr later
        rw [length_nil] at fuelled
        refine (ih (.inl rfl) (by simp only [length_nil]; omega) known count few ?_).trans ?_
        · rw [append_nil, length_append]
          exact covers
        · rw [append_nil, nil_append]
      | cons node iter =>
        rw [length_cons] at fuelled
        simp only [cons_append, firsts] at covers ⊢
        by_cases held : node ∈ seen
        · have old := (known node).mp held
          rw [if_pos old] at covers ⊢
          refine (if_pos held).trans (ih passes (by omega) known count few ?_)
          rw [length_append]
          exact covers
        · have new := mt (known node).mpr held
          have reorder : firsts (owners ++ [node]) (iter ++ rest) = firsts (node :: owners) (iter ++ rest) :=
            firsts_congr _ fun value => by simp [or_comm]
          rw [if_neg new, length_cons] at covers
          rw [if_neg new]
          refine (if_neg held).trans ((ih passes (by omega) (fun value => ?_) ?_ ?_ ?_).trans ?_)
          · rw [mem_insert, known, mem_append, mem_singleton, or_comm]
          · rw [size_insert_of_notMem held, count, length_append, length_singleton]
          · rw [length_append, length_singleton]
            exact running.1
          · rw [reorder, length_append, length_append, length_singleton]
            omega
          · rw [reorder, append_assoc, singleton_append]
    · -- the loop ends with three owners, or with every node among them
      rename_i ended
      rw [not_and_or, not_lt, not_lt] at ended
      rcases ended with full | complete
      · rw [take_append_of_le_length full, take_of_length_le few]
      · have none : firsts owners (iter ++ rest) = [] := eq_nil_of_length_eq_zero (by omega)
        rw [none, append_nil, take_of_length_le few]

theorem mem_walk {node : String} : node ∈ self.walk hash key ↔ ∃ h, self.ring.get? h = some node := by
  simp only [walk, rangeFrom, mem_append, mem_map, mem_filter, Prod.exists, mem_ascending, exists_eq_right]
  exact ⟨fun found => found.elim (Exists.imp fun _ => And.left) id, .inr⟩

variable (represents : Represents hash self nodes)
include represents

theorem Represents.toFinset_walk (key : String) : (self.walk hash key).toFinset = nodes := by
  ext node
  rw [mem_toFinset, mem_walk]
  simp only [represents.position]
  refine ⟨fun found => found.elim fun _ held => held.1, fun mem => ⟨hash (virtualNode node 0), mem, ?_⟩⟩
  exact mem_map.mpr ⟨0, by decide, rfl⟩

theorem Represents.size_nodeHashes : self.nodeHashes.size = nodes.card := by
  rw [KeyedMap.size, ← toFinset_card_of_nodup self.nodeHashes.keys_nodup]
  congr 1
  ext node
  rw [mem_toFinset, represents.mem_keys]

omit represents in
/-- The owners of a key in a ring that represents a node set. -/
def owners (hash : String → Hash) (key : String) (self : ConsistentHashRing) : List String :=
  (firsts [] (self.walk hash key)).take numOwners

theorem Represents.returns (key : String) : self.Returns hash key (self.owners hash key) := by
  have distinct := (length_firsts (self.walk hash key)).trans (congrArg Finset.card (represents.toFinset_walk key))
  refine ⟨((self.rangeFrom (hash key)).map snd).length +
    2 * (self.ring.ascending.map snd).length + 1, fun fuel enough => ?_⟩
  rw [getOwners]
  split
  · have nowhere := KeyedMap.isEmpty_iff.mp ‹_›
    have still : self.walk hash key = [] := by
      rw [eq_nil_iff_forall_not_mem]
      intro node met
      obtain ⟨h, held⟩ := mem_walk.mp met
      exact absurd held (by rw [nowhere h]; nofun)
    rw [owners, still, firsts, take_nil]
  · refine ownersLoop_eq (.inr rfl) enough (by simp) rfl (zero_le _) ?_
    rw [represents.size_nodeHashes, ← distinct, nil_append, walk]

/-! ### Rings that differ by a node -/

section Erased
variable (whole : Represents hash self nodes) (fewer : Represents hash other (nodes.erase nodeName))
omit represents
include whole fewer

theorem Represents.ascending_erase :
    other.ring.ascending = self.ring.ascending.filter fun entry => entry.2 ≠ nodeName := by
  refine eq_of_pairwise_lt other.ring.pairwise_ascending (self.ring.pairwise_ascending.filter _) fun ⟨h, node⟩ => ?_
  rw [mem_filter, mem_ascending, mem_ascending, whole.position, fewer.position, Finset.mem_erase, decide_eq_true_eq]
  tauto

theorem Represents.walk_erase (key : String) : other.walk hash key = (self.walk hash key).filter (· ≠ nodeName) := by
  have through (entries : List (Hash × String)) : (entries.filter fun entry => entry.2 ≠ nodeName).map snd =
        (entries.map snd).filter (· ≠ nodeName) := by
    rw [filter_map]
    rfl
  rw [walk, walk, rangeFrom, rangeFrom, whole.ascending_erase fewer, filter_append, ← through, ← through, filter_comm]

theorem Represents.owners_erase (key : String) : other.owners hash key =
      ((firsts [] (self.walk hash key)).filter (· ≠ nodeName)).take numOwners := by
  rw [owners, whole.walk_erase fewer, firsts_filter_of_agree _ fun _ _ => Iff.rfl]

end Erased

omit represents in
/-- The new node stands among the previous owners, and at most the last of them has gone. -/
def InsertsOne (nodeName : String) (previous changed : List String) : Prop :=
  ∃ pre post, previous = pre ++ post ∧
    (changed = pre ++ nodeName :: post ∨ changed = pre ++ nodeName :: post.dropLast)

theorem Represents.owners_addNode (free : CollisionFree hash (insert nodeName nodes)) (key : String) :
    (self.addNode hash nodeName).owners hash key = self.owners hash key ∨
      InsertsOne nodeName (self.owners hash key) ((self.addNode hash nodeName).owners hash key) := by
  by_cases held : nodeName ∈ nodes
  · rw [ConsistentHashRing.addNode, if_pos ((represents.contains nodeName).mpr held)]
    exact .inl rfl
  · have whole := represents.addNode free
    have fewer := represents
    rw [← Finset.erase_insert held] at fewer
    rw [whole.owners_erase fewer]
    by_cases inside : nodeName ∈ (self.addNode hash nodeName).owners hash key
    · exact .inr (take_filter_of_mem (nodup_firsts _ _) inside)
    · exact .inl (take_filter_of_notMem inside).symm

omit represents

/-- After every history of calls without collisions the ring is the one built from the resulting
nodes, whatever their order. `get_owners` ends with `min 3 n` distinct nodes of the ring; removing
another node leaves them as they are, and adding a node inserts it at most. -/
theorem history_owners {self : ConsistentHashRing} {nodes : Finset String} (reached : Reached hash self nodes) :
    (∀ listing : List String, listing.toFinset = nodes → self.Same (build hash listing)) ∧
      ∀ key, ∃ owners, self.Returns hash key owners ∧ owners.length = min numOwners nodes.card ∧
        owners.Nodup ∧ (∀ owner ∈ owners, owner ∈ nodes) ∧
        (∀ nodeName, nodeName ∉ owners → (self.removeNode nodeName).Returns hash key owners) ∧
        ∀ nodeName, CollisionFree hash (insert nodeName nodes) →
          ∃ changed, (self.addNode hash nodeName).Returns hash key changed ∧
            (changed = owners ∨ InsertsOne nodeName owners changed) := by
  have represents := reached.represents
  refine ⟨?_, fun key => ⟨self.owners hash key, represents.returns key, ?_,
    (nodup_firsts _ _).sublist (take_sublist _ _), fun owner mem => ?_,
    fun nodeName outside => ?_, fun nodeName free => ?_⟩⟩
  · rintro listing rfl
    have built := represents_new.addNodes listing (by rw [Finset.empty_union]; exact represents.free)
    rw [Finset.empty_union] at built
    exact represents.same built
  · rw [owners, length_take, length_firsts, represents.toFinset_walk]
  · rw [← represents.toFinset_walk key, mem_toFinset]
    exact (mem_firsts.mp (mem_of_mem_take mem)).1
  · have kept : (self.removeNode nodeName).owners hash key = self.owners hash key := by
      rw [represents.owners_erase (represents.removeNode nodeName)]
      exact take_filter_of_notMem outside
    rw [← kept]
    exact (represents.removeNode nodeName).returns key
  · exact ⟨_, (represents.addNode free).returns key, represents.owners_addNode free key⟩

/-- A hash that places all virtual nodes of a node at its initial. -/
def initialHash (name : String) : Hash := Fin.ofNat (2 ^ 64) (name.toList.headD 'a').toNat

theorem mem_initialHashes {name : String} {letter : Char} {h : Hash}
    (spelled : name.toList = [letter]) (position : h ∈ virtualHashes initialHash name) :
    h = Fin.ofNat (2 ^ 64) letter.toNat := by
  obtain ⟨i, _, rfl⟩ := mem_map.mp position
  simp [initialHash, virtualNode, spelled]

theorem two_nodes_owned : CollisionFree initialHash {"b", "a"} ∧
      ∃ owners, (((Call.add "b").run initialHash ((Call.add "a").run initialHash new)).Returns
        initialHash "key" owners) ∧ owners.length = 2 := by
  have free : CollisionFree initialHash {"b", "a"} := by
    have apart {h : Hash} (one : h ∈ virtualHashes initialHash "a")
        (other : h ∈ virtualHashes initialHash "b") : False := by
      have clash := (mem_initialHashes (by decide : "a".toList = ['a']) one).symm.trans
        (mem_initialHashes (by decide : "b".toList = ['b']) other)
      exact absurd clash (by decide)
    intro first mem second memberToo h one other
    simp only [Finset.mem_insert, Finset.mem_singleton] at mem memberToo
    rcases mem with rfl | rfl <;> rcases memberToo with rfl | rfl
    · rfl
    · exact (apart other one).elim
    · exact (apart one other).elim
    · rfl
  have first : CollisionFree initialHash {"a"} := free.mono (Finset.subset_insert _ _)
  have reached : Reached initialHash
      ((Call.add "b").run initialHash ((Call.add "a").run initialHash new)) {"b", "a"} :=
    .call (.add "b") (.call (.add "a") .new first) free
  obtain ⟨owners, returns, length, _⟩ := (history_owners reached).2 "key"
  exact ⟨free, owners, returns, length⟩

end ModelGateway.HashRing.ConsistentHashRing
