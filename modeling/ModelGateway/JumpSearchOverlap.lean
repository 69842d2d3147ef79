import ModelGateway.JumpSearchExact

/-! The scores of the jump search against the true overlaps. A worker's overlap with a
query is the longest common prefix of the query with a sequence of blocks the worker
holds. The scores are the overlaps exactly for the queries on which the search is
clear-cut. -/
namespace ModelGateway.JumpSearchOverlap
open EventTree PositionalIndexer EventTreeProofs EventTreeRuns JumpSearch JumpSearchProofs List Option Nat
open JumpSearchExact CommonPrefix

section Overlap
variable (computeNextSeqHash : UInt64 → UInt64 → UInt64) (index : Index)

/-- `worker` holds every block of a sequence, each under its rolling hash. -/
def Holds (worker : WorkerId) (sequence : List ContentHash) : Prop :=
  ∀ front last, front ++ [last] <+: sequence → ∃ hash, chainHash computeNextSeqHash (front ++ [last]) = some hash ∧
      Listed index ⟨front.length, last, hash⟩ worker

/-- Every listed block continues a sequence its worker holds. -/
def PrefixClosed : Prop :=
  ∀ loc worker, Listed index loc worker → ∃ front,
    Holds computeNextSeqHash index worker (front ++ [loc.contentHash]) ∧ front.length = loc.position ∧
      chainHash computeNextSeqHash (front ++ [loc.contentHash]) = some loc.prefixHash

/-- The rolling hash tells the held sequences from the prefixes of the query. -/
def NoCollision (query : List ContentHash) : Prop :=
  ∀ worker sequence, Holds computeNextSeqHash index worker sequence → sequence.length ≤ query.length →
    chainHash computeNextSeqHash sequence = chainHash computeNextSeqHash (query.take sequence.length) →
    sequence = query.take sequence.length

open Classical in
/-- The longest common prefix of the query with a sequence the worker holds. -/
noncomputable def overlap (query : List ContentHash) (worker : WorkerId) : Nat :=
  findGreatest (fun count => ∃ sequence, Holds computeNextSeqHash index worker sequence ∧
    commonPrefix sequence query = count) query.length

/-- The scores are the overlaps, with no entry for workers that share nothing. -/
def ScoresOverlaps (query : List ContentHash) (scores : KeyedMap WorkerId UInt32) : Prop :=
  ∀ worker, (scores.get? worker).map UInt32.toNat =
    if overlap computeNextSeqHash index query worker = 0 then none
    else some (overlap computeNextSeqHash index query worker)

end Overlap

variable {nextHash : UInt64 → UInt64 → UInt64} {index : Index}
variable {query : List ContentHash} {worker : WorkerId} {position : Nat} {rank : WorkerId → Nat}

theorem le_overlap_iff {count : Nat} : count ≤ overlap nextHash index query worker ↔
      ∃ sequence, Holds nextHash index worker sequence ∧ count ≤ commonPrefix sequence query := by
  classical
  constructor
  · intro below
    have attained : ∃ sequence, Holds nextHash index worker sequence ∧
        commonPrefix sequence query = overlap nextHash index query worker := by
      refine findGreatest_spec (P := fun count => ∃ sequence,
        Holds nextHash index worker sequence ∧ commonPrefix sequence query = count)
        (Nat.zero_le _) ⟨[], fun front last held => ?_, by simp [commonPrefix]⟩
      simp at held
    obtain ⟨sequence, holds, shared⟩ := attained
    exact ⟨sequence, holds, shared ▸ below⟩
  · rintro ⟨sequence, holds, below⟩
    exact below.trans (le_findGreatest (commonPrefix_le_right _ _) ⟨sequence, holds, rfl⟩)

theorem matched_iff_listed : Matched nextHash index query position worker ↔
      ∃ hash, chainHash nextHash (query.take (position + 1)) = some hash ∧
        Listed index ⟨position, query.getD position ⟨0⟩, hash⟩ worker := by
  simp only [Matched, matchedAt, Listed, EventTreeProofs.Lists, bind_eq_bind, bind_eq_some_iff]
  constructor
  · rintro ⟨workers, ⟨entry, held, hash, chained, got⟩, mem⟩
    exact ⟨hash, chained, entry, held, workers, got, mem⟩
  · rintro ⟨hash, chained, entry, held, workers, got, mem⟩
    exact ⟨workers, ⟨entry, held, hash, chained, got⟩, mem⟩

theorem seen_listed (seen : Seen nextHash index query position worker) :
    ∃ hash, Listed index ⟨position, query.getD position ⟨0⟩, hash⟩ worker := by
  obtain ⟨workers, found, mem⟩ := seen
  simp only [seenAt, bind_eq_bind, bind_eq_some_iff] at found
  obtain ⟨entry, held, answered⟩ := found
  cases entry with
  | single existing known =>
    cases answered
    exact ⟨existing, _, held, workers, by rw [SeqEntry.get, if_pos rfl], mem⟩
  | multi map =>
    obtain ⟨hash, -, got⟩ := bind_eq_some_iff.mp answered
    exact ⟨hash, _, held, workers, got, mem⟩

theorem overlap_le_length : overlap nextHash index query worker ≤ query.length := by
  classical exact findGreatest_le _

/-- In a prefix-closed index without collisions, the overlaps rank the workers. -/
theorem overlap_ranked (closed : PrefixClosed nextHash index) (unique : NoCollision nextHash index query) :
    Ranked nextHash index query (overlap nextHash index query) := by
  refine ⟨fun worker => overlap_le_length, fun position inside worker => ?_, fun inside worker seen => ?_⟩
  · rw [← succ_le_iff, le_overlap_iff, matched_iff_listed]
    constructor
    · rintro ⟨hash, chained, listed⟩
      obtain ⟨front, holds, frontLength, frontHash⟩ := closed _ _ listed
      dsimp only at holds frontLength frontHash
      have length : (front ++ [query.getD position ⟨0⟩]).length = position + 1 := by
        rw [length_append, frontLength]
        rfl
      have same := unique worker _ holds (by omega) (by rw [length, chained, frontHash])
      refine ⟨_, holds, le_commonPrefix_iff.mpr ⟨inside, ?_⟩⟩
      rw [same, length]
    · rintro ⟨sequence, holds, below⟩
      have within := (le_commonPrefix_iff.mp below).2
      rw [succ_eq_add_one, take_succ_getD inside] at within
      obtain ⟨hash, chained, listed⟩ := holds _ _ within
      rw [length_take_of_le (by omega)] at listed
      exact ⟨hash, by rw [take_succ_getD inside, chained], listed⟩
  · obtain ⟨hash, listed⟩ := seen_listed seen
    obtain ⟨front, holds, frontLength, -⟩ := closed _ _ listed
    obtain rfl : front = [] := length_eq_zero_iff.mp frontLength
    refine succ_le_iff.mp (le_overlap_iff.mpr ⟨_, holds, le_commonPrefix_iff.mpr ⟨inside, ?_⟩⟩)
    rw [succ_eq_add_one, take_succ_getD inside]
    rfl

theorem unranked_of_unseen (ranked : Ranked nextHash index query rank)
    (inside : 0 < query.length) (unseen : ∀ worker, ¬ Seen nextHash index query 0 worker) :
    (∀ worker, rank worker = 0) ∧ depth nextHash index query = 0 := by
  have unranked : ∀ worker, rank worker = 0 := by
    intro worker
    by_contra ranks
    obtain ⟨workers, found, mem⟩ := (ranked.matched 0 inside worker).mpr (by omega)
    exact unseen worker ⟨workers, seenAt_of_matchedAt found, mem⟩
  refine ⟨unranked, Nat.eq_zero_of_not_pos fun deep => ?_⟩
  obtain ⟨worker, ranks⟩ := ranked.lt_depth_iff.mp deep
  have none := unranked worker
  omega

theorem settled_initial {workers : KeyedSet WorkerId} {seqHashes : List SequenceHash}
    (ranked : Ranked nextHash index query rank) (inside : 0 < query.length)
    (computed : Computed nextHash query seqHashes)
    (seen : seenAt nextHash index query 0 = some workers) :
    Settled nextHash query rank 0 ⟨seqHashes, workers.toList, ∅⟩ := by
  refine ⟨⟨computed, workers.nodup_toList⟩, fun worker => ⟨fun mem => ?_, fun ranks => ?_⟩, fun worker => ?_⟩
  · exact ranked.initial inside worker ⟨workers, seen, mem⟩
  · obtain ⟨found, matched, mem⟩ := (ranked.matched 0 inside worker).mpr ranks
    rw [seenAt_of_matchedAt matched] at seen
    cases seen
    exact mem
  · rw [if_neg (by omega)]
    rfl

/-- What the search reports for ranked workers, in terms of the ranks alone. -/
theorem findMatches_ranked {indexer : PositionalIndexer}
    (ranked : Ranked nextHash indexer.index query rank) {jumpSize : Nat} (pos : 0 < jumpSize) :
    (ClearCut nextHash indexer.index query jumpSize → ∀ worker,
      (findMatches nextHash jumpSize indexer query false).scores.get? worker =
        if rank worker = 0 then none else some (rank worker).toUInt32) ∧
    (¬ ClearCut nextHash indexer.index query jumpSize → ∃ worker score, rank worker < score ∧ score ≤ query.length ∧
      (findMatches nextHash jumpSize indexer query false).scores.get? worker = some score.toUInt32) := by
  cases query with
  | nil =>
    refine ⟨fun _ worker => ?_, fun unclear => absurd (.inl rfl) unclear⟩
    rw [if_pos (le_zero.mp (ranked.bounded worker))]
    rfl
  | cons first rest =>
    have looked : (lookupWorkers nextHash indexer.index 0 ((first :: rest).getD 0 ⟨0⟩) []
        (first :: rest)).1 = _ ∧ _ := lookupWorkers_spec computed_nil (zero_lt_succ _)
    rw [getD_cons_zero] at looked
    obtain ⟨found, computed⟩ := looked
    by_cases unseen : ∀ worker, ¬ Seen nextHash indexer.index (first :: rest) 0 worker
    · obtain ⟨unranked, shallow⟩ := unranked_of_unseen ranked (zero_lt_succ _) unseen
      have nothing : findMatches nextHash jumpSize indexer (first :: rest) false = {} := by
        simp only [findMatches, jumpSearchMatches, getWorkersLazy, found]
        cases seen : seenAt nextHash indexer.index (first :: rest) 0 with
        | none => rfl
        | some workers =>
          have idle : workers.toList = [] := eq_nil_iff_forall_not_mem.mpr fun worker mem =>
            unseen worker ⟨workers, seen, mem⟩
          simp [idle]
      refine ⟨fun _ worker => ?_, fun unclear => absurd (.inl shallow) unclear⟩
      rw [nothing, if_pos (unranked worker)]
      rfl
    · obtain ⟨somebody, workers, seen, mem⟩ : ∃ worker, Seen nextHash indexer.index (first :: rest) 0 worker := by
        simpa using unseen
      have settled := settled_initial ranked (zero_lt_succ _) computed seen
      have below := ranked.lt_depth_iff.mpr ⟨somebody, (settled.active somebody).mp mem⟩
      have outcome := jump_outcome ranked pos (first :: rest).length 0 settled below
        (.inl (zero_mod _)) (by omega)
      obtain ⟨final, finalEq⟩ : ∃ final, final = jumpLoop nextHash jumpSize indexer.index
        (first :: rest) (first :: rest).length 0
        ⟨(lookupWorkers nextHash indexer.index 0 first [] (first :: rest)).2, workers.toList, ∅⟩ := ⟨_, rfl⟩
      have scored : ∀ worker, (findMatches nextHash jumpSize indexer (first :: rest) false).scores.get? worker =
            if worker ∈ final.active then some (first :: rest).length.toUInt32
            else final.scores.get? worker := by
        intro worker
        simp only [findMatches, jumpSearchMatches, getWorkersLazy, found, seen, map_some]
        rw [if_neg (by simpa using ne_nil_of_mem mem), if_neg Bool.false_ne_true, finalEq]
        exact get?_scoreAll _ _ _
      rw [← finalEq] at outcome
      refine ⟨fun clear worker => ?_, fun unclear => ?_⟩
      · have final_settled := outcome.1 clear
        have most := ranked.le_depth worker
        have within := ranked.bounded worker
        simp only [scored, final_settled.active, final_settled.scores]
        by_cases unranked : rank worker = 0
        · rw [if_neg (by omega), if_neg (by omega), if_pos unranked]
        · rw [if_neg unranked]
          split
          · -- only a match of the whole query outlasts the loop
            have full : rank worker = (first :: rest).length := by omega
            rw [full]
          · rw [if_pos (by omega)]
      · obtain ⟨worker, ranks, late⟩ := outcome.2 unclear
        have partly : depth nextHash indexer.index (first :: rest) ≠
            (first :: rest).length := fun full => unclear (.inr (.inl full))
        have most := ranked.le_depth worker
        have deep : depth nextHash indexer.index (first :: rest) ≤ (first :: rest).length := findGreatest_le _
        rcases late with active | ⟨gone, score, above, inside, given⟩
        · exact ⟨worker, _, by omega, le_rfl, by rw [scored, if_pos active]⟩
        · exact ⟨worker, score, by omega, by omega, by rw [scored, if_neg gone, given]⟩

variable {computeNextSeqHash : UInt64 → UInt64 → UInt64}

/-- On a prefix-closed index without collisions, the scores are the overlaps whenever the
search is clear-cut (and the deepest match fits a `u32`), and for queries of fewer than
`2 ^ 32` blocks only then. -/
theorem findMatches_overlaps_iff {indexer : PositionalIndexer} {jumpSize : Nat}
    (pos : 0 < jumpSize) (closed : PrefixClosed computeNextSeqHash indexer.index)
    (unique : NoCollision computeNextSeqHash indexer.index query) :
    (ClearCut computeNextSeqHash indexer.index query jumpSize →
      depth computeNextSeqHash indexer.index query < 2 ^ 32 →
      ScoresOverlaps computeNextSeqHash indexer.index query
        (findMatches computeNextSeqHash jumpSize indexer query false).scores) ∧
    (query.length < 2 ^ 32 → (ScoresOverlaps computeNextSeqHash indexer.index query
          (findMatches computeNextSeqHash jumpSize indexer query false).scores ↔
        ClearCut computeNextSeqHash indexer.index query jumpSize)) := by
  have ranked := overlap_ranked closed unique
  obtain ⟨clear, unclear⟩ := findMatches_ranked ranked pos
  have sufficient : ClearCut computeNextSeqHash indexer.index query jumpSize →
      depth computeNextSeqHash indexer.index query < 2 ^ 32 →
      ScoresOverlaps computeNextSeqHash indexer.index query
        (findMatches computeNextSeqHash jumpSize indexer query false).scores := by
    intro cut small worker
    rw [clear cut worker]
    split
    · rfl
    · rw [map_some, UInt32.toNat_ofNat_of_lt' ((ranked.le_depth worker).trans_lt small)]
  refine ⟨sufficient, fun short => ⟨fun exactly => ?_, fun cut => sufficient cut ?_⟩⟩
  · by_contra vague
    obtain ⟨worker, score, above, within, given⟩ := unclear vague
    have reported := exactly worker
    rw [given, map_some, UInt32.toNat_ofNat_of_lt' (within.trans_lt short)] at reported
    split at reported
    · cases reported
    · exact absurd (some.inj reported) (by omega)
  · exact (findGreatest_le _).trans_lt short

/-! ### One worker that diverges from a query and meets it again -/

/-- A rolling step that tells the sequences below apart. -/
def mix (previous current : UInt64) : UInt64 := previous * 31 + current

/-- Worker 1 stores the blocks 1, 7, 3. -/
def oneWorker : Fleet := Fleet.run mix {} [.stored 1 [⟨⟨11⟩, ⟨1⟩⟩, ⟨⟨12⟩, ⟨7⟩⟩, ⟨⟨13⟩, ⟨3⟩⟩] none]

def stored : List (SequenceHash × Location) :=
  [(⟨11⟩, ⟨0, ⟨1⟩, ⟨1⟩⟩), (⟨12⟩, ⟨1, ⟨7⟩, ⟨38⟩⟩), (⟨13⟩, ⟨2, ⟨3⟩, ⟨1181⟩⟩)]

theorem oneWorker_listed_iff {loc : Location} : Listed oneWorker.indexer.index loc worker ↔
      worker = 1 ∧ ∃ seqHash, (seqHash, loc) ∈ stored := by
  have names : ∀ worker, Fleet.assignments mix worker {}
      [.stored 1 [⟨⟨11⟩, ⟨1⟩⟩, ⟨⟨12⟩, ⟨7⟩⟩, ⟨⟨13⟩, ⟨3⟩⟩] none] = if worker = 1 then stored else [] := by
    intro worker
    by_cases first : worker = 1
    · subst first
      decide
    · simp [Fleet.assignments, Event.worker, first, Ne.symm first]
  have exact : Exact _ oneWorker := exact_start.run _ fun worker => by
    rw [nil_append, names worker]
    split
    · decide
    · simp [Naming]
  have mirrors := exact.mirrors worker
  rw [mirrors.listed]
  constructor
  · rintro ⟨seqHash, held⟩
    have known := mirrors.known seqHash loc held
    rw [nil_append, names worker] at known
    split at known
    · exact ⟨‹_›, seqHash, known⟩
    · cases known
  · rintro ⟨rfl, seqHash, mem⟩
    have held : ∀ block ∈ stored, (oneWorker.blocks 1).get? block.1 = some block.2 := by decide
    exact ⟨seqHash, held _ mem⟩

theorem oneWorker_holds {sequence : List ContentHash}
    (holds : Holds mix oneWorker.indexer.index worker sequence) :
    sequence ∈ inits [⟨1⟩, ⟨7⟩, ⟨3⟩] := by
  induction sequence using reverseRecOn with
  | nil => decide
  | append_singleton front last ih =>
    have pre := ih fun shorter final within => holds shorter final (within.trans (prefix_append _ _))
    obtain ⟨hash, -, listed⟩ := holds front last (prefix_refl _)
    obtain ⟨-, seqHash, mem⟩ := oneWorker_listed_iff.mp listed
    -- the position of a stored block fixes its content
    have content : ∀ front ∈ inits [⟨1⟩, ⟨7⟩, ⟨3⟩], ∀ block ∈ stored, block.2.position = front.length →
          front ++ [block.2.contentHash] ∈ inits [⟨1⟩, ⟨7⟩, ⟨3⟩] := by decide
    exact content front pre _ mem rfl

theorem holds_oneWorker : Holds mix oneWorker.indexer.index 1 [⟨1⟩, ⟨7⟩, ⟨3⟩] := by
  intro front last within
  have blocks : ∀ sequence ∈ inits [⟨1⟩, ⟨7⟩, ⟨3⟩], sequence ≠ [] → ∃ block ∈ stored,
      chainHash mix sequence = some block.2.prefixHash ∧ block.2.position = sequence.dropLast.length ∧
        sequence.getLast? = some block.2.contentHash := by decide
  obtain ⟨⟨seqHash, loc⟩, mem, chained, position, content⟩ := blocks _ ((mem_inits _ _).mpr within) (by simp)
  rw [dropLast_concat] at position
  rw [getLast?_concat, some.injEq] at content
  refine ⟨loc.prefixHash, chained, oneWorker_listed_iff.mpr ⟨rfl, seqHash, ?_⟩⟩
  rw [← position, content]
  exact mem

theorem oneWorker_closed : PrefixClosed mix oneWorker.indexer.index := by
  rintro loc worker listed
  obtain ⟨rfl, seqHash, mem⟩ := oneWorker_listed_iff.mp listed
  have continues : ∀ block ∈ stored, ∃ front ∈ inits [⟨1⟩, ⟨7⟩, ⟨3⟩],
      front ++ [block.2.contentHash] <+: [⟨1⟩, ⟨7⟩, ⟨3⟩] ∧ front.length = block.2.position ∧
        chainHash mix (front ++ [block.2.contentHash]) = some block.2.prefixHash := by decide
  obtain ⟨front, -, within, length, chained⟩ := continues _ mem
  exact ⟨front, fun shorter last inner => holds_oneWorker shorter last (inner.trans within), length, chained⟩

theorem oneWorker_unique : NoCollision mix oneWorker.indexer.index [⟨1⟩, ⟨2⟩, ⟨3⟩] := by
  have nodup : ∀ sequence ∈ inits [⟨1⟩, ⟨7⟩, ⟨3⟩], sequence.length ≤ 3 →
      chainHash mix sequence = chainHash mix (take sequence.length [⟨1⟩, ⟨2⟩, ⟨3⟩]) →
        sequence = take sequence.length [⟨1⟩, ⟨2⟩, ⟨3⟩] := by decide
  exact fun _ sequence holds => nodup sequence (oneWorker_holds holds)

/-- The search jumps over the block in which worker 1 differs from the query: it scores 3
where one block is shared. -/
theorem oneWorker_overscored : PrefixClosed mix oneWorker.indexer.index ∧
      NoCollision mix oneWorker.indexer.index [⟨1⟩, ⟨2⟩, ⟨3⟩] ∧
      (findMatches mix 2 oneWorker.indexer [⟨1⟩, ⟨2⟩, ⟨3⟩] false).scores.get? 1 = some 3 ∧
      overlap mix oneWorker.indexer.index [⟨1⟩, ⟨2⟩, ⟨3⟩] 1 = 1 := by
  have ranked := overlap_ranked oneWorker_closed oneWorker_unique
  have first : 0 < overlap mix oneWorker.indexer.index [⟨1⟩, ⟨2⟩, ⟨3⟩] 1 := (ranked.matched 0 (by decide) 1).mp
      (matched_iff_listed.mpr ⟨⟨1⟩, by decide, oneWorker_listed_iff.mpr ⟨rfl, ⟨11⟩, by decide⟩⟩)
  have second : ¬ 1 < overlap mix oneWorker.indexer.index [⟨1⟩, ⟨2⟩, ⟨3⟩] 1 := by
    rw [← ranked.matched 1 (by decide) 1, matched_iff_listed]
    rintro ⟨hash, -, listed⟩
    obtain ⟨-, seqHash, mem⟩ := oneWorker_listed_iff.mp listed
    have absent : ∀ block ∈ stored, block.2.position = 1 → block.2.contentHash ≠ ⟨2⟩ := by decide
    exact absent _ mem rfl rfl
  exact ⟨oneWorker_closed, oneWorker_unique, by decide, by omega⟩

/-- Probing every position finds the difference. -/
theorem oneWorker_scored : ScoresOverlaps mix oneWorker.indexer.index [⟨1⟩, ⟨2⟩, ⟨3⟩]
      (findMatches mix 1 oneWorker.indexer [⟨1⟩, ⟨2⟩, ⟨3⟩] false).scores := by
  refine (findMatches_overlaps_iff (by decide) oneWorker_closed oneWorker_unique).1 ?_ (by decide)
  have unseen : seenAt mix oneWorker.indexer.index [⟨1⟩, ⟨2⟩, ⟨3⟩]
      (depth mix oneWorker.indexer.index [⟨1⟩, ⟨2⟩, ⟨3⟩]) = none := by decide
  refine .inr (.inr ⟨by decide, by decide, fun worker _ => ?_⟩)
  rintro ⟨workers, seen, -⟩
  rw [unseen] at seen
  cases seen

end ModelGateway.JumpSearchOverlap
