import ModelGateway.CommonPrefix
import ModelGateway.EventTreeRuns
import ModelGateway.JumpSearchProofs

/-! When the jump search is exact. Up to the depth of the deepest true match the
search sees exactly the workers that match, so everything it does there is right. The
one stride that passes that depth decides: the probe at its end must not count as many
workers as matched at its start, and the entry at the depth itself must list fewer
workers than matched just before it, none of them among those. -/
namespace ModelGateway.JumpSearchExact
open EventTree PositionalIndexer EventTreeProofs JumpSearch JumpSearchProofs CommonPrefix List Nat

section Ranks
variable (computeNextSeqHash : UInt64 → UInt64 → UInt64) (index : Index)
variable (query : List ContentHash)

/-- `worker` is listed for the query at a position under the query's own hash. -/
def Matched (position : Nat) (worker : WorkerId) : Prop :=
  ∃ workers, matchedAt computeNextSeqHash index query position = some workers ∧ worker ∈ workers

def matchedCount (position : Nat) : Nat :=
  (matchedAt computeNextSeqHash index query position).elim 0 KeyedSet.size

/-- How many blocks of the query the deepest match covers. -/
def depth : Nat :=
  findGreatest (fun count => 0 < matchedCount computeNextSeqHash index query (count - 1)) query.length

/-- The entry at the depth sends every remaining worker away: it lists fewer workers
than match just before it, and none of those. -/
def CutOff : Prop :=
  seenCount computeNextSeqHash index query (depth computeNextSeqHash index query) <
      matchedCount computeNextSeqHash index query (depth computeNextSeqHash index query - 1) ∧
    ∀ worker, Matched computeNextSeqHash index query (depth computeNextSeqHash index query - 1)
      worker → ¬ Seen computeNextSeqHash index query (depth computeNextSeqHash index query) worker

/-- The position the stride that passes the depth starts from. -/
def strideStart (jumpSize : Nat) : Nat :=
  (depth computeNextSeqHash index query - 1) / jumpSize * jumpSize

/-- The search does not run past the depth: nothing or everything matches, or the stride
that passes the depth is scanned and the entry at the depth cuts off. -/
def ClearCut (jumpSize : Nat) : Prop :=
  depth computeNextSeqHash index query = 0 ∨ depth computeNextSeqHash index query = query.length ∨
    seenCount computeNextSeqHash index query
        (min (strideStart computeNextSeqHash index query jumpSize + jumpSize) (query.length - 1)) ≠
      matchedCount computeNextSeqHash index query (strideStart computeNextSeqHash index query jumpSize) ∧
      CutOff computeNextSeqHash index query

/-- `rank` is the number of leading blocks each worker matches. -/
structure Ranked (rank : WorkerId → Nat) : Prop where
  bounded : ∀ worker, rank worker ≤ query.length
  matched : ∀ position < query.length, ∀ worker,
    Matched computeNextSeqHash index query position worker ↔ position < rank worker
  initial : 0 < query.length → ∀ worker, Seen computeNextSeqHash index query 0 worker → 0 < rank worker

/-- The search is right up to `position`: exactly the workers that match beyond it are
active, and those that match less are scored with what they match. -/
structure Settled (rank : WorkerId → Nat) (position : Nat) (state : SearchState) : Prop where
  valid : Valid computeNextSeqHash query state
  active : ∀ worker, worker ∈ state.active ↔ position < rank worker
  scores : ∀ worker, state.scores.get? worker =
    if 0 < rank worker ∧ rank worker ≤ position then some (rank worker).toUInt32 else none

end Ranks

variable {nextHash : UInt64 → UInt64 → UInt64} {index : Index}
variable {query : List ContentHash} {rank : WorkerId → Nat} {position : Nat} {state : SearchState}

theorem matchedCount_pos_iff : 0 < matchedCount nextHash index query position ↔
      ∃ worker, Matched nextHash index query position worker := by
  unfold matchedCount Matched
  cases matchedAt nextHash index query position with
  | none => simp
  | some workers =>
    simp only [Option.elim_some, Option.some.injEq, exists_eq_left']
    exact length_pos_iff_exists_mem

variable (ranked : Ranked nextHash index query rank)
include ranked

theorem Ranked.lt_depth_iff : position < depth nextHash index query ↔ ∃ worker, position < rank worker := by
  constructor
  · intro below
    have greatest : findGreatest (fun count => 0 < matchedCount nextHash index query (count - 1)) query.length =
          depth nextHash index query := rfl
    have reached := findGreatest_of_ne_zero greatest (by omega)
    have within : depth nextHash index query ≤ query.length := findGreatest_le _
    obtain ⟨worker, matched⟩ := matchedCount_pos_iff.mp reached
    have ranks := (ranked.matched _ (by omega) worker).mp matched
    exact ⟨worker, by omega⟩
  · rintro ⟨worker, below⟩
    have within := ranked.bounded worker
    have matched := (ranked.matched (rank worker - 1) (by omega) worker).mpr (by omega)
    have reached : rank worker ≤ depth nextHash index query :=
      le_findGreatest within (matchedCount_pos_iff.mpr ⟨worker, matched⟩)
    omega

variable (settled : Settled nextHash query rank position state)
include settled

theorem Settled.length_active (inside : position < query.length) :
    state.active.length = matchedCount nextHash index query position := by
  have matched := ranked.matched position inside
  unfold Matched at matched
  unfold matchedCount
  cases found : matchedAt nextHash index query position with
  | none =>
    have idle : state.active = [] := by
      apply eq_nil_iff_forall_not_mem.mpr
      intro worker mem
      have present := (matched worker).mpr ((settled.active worker).mp mem)
      simp [found] at present
    simp [idle]
  | some workers =>
    have same : ∀ worker, worker ∈ state.active ↔ worker ∈ workers.toList := by
      intro worker
      rw [settled.active, ← matched worker]
      simp [found]
    exact ((perm_ext_iff_of_nodup settled.valid.distinct workers.nodup_toList).mpr same).length_eq

omit settled in
theorem Ranked.seen_below (below : position < depth nextHash index query) :
    seenCount nextHash index query position = matchedCount nextHash index query position ∧
      ∀ worker, Seen nextHash index query position worker ↔ position < rank worker := by
  obtain ⟨worker, ranks⟩ := ranked.lt_depth_iff.mp below
  have inside := ranks.trans_le (ranked.bounded worker)
  obtain ⟨workers, found, -⟩ := (ranked.matched position inside worker).mpr ranks
  have seen := seenAt_of_matchedAt found
  refine ⟨by rw [seenCount, matchedCount, seen, found], fun reader => ?_⟩
  rw [← ranked.matched position inside reader]
  simp [Seen, Matched, seen, found]

variable {next : Nat} {post : SearchState} {jumpSize current : Nat}

theorem Settled.fewer {worker : WorkerId} (ordered : position ≤ next) (inside : next < query.length)
    (ranks : position < rank worker) (stops : ¬ next < rank worker) :
    matchedCount nextHash index query next < state.active.length := by
  have matched := ranked.matched next inside
  unfold Matched at matched
  unfold matchedCount
  have mem := (settled.active worker).mpr ranks
  cases found : matchedAt nextHash index query next with
  | none => exact length_pos_of_mem mem
  | some workers =>
    have listed : ∀ reader, reader ∈ workers.toList ↔ next < rank reader := by
      intro reader
      rw [← matched reader]
      simp [found]
    have distinct : (worker :: workers.toList).Nodup :=
      nodup_cons.mpr ⟨fun held => stops ((listed worker).mp held), workers.nodup_toList⟩
    refine (subperm_of_subset distinct fun reader held => ?_).length_le
    rcases mem_cons.mp held with rfl | later
    · exact mem
    · have further := (listed reader).mp later
      exact (settled.active reader).mpr (by omega)

omit ranked in
theorem Settled.drained (drained : Drained nextHash index query (position + 1) state post)
    (active : ∀ worker, worker ∈ post.active ↔ position + 1 < rank worker) :
    Settled nextHash query rank (position + 1) post := by
  refine ⟨drained.valid, active, fun worker => ?_⟩
  simp only [drained.scores, settled.scores, settled.active, active]
  by_cases exactly : rank worker = position + 1
  · rw [if_pos (by omega), if_pos (by omega), exactly]
  · have same : (0 < rank worker ∧ rank worker ≤ position) ↔
        (0 < rank worker ∧ rank worker ≤ position + 1) := by omega
    rw [if_neg (by omega)]
    simp only [same]

theorem Settled.drain (below : position + 1 < depth nextHash index query)
    (drained : Drained nextHash index query (position + 1) state post) :
    Settled nextHash query rank (position + 1) post := by
  obtain ⟨counted, seen⟩ := ranked.seen_below below
  obtain ⟨deepest, ranks⟩ := ranked.lt_depth_iff.mp below
  have inside := ranks.trans_le (ranked.bounded deepest)
  refine settled.drained drained fun worker => ?_
  rw [drained.active, settled.active, seen]
  refine ⟨fun ⟨mem, keeps⟩ => ?_, fun ranks => ⟨by omega, fun _ => ranks⟩⟩
  by_contra dropped
  -- somebody would be dropped, so strictly fewer workers are seen than are active
  exact dropped (keeps (counted ▸ settled.fewer ranked (by omega) inside mem dropped))

omit settled

theorem Settled.scan (count : Nat) (settled : Settled nextHash query rank position state)
    (below : position + count < depth nextHash index query) :
    Settled nextHash query rank (position + count)
      (scanFrom nextHash index query false count (position + 1) state) := by
  induction count generalizing position state with
  | zero => exact settled
  | succ count ih =>
    obtain ⟨deepest, ranks⟩ := ranked.lt_depth_iff.mp below
    have inside := ranked.bounded deepest
    have busy : state.active ≠ [] := ne_nil_of_mem ((settled.active deepest).mpr (by omega))
    rw [scanFrom_succ _ _ _ _ _ busy]
    have next := settled.drain ranked (by omega) (drainAt_spec (by omega) settled.valid)
    have rest := ih next (by omega)
    rwa [Nat.add_right_comm, Nat.add_assoc] at rest

omit ranked

/-! ### Workers that outstay their match -/

/-- `worker` is still active, or has left with a score of at least `bound`. -/
def Late (query : List ContentHash) (worker : WorkerId) (bound : Nat) (state : SearchState) : Prop :=
  worker ∈ state.active ∨ worker ∉ state.active ∧ ∃ score, bound ≤ score ∧ score < query.length ∧
    state.scores.get? worker = some score.toUInt32

variable {worker : WorkerId} {bound : Nat}

theorem Late.drain {pos : Nat} (late : Late query worker bound state) (later : bound ≤ pos)
    (inside : pos < query.length) (drained : Drained nextHash index query pos state post) :
    Late query worker bound post := by
  by_cases stays : worker ∈ post.active
  · exact .inl stays
  · refine .inr ⟨stays, ?_⟩
    rcases late with active | ⟨gone, score, above, within, scored⟩
    · exact ⟨pos, later, inside, by rw [drained.scores, if_pos ⟨active, stays⟩]⟩
    · refine ⟨score, above, within, ?_⟩
      rw [drained.scores, if_neg fun held => gone held.1, scored]

theorem scan_valid (count pos : Nat) (valid : Valid nextHash query state) (inside : pos + count ≤ query.length) :
    Valid nextHash query (scanFrom nextHash index query false count pos state) ∧
      ∀ {worker bound}, bound ≤ pos → Late query worker bound state →
        Late query worker bound (scanFrom nextHash index query false count pos state) := by
  induction count generalizing pos state with
  | zero => exact ⟨valid, fun _ late => late⟩
  | succ count ih =>
    by_cases idle : state.active = []
    · rw [scanFrom_idle _ _ _ _ _ idle]
      exact ⟨valid, fun _ late => late⟩
    · have drained : Drained nextHash index query pos state _ := drainAt_spec (by omega) valid
      obtain ⟨next, keeps⟩ := ih (pos + 1) drained.valid (by omega)
      rw [scanFrom_succ _ _ _ _ _ idle]
      exact ⟨next, fun later late => keeps (by omega) (late.drain later (by omega) drained)⟩

variable (computeNextSeqHash : UInt64 → UInt64 → UInt64)

/-- The state of the search after the probe of a stride. -/
private def probe (index : Index)
    (query : List ContentHash) (next : Nat) (state : SearchState) : SearchState :=
  { state with seqHashes := (lookupWorkers computeNextSeqHash index next (query.getD next ⟨0⟩)
      state.seqHashes query).2 }

/-- The state after a stride: a probe, and a scan unless it counts as many workers as are active. -/
def strideTo (index : Index)
    (query : List ContentHash) (current next : Nat) (state : SearchState) : SearchState :=
  if seenCount computeNextSeqHash index query next = state.active.length then
    probe computeNextSeqHash index query next state
  else scanFrom computeNextSeqHash index query false (next - current) (current + 1)
    (probe computeNextSeqHash index query next state)

theorem jumpLoop_succ {fuel : Nat} (busy : state.active ≠ []) (inside : current < query.length - 1)
    (stride : next = min (current + jumpSize) (query.length - 1))
    (valid : Valid nextHash query state) :
    jumpLoop nextHash jumpSize index query (fuel + 1) current state =
      jumpLoop nextHash jumpSize index query fuel next (strideTo nextHash index query current next state) := by
  obtain ⟨found, -⟩ : (lookupWorkers nextHash index next (query.getD next ⟨0⟩)
      state.seqHashes query).1 = _ ∧ _ := lookupWorkers_spec valid.computed (by omega)
  have counted : (countWorkersAt nextHash index next (query.getD next ⟨0⟩)
      state.seqHashes query).1 = seenCount nextHash index query next := by
    rw [countWorkersAt, found, seenCount]
  rw [jumpLoop, if_pos ⟨inside, by simpa using busy⟩, ← stride]
  simp only [counted, strideTo]
  split
  · rfl
  · rw [linearScanDrain, Nat.add_sub_add_right]
    rfl

theorem probe_valid (valid : Valid nextHash query state) (inside : next < query.length) :
    Valid nextHash query (probe nextHash index query next state) :=
  ⟨(lookupWorkers_spec valid.computed inside).2, valid.distinct⟩

theorem jumpLoop_idle (jumpSize fuel current : Nat) (idle : state.active = []) :
    jumpLoop nextHash jumpSize index query fuel current state = state := by
  cases fuel <;> simp [jumpLoop, idle]

theorem jump_late (jumpSize fuel current : Nat) (valid : Valid nextHash query state)
    (reached : bound ≤ current + 1) (late : Late query worker bound state) : Late query worker bound
      (jumpLoop nextHash jumpSize index query fuel current state) := by
  induction fuel generalizing current state with
  | zero => exact late
  | succ fuel ih =>
    by_cases idle : state.active = []
    · rwa [jumpLoop_idle _ _ _ idle]
    · by_cases inside : current < query.length - 1
      · have probed : Valid nextHash query (probe nextHash index query
            (min (current + jumpSize) (query.length - 1)) state) := probe_valid valid (by omega)
        rw [jumpLoop_succ idle inside rfl valid, strideTo]
        split
        · exact ih _ probed (by omega) late
        · have fits : current + 1 + (min (current + jumpSize) (query.length - 1) - current) ≤
              query.length := by omega
          obtain ⟨next, keeps⟩ := scan_valid _ _ probed fits
          exact ih _ next (by omega) (keeps reached late)
      · rw [jumpLoop, if_neg fun more => inside more.1]
        exact late

/-! ### The stride that passes the depth -/

private theorem Settled.probe (settled : Settled nextHash query rank position state)
    (inside : next < query.length) : Settled nextHash query rank position (probe nextHash index query next state) :=
  ⟨probe_valid settled.valid inside, settled.active, settled.scores⟩

include ranked

theorem Ranked.le_depth (worker : WorkerId) : rank worker ≤ depth nextHash index query := by
  by_contra above
  exact lt_irrefl _ (ranked.lt_depth_iff.mpr ⟨worker, not_le.mp above⟩)

/-- One iteration at the depth drains everybody exactly when the entry there cuts off. -/
theorem Settled.drain_depth (settled : Settled nextHash query rank position state)
    (last : position + 1 = depth nextHash index query) (inside : position < query.length)
    (drained : Drained nextHash index query (position + 1) state post) :
    (CutOff nextHash index query → post.active = [] ∧ Settled nextHash query rank (position + 1) post) ∧
    (¬ CutOff nextHash index query → ∃ worker, rank worker = position + 1 ∧ worker ∈ post.active) := by
  have length := settled.length_active ranked inside
  have atDepth : ∀ worker, position < rank worker → rank worker = position + 1 := by
    intro worker ranks
    have most := ranked.le_depth worker
    omega
  have cutOff : CutOff nextHash index query ↔
      seenCount nextHash index query (position + 1) < state.active.length ∧ ∀ worker, position < rank worker →
          ¬ Seen nextHash index query (position + 1) worker := by
    rw [CutOff, ← last, Nat.add_sub_cancel, length]
    simp only [ranked.matched position inside]
  rw [cutOff]
  constructor
  · rintro ⟨fewer, unseen⟩
    have idle : post.active = [] := by
      apply eq_nil_iff_forall_not_mem.mpr
      intro worker stays
      obtain ⟨mem, keeps⟩ := (drained.active worker).mp stays
      exact unseen worker ((settled.active worker).mp mem) (keeps fewer)
    refine ⟨idle, settled.drained drained fun worker => ?_⟩
    have most := ranked.le_depth worker
    simp only [idle, not_mem_nil, false_iff]
    omega
  · intro runsOn
    obtain ⟨deepest, ranks⟩ := ranked.lt_depth_iff.mp (show position < _ by omega)
    by_cases fewer : seenCount nextHash index query (position + 1) < state.active.length
    · have somebody : ∃ worker, position < rank worker ∧ Seen nextHash index query (position + 1) worker := by
        by_contra nobody
        exact runsOn ⟨fewer, fun worker ranks seen => nobody ⟨worker, ranks, seen⟩⟩
      obtain ⟨worker, active, seen⟩ := somebody
      exact ⟨worker, atDepth worker active,
        (drained.active worker).mpr ⟨(settled.active worker).mpr active, fun _ => seen⟩⟩
    · exact ⟨deepest, atDepth deepest ranks, (drained.active deepest).mpr
        ⟨(settled.active deepest).mpr ranks, fun few => absurd few fewer⟩⟩

/-- Scanning past the depth drains everybody there exactly when the entry cuts off. -/
theorem Settled.scan_past {count : Nat} (settled : Settled nextHash query rank position state)
    (below : position < depth nextHash index query)
    (reach : depth nextHash index query ≤ position + count)
    (inside : position + count < query.length) : (CutOff nextHash index query →
      Settled nextHash query rank (depth nextHash index query)
        (scanFrom nextHash index query false count (position + 1) state)) ∧
    (¬ CutOff nextHash index query → ∃ worker, rank worker = depth nextHash index query ∧
      Late query worker (rank worker + 1) (scanFrom nextHash index query false count (position + 1) state)) := by
  -- up to the last matching position, at the depth itself, and beyond
  obtain ⟨first, last, firstEq, lastEq⟩ : ∃ first last,
      position + first + 1 = depth nextHash index query ∧ count = first + (last + 1) :=
    ⟨depth nextHash index query - 1 - position, count - (depth nextHash index query - position), by omega, by omega⟩
  have pre := settled.scan ranked first (by omega)
  obtain ⟨deepest, ranks⟩ := ranked.lt_depth_iff.mp (show position + first < _ by omega)
  have busy := ne_nil_of_mem ((pre.active deepest).mpr ranks)
  have drained : Drained nextHash index query (position + first + 1) _ _ := drainAt_spec (by omega) pre.valid
  obtain ⟨cut, runsOn⟩ := pre.drain_depth ranked firstEq (by omega) drained
  have whole : scanFrom nextHash index query false count (position + 1) state =
      scanFrom nextHash index query false last (position + first + 1 + 1)
        (drainAt nextHash index query (position + first + 1)
          (scanFrom nextHash index query false first (position + 1) state)) := by
    rw [lastEq, scanFrom_add, Nat.add_right_comm, scanFrom_succ _ _ _ _ _ busy]
  rw [whole, ← firstEq]
  constructor
  · intro cutOff
    obtain ⟨idle, settled⟩ := cut cutOff
    rwa [scanFrom_idle _ _ _ _ _ idle]
  · intro stays
    obtain ⟨worker, ranks, active⟩ := runsOn stays
    exact ⟨worker, ranks, (scan_valid last _ drained.valid (by omega)).2 (by omega) (.inl active)⟩

omit ranked in
theorem strideStart_eq (positive : 0 < jumpSize) (aligned : current % jumpSize = 0)
    (below : current < depth nextHash index query)
    (passes : depth nextHash index query ≤ current + jumpSize) :
    strideStart nextHash index query jumpSize = current := by
  have quotient : (depth nextHash index query - 1) / jumpSize = current / jumpSize := by
    have whole := div_add_mod current jumpSize
    rw [Nat.div_eq_iff positive]
    rw [aligned, Nat.add_zero, Nat.mul_comm] at whole
    omega
  rw [strideStart, quotient, Nat.div_mul_cancel (dvd_of_mod_eq_zero aligned)]

/-- What the jump loop leaves: a settled state if the search is clear-cut, and otherwise
somebody who outstays its match. -/
def Outcome (index : Index)
    (query : List ContentHash) (rank : WorkerId → Nat) (jumpSize : Nat) (final : SearchState) :
    Prop :=
  (ClearCut computeNextSeqHash index query jumpSize → Settled computeNextSeqHash query rank
      (min (depth computeNextSeqHash index query) (query.length - 1)) final) ∧
    (¬ ClearCut computeNextSeqHash index query jumpSize → ∃ worker, 0 < rank worker ∧
      Late query worker (rank worker + 1) final)

/-- A stride that ends below the depth keeps the state settled. -/
theorem Settled.stride_below (settled : Settled nextHash query rank current state) (ordered : current ≤ next)
    (below : next < depth nextHash index query) :
    Settled nextHash query rank next (strideTo nextHash index query current next state) := by
  have within : depth nextHash index query ≤ query.length := findGreatest_le _
  have probed : Settled nextHash query rank current (JumpSearchExact.probe nextHash index query next state) :=
    settled.probe (by omega)
  rw [strideTo]
  split
  · rename_i counted
    rw [(ranked.seen_below below).1] at counted
    have stays : ∀ worker, current < rank worker → next < rank worker := by
      intro worker ranks
      by_contra stops
      have fewer := settled.fewer ranked ordered (by omega) ranks stops
      omega
    refine ⟨probed.valid, fun worker => ?_, fun worker => ?_⟩
    · rw [probed.active]
      exact ⟨stays worker, fun ranks => by omega⟩
    · have same : (0 < rank worker ∧ rank worker ≤ current) ↔ (0 < rank worker ∧ rank worker ≤ next) := by
        have := stays worker
        omega
      simp only [probed.scores, same]
  · have scanned := probed.scan ranked (next - current) (by omega)
    rwa [Nat.add_sub_cancel' ordered] at scanned

/-- The stride that passes the depth decides the outcome. -/
theorem Settled.stride_past (settled : Settled nextHash query rank current state)
    (start : strideStart nextHash index query jumpSize = current)
    (stride : next = min (current + jumpSize) (query.length - 1))
    (below : current < depth nextHash index query)
    (passes : depth nextHash index query ≤ next) (inside : next < query.length) (fuel : Nat) :
    Outcome nextHash index query rank jumpSize
      (jumpLoop nextHash jumpSize index query fuel next (strideTo nextHash index query current next state)) := by
  have probed : Settled nextHash query rank current (JumpSearchExact.probe nextHash index query next state) :=
    settled.probe inside
  have length := settled.length_active ranked (by omega)
  have clear : ClearCut nextHash index query jumpSize ↔
      seenCount nextHash index query next ≠ state.active.length ∧ CutOff nextHash index query := by
    rw [ClearCut, start, ← stride, length]
    refine ⟨fun decided => ?_, fun cut => .inr (.inr cut)⟩
    rcases decided with none | full | cut
    · omega
    · omega
    · exact cut
  rw [Outcome, clear, strideTo]
  obtain ⟨deepest, ranks⟩ := ranked.lt_depth_iff.mp below
  have most := ranked.le_depth deepest
  by_cases counted : seenCount nextHash index query next = state.active.length
  · rw [if_pos counted]
    refine ⟨fun cut => absurd counted cut.1, fun _ => ⟨deepest, by omega, ?_⟩⟩
    exact jump_late jumpSize fuel next probed.valid (by omega) (.inl ((settled.active deepest).mpr ranks))
  · obtain ⟨cut, runsOn⟩ := probed.scan_past ranked below
      (show depth nextHash index query ≤ current + (next - current) by omega) (by omega)
    rw [if_neg counted]
    constructor
    · rintro ⟨-, cutOff⟩
      have final := cut cutOff
      have idle := eq_nil_iff_forall_not_mem.mpr fun worker active =>
        absurd ((final.active worker).mp active) (not_lt.mpr (ranked.le_depth worker))
      rw [jumpLoop_idle _ _ _ idle, min_eq_left (by omega)]
      exact final
    · intro unclear
      obtain ⟨worker, ranksWorker, late⟩ := runsOn fun cutOff => unclear ⟨counted, cutOff⟩
      exact ⟨worker, by omega, jump_late jumpSize fuel next
        (scan_valid _ _ probed.valid (by omega)).1 (by omega) late⟩

omit ranked in
theorem Settled.finished (settled : Settled nextHash query rank current state)
    (below : current < depth nextHash index query) (ended : query.length - 1 ≤ current) :
    Outcome nextHash index query rank jumpSize state := by
  have within : depth nextHash index query ≤ query.length := findGreatest_le _
  have full : depth nextHash index query = query.length := by omega
  refine ⟨fun _ => ?_, fun unclear => absurd (.inr (.inl full)) unclear⟩
  obtain rfl : current = min (depth nextHash index query) (query.length - 1) := by omega
  exact settled

/-- The jump loop, started settled below the depth, has the outcome the query decides. -/
theorem jump_outcome (positive : 0 < jumpSize) (fuel current : Nat)
    (settled : Settled nextHash query rank current state)
    (below : current < depth nextHash index query)
    (aligned : current % jumpSize = 0 ∨ current = query.length - 1)
    (enough : query.length - 1 ≤ current + fuel) : Outcome nextHash index query rank jumpSize
      (jumpLoop nextHash jumpSize index query fuel current state) := by
  induction fuel generalizing current state with
  | zero => exact settled.finished below enough
  | succ fuel ih =>
    by_cases inside : current < query.length - 1
    · obtain ⟨deepest, ranks⟩ := ranked.lt_depth_iff.mp below
      have busy := ne_nil_of_mem ((settled.active deepest).mpr ranks)
      obtain ⟨next, stride⟩ : ∃ next, next = min (current + jumpSize) (query.length - 1) := ⟨_, rfl⟩
      have start : current % jumpSize = 0 := aligned.resolve_right (by omega)
      rw [jumpLoop_succ busy inside stride settled.valid]
      by_cases passes : depth nextHash index query ≤ next
      · exact settled.stride_past ranked (strideStart_eq positive start below (by omega)) stride below
          passes (by omega) fuel
      · refine ih next (settled.stride_below ranked (by omega) (by omega)) (by omega) ?_ (by omega)
        by_cases last : current + jumpSize ≤ query.length - 1
        · left
          rw [stride, min_eq_left last, add_mod_right]
          exact start
        · right
          omega
    · rw [jumpLoop, if_neg fun more => inside more.1]
      exact settled.finished below (by omega)

end ModelGateway.JumpSearchExact
