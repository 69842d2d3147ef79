import ModelGateway.BackgroundRuns

/-! The stream events of a background response.  The numbers of the events have no gaps, whoever appends them.
That the log is closed once the response is terminal, and that it has one writer until then, is left to the
callers: an append is not fenced as `heartbeat` and `finalize` are. -/
namespace ModelGateway.Background
open Json List Option Int

variable {F : Type} {chrono : Chrono} {state : State F} {id : ResponseId} {entry post : Entry F} {call : Call F}

/-- An append that passes the check that `heartbeat` makes, or whose response is queued, new or requeued. -/
def Call.Fenced (state : State F) : Call F → Prop
  | .appendStreamEvent caller id _ _ now => ∀ entry, state.find? id = some entry →
      entry.status = .queued ∨ entry.heldByCaller caller now = true
  | _ => True

def FencedRun (chrono : Chrono) : List (Call F) → State F → Prop
  | [], _ => True
  | call :: rest, state => call.Fenced state ∧ FencedRun chrono rest (perform chrono state call)

theorem FencedRun.at {pre rest : List (Call F)} :
    ∀ {state : State F}, FencedRun chrono (pre ++ call :: rest) state → call.Fenced (run chrono pre state) := by
  induction pre with
  | nil => exact fun fenced => fenced.1
  | cons first pre ih => exact fun fenced => ih fenced.2

theorem Moves.appends (moves : Moves id call (some entry) (some post))
    (here : state.find? id = some entry) (fenced : call.Fenced state)
    (grown : post.streamEvents ≠ entry.streamEvents) :
    ∃ caller eventType data now, call = .appendStreamEvent caller id eventType data now ∧
      (entry.status = .queued ∨ entry.heldByCaller caller now = true) := by
  rcases moves.streamEvents with same | ⟨caller, eventType, data, now, rfl⟩
  · exact absurd same grown
  · exact ⟨caller, eventType, data, now, rfl, fenced entry here⟩

theorem streamEvents_stay : ∀ {calls : List (Call F)} {state : State F} {entry : Entry F},
    FencedRun chrono calls state → Stays chrono id calls state → state.find? id = some entry →
    entry.status.isTerminal = true →
    ∃ post, (run chrono calls state).find? id = some post ∧ post.status = entry.status ∧
      post.streamEvents = entry.streamEvents := by
  intro calls
  induction calls with
  | nil => exact fun _ _ here _ => ⟨_, here, rfl, rfl⟩
  | cons call rest ih =>
    intro state entry fenced stays here ended
    obtain ⟨middle, there⟩ := stays.2.start
    have moves := @perform_moves F chrono state id call
    rw [here, there] at moves
    have status := moves.terminal ended
    have events : middle.streamEvents = entry.streamEvents := by
      by_contra grown
      obtain ⟨caller, eventType, data, now, -, queued | holds⟩ := moves.appends here fenced.1 grown
      · rw [queued] at ended
        cases ended
      · rw [(heldByCaller_iff.mp holds).1] at ended
        cases ended
    obtain ⟨post, last, same, kept⟩ := ih fenced.2 stays.2 there (by rw [status, ended])
    exact ⟨post, last, same.trans status, kept.trans events⟩

theorem filter_numbered {events : List (StoredStreamEvent F)} :
    ∀ {start : Nat}, events.map (·.sequence) = (range' start events.length).map ofNat →
      ∀ post : Int, (events.filter fun event => decide (post < event.sequence)) =
        events.drop ((post + 1).toNat - start) := by
  induction events with
  | nil => simp
  | cons first rest ih =>
    intro start numbered post
    rw [length_cons, range'_succ, map_cons, map_cons, cons.injEq] at numbered
    obtain ⟨here, later⟩ := numbered
    rw [filter_cons, here, ih later post]
    split
    · next above =>
      rw [decide_eq_true_iff] at above
      have first : (post + 1).toNat - start = 0 := by
        simp only [ofNat_eq_natCast] at above
        omega
      have second : (post + 1).toNat - (start + 1) = 0 := by omega
      rw [first, second, drop_zero, drop_zero]
    · next below =>
      rw [decide_eq_true_iff, ofNat_eq_natCast] at below
      have split : (post + 1).toNat - start = (post + 1).toNat - (start + 1) + 1 := by omega
      rw [split, drop_succ_cons]

/-- In every run whose appends are fenced, the events are numbered without gaps and loaded from behind a number, no
event follows the report that a response is terminal, and only the holder of the lease adds events to a response in
progress. -/
theorem fenced_log_closes (chrono : Chrono) (calls : List (Call F)) (fenced : FencedRun chrono calls {}) :
    let state := run chrono calls {}
    (∀ id entry, state.find? id = some entry →
      entry.streamEvents.map (·.sequence) = (List.range entry.streamEvents.length).map ofNat ∧
      loadResumeEvents id none state = .ok ⟨entry.streamEvents, entry.status.isTerminal⟩ ∧
      ∀ post : Int, loadResumeEvents id (some post) state =
        .ok ⟨entry.streamEvents.drop (post + 1).toNat, entry.status.isTerminal⟩) ∧
    (∀ id startingAfter, loadResumeEvents id startingAfter state = .ok ⟨[], true⟩ →
      ∀ more, FencedRun chrono more state → Stays chrono id more state →
        ∀ later, loadResumeEvents id later (run chrono more state) = loadResumeEvents id later state) ∧
    (∀ pre call rest, calls = pre ++ call :: rest →
      ∀ id entry post, (run chrono pre {}).find? id = some entry →
        (run chrono (pre ++ [call]) {}).find? id = some post → entry.status = .inProgress →
        post.streamEvents ≠ entry.streamEvents →
        ∃ caller eventType data now, call = .appendStreamEvent caller id eventType data now ∧
          Leases (run chrono pre {}) id caller now) := by
  intro state
  refine ⟨fun id entry here => ?_, fun id startingAfter reported more moreFenced stays later => ?_, ?_⟩
  · have valid : entry.Valid := valid_of_reached here
    refine ⟨valid.numbered, ?_, fun post => ?_⟩
    · simp only [loadResumeEvents, here, all_none, filter_true]
    · have numbered := valid.numbered
      rw [range_eq_range'] at numbered
      simp only [loadResumeEvents, here, all_some, filter_numbered numbered post, Nat.sub_zero]
  · obtain ⟨entry, here⟩ := stays.start
    simp only [loadResumeEvents, here, Reply.ok.injEq, ResumeEventBatch.mk.injEq] at reported
    obtain ⟨post, there, status, events⟩ := streamEvents_stay moreFenced stays here reported.2
    simp only [loadResumeEvents, here, there, status, events]
  · rintro pre call rest rfl id entry post here there running grown
    have moves := @perform_moves F chrono (run chrono pre {}) id call
    rw [run_append] at there
    have reached : (perform chrono (run chrono pre {}) call).find? id = some post := there
    rw [here, reached] at moves
    obtain ⟨caller, eventType, data, now, rfl, queued | holds⟩ := moves.appends here fenced.at grown
    · rw [running] at queued
      cases queued
    · exact ⟨caller, eventType, data, now, rfl, entry, here, holds⟩

/-- One event of its worker, and the end. -/
def servedCalls : List (Call Empty) :=
  claimedCalls ++ [.appendStreamEvent "a".toList "r".toList "delta".toList .null 1, .finalize sampleFinalize 2]

/-- A reader that has seen the event of a finalized response sees no other. -/
theorem served_log_closes : FencedRun wideChrono servedCalls {} ∧
    loadResumeEvents "r".toList (some 0) (run wideChrono servedCalls {}) = .ok ⟨[], true⟩ ∧
    ∀ later, loadResumeEvents "r".toList later
        (run wideChrono [.requestCancel "r".toList 3, .requeueExpired 99] (run wideChrono servedCalls {})) =
      loadResumeEvents "r".toList later (run wideChrono servedCalls {}) := by
  have fenced : FencedRun wideChrono servedCalls {} :=
    ⟨trivial, trivial, fun entry here => .inr (some.inj here ▸ rfl), trivial, trivial⟩
  have reported : loadResumeEvents "r".toList (some 0) (run wideChrono servedCalls {}) = .ok ⟨[], true⟩ := rfl
  refine ⟨fenced, reported, ?_⟩
  exact (fenced_log_closes wideChrono servedCalls fenced).2.1 "r".toList (some 0) reported _
    ⟨trivial, trivial, trivial⟩ ⟨⟨_, rfl⟩, ⟨_, rfl⟩, _, rfl⟩

/-- A worker appends behind its own `finalize`, and one that never claimed the response appends to it. -/
theorem unfenced_append_logged :
    let finalized := run wideChrono (claimedCalls ++ [.finalize sampleFinalize 2]) {}
    let late := perform wideChrono finalized (.appendStreamEvent "a".toList "r".toList "delta".toList .null 3)
    let claimed := run wideChrono claimedCalls {}
    loadResumeEvents "r".toList none finalized = .ok ⟨[], true⟩ ∧
    loadResumeEvents "r".toList none late = .ok ⟨[⟨"r".toList, 0, "delta".toList, .null, 3⟩], true⟩ ∧
    Leases claimed "r".toList "a".toList 1 ∧ ¬ Leases claimed "r".toList "b".toList 1 ∧
    loadResumeEvents "r".toList none
        (perform wideChrono claimed (.appendStreamEvent "b".toList "r".toList "delta".toList .null 1)) =
      .ok ⟨[⟨"r".toList, 0, "delta".toList, .null, 1⟩], false⟩ := by
  have held : Leases (run wideChrono claimedCalls {}) "r".toList "a".toList 1 := ⟨_, rfl, rfl⟩
  refine ⟨rfl, rfl, held, fun other => ?_, rfl⟩
  exact absurd (held.unique other) (by decide)

end ModelGateway.Background
