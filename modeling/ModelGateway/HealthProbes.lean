import Mathlib.Data.List.Basic

/-! Health probes of one worker (`worker/manager.rs`, with the revision check of `worker/registry.rs`).
A worker that replaces another under the same URL takes over its runtime, counters included, at a new
revision (`worker/worker.rs`). -/
namespace ModelGateway.HealthProbes
open List (replicate)

inductive WorkerStatus where
  | pending
  | ready
  | notReady
  | failed
  deriving DecidableEq, Repr

structure WorkerRuntime where
  status : WorkerStatus := .pending
  consecutiveFailures : Nat := 0
  consecutiveSuccesses : Nat := 0
  totalPendingProbes : Nat := 0
  revision : Nat := 0
  deriving DecidableEq, Repr

structure HealthCheckConfig where
  successThreshold : Nat
  failureThreshold : Nat

/-- What a probe keeps from its launch. -/
structure Probe where
  expectedRevision : Nat
  launchedStatus : WorkerStatus

/-- The worker of the health loop, with its probe in flight: `in_flight` allows one. -/
structure HealthLoop where
  worker : WorkerRuntime := {}
  inFlight : Option Probe := none

inductive Event where
  | queueDueProbes
  | applyProbeCompletion (probeOk : Bool)
  | installSharedState

variable (config : HealthCheckConfig)

def computeNextStatus (worker : WorkerRuntime) (probeOk : Bool) :
    WorkerRuntime × Option WorkerStatus :=
  let livenessThreshold := config.failureThreshold * 3
  let maxPendingProbes := config.failureThreshold * 10
  if probeOk then
    let successes := worker.consecutiveSuccesses + 1
    let worker := { worker with consecutiveFailures := 0, consecutiveSuccesses := successes }
    if (worker.status = .pending ∨ worker.status = .notReady) ∧ config.successThreshold ≤ successes then
      ({ worker with consecutiveSuccesses := 0, totalPendingProbes := 0 }, some .ready)
    else if worker.status = .pending ∧ maxPendingProbes ≤ worker.totalPendingProbes then
      ({ worker with consecutiveSuccesses := 0, consecutiveFailures := 0 }, some .failed)
    else (worker, none)
  else
    let failures := worker.consecutiveFailures + 1
    let worker := { worker with consecutiveSuccesses := 0, consecutiveFailures := failures }
    let reset := { worker with consecutiveFailures := 0 }
    match worker.status with
    | .ready => if config.failureThreshold ≤ failures then (reset, some .notReady) else (worker, none)
    | .notReady => if livenessThreshold ≤ failures then (reset, some .failed) else (worker, none)
    | .pending =>
      if maxPendingProbes ≤ worker.totalPendingProbes then (reset, some .failed) else (worker, none)
    | .failed => (worker, none)

/-- The closure of `apply_if_revision`, which an outcome of an earlier revision does not reach. -/
def applyProbeCompletion (worker : WorkerRuntime) (probe : Probe) (probeOk : Bool) : WorkerRuntime :=
  if worker.revision ≠ probe.expectedRevision then worker
  else
    let pending := if probe.launchedStatus = .pending then 1 else 0
    let (worker, candidate) := computeNextStatus config
      { worker with totalPendingProbes := worker.totalPendingProbes + pending } probeOk
    { worker with status := candidate.getD worker.status }

def HealthLoop.step (self : HealthLoop) : Event → HealthLoop
  | .queueDueProbes =>
    if self.inFlight.isSome ∨ self.worker.status = .failed then self
    else { self with inFlight := some ⟨self.worker.revision, self.worker.status⟩ }
  | .applyProbeCompletion probeOk =>
    match self.inFlight with
    | none => self
    | some probe => ⟨applyProbeCompletion config self.worker probe probeOk, none⟩
  | .installSharedState =>
    { self with worker := { self.worker with revision := self.worker.revision + 1 } }

/-- The outcomes of the probes that no replacement came between; the flag tells this of the probe in
flight. -/
def standing : Option Bool → List Event → List Bool
  | _, [] => []
  | probe, .queueDueProbes :: events => standing (some (probe.getD true)) events
  | probe, .installSharedState :: events => standing (probe.map fun _ => false) events
  | probe, .applyProbeCompletion probeOk :: events =>
    if probe = some true then probeOk :: standing none events else standing none events

/-- The status and the outcomes since it was entered, newest first. -/
structure History where
  status : WorkerStatus := .pending
  since : List Bool := []

/-- What an outcome does to the status, by the outcomes since it was entered. -/
def History.next (self : History) (probeOk : Bool) : History :=
  let since := probeOk :: self.since
  match self.status with
  | .pending =>
    if replicate config.successThreshold true <+: since then ⟨.ready, []⟩
    else if config.failureThreshold * 10 ≤ since.length then ⟨.failed, []⟩
    else ⟨.pending, since⟩
  | .ready =>
    if replicate config.failureThreshold false <+: since then ⟨.notReady, []⟩ else ⟨.ready, since⟩
  | .notReady =>
    if replicate config.successThreshold true <+: since then ⟨.ready, []⟩
    else if replicate (config.failureThreshold * 3) false <+: since then ⟨.failed, []⟩
    else ⟨.notReady, since⟩
  | .failed => self

/-- The counter is the length of the run of such outcomes at the front. -/
def Counts (ok : Bool) (since : List Bool) (counter : Nat) : Prop :=
  ∀ count, replicate count ok <+: since ↔ count ≤ counter

theorem counts_cons {ok : Bool} {since : List Bool} {counter : Nat} (counts : Counts ok since counter)
    (probeOk : Bool) :
    Counts ok (probeOk :: since) (if probeOk = ok then counter + 1 else 0) := by
  intro count
  cases count with
  | zero => simp
  | succ count =>
    rw [List.replicate_succ, List.cons_prefix_cons, counts count]
    grind

theorem counts_nil (ok : Bool) : Counts ok [] 0 := by
  intro count
  simp [List.prefix_nil]

/-- What the counters of the worker say of the history. -/
structure Counted (worker : WorkerRuntime) (history : History) : Prop where
  status : worker.status = history.status
  successes : Counts true history.since worker.consecutiveSuccesses
  failures : Counts false history.since worker.consecutiveFailures
  pending : history.status = .pending → worker.totalPendingProbes = history.since.length

/-- The probe in flight and the flag that tells whether its outcome stands. -/
inductive Flagged (worker : WorkerRuntime) : Option Probe → Option Bool → Prop
  | idle : Flagged worker none none
  | current (alive : worker.status ≠ .failed) :
    Flagged worker (some ⟨worker.revision, worker.status⟩) (some true)
  | stale {probe : Probe} (replaced : probe.expectedRevision < worker.revision) :
    Flagged worker (some probe) (some false)
  | failed {flag : Option Bool} (failed : worker.status = .failed) : Flagged worker none flag

variable {config}

section
variable (succeeds : 1 ≤ config.successThreshold) (fails : 1 ≤ config.failureThreshold)
include succeeds fails

theorem Counted.apply {worker : WorkerRuntime} {history : History} (counted : Counted worker history)
    (alive : worker.status ≠ .failed) (probeOk : Bool) :
    Counted (applyProbeCompletion config worker ⟨worker.revision, worker.status⟩ probeOk)
      (history.next config probeOk) := by
  obtain ⟨status, successes, failures, pending⟩ := counted
  have nextSuccesses := counts_cons successes probeOk
  have nextFailures := counts_cons failures probeOk
  -- the counters and the outcomes meet the same thresholds
  simp only [applyProbeCompletion, History.next, nextSuccesses _, nextFailures _, ← status]
  cases entered : worker.status with
  | failed => exact absurd entered alive
  | pending | ready | notReady => cases probeOk <;> grind [counts_nil, Counted, computeNextStatus]

theorem status_foldl {worker : WorkerRuntime} {inFlight : Option Probe} {flag : Option Bool}
    {history : History} (counted : Counted worker history) (flagged : Flagged worker inFlight flag)
    (events : List Event) :
    (events.foldl (HealthLoop.step config) ⟨worker, inFlight⟩).worker.status =
      ((standing flag events).foldl (History.next config) history).status := by
  induction events generalizing worker inFlight flag history with
  | nil => exact counted.status
  | cons event events ih =>
    rw [List.foldl_cons]
    cases event with
    | queueDueProbes =>
      rw [HealthLoop.step]
      cases flagged with
      | idle =>
        split
        next failed => exact ih counted (.failed (by simpa using failed))
        next alive => exact ih counted (.current (by simpa using alive))
      | current alive => exact ih counted (.current alive)
      | stale replaced => exact ih counted (.stale replaced)
      | failed failed =>
        rw [if_pos (.inr failed)]
        exact ih counted (.failed failed)
    | installSharedState =>
      refine ih ⟨counted.status, counted.successes, counted.failures, counted.pending⟩ ?_
      cases flagged with
      | idle => exact .idle
      | current => exact .stale (Nat.lt_succ_self _)
      | stale replaced => exact .stale (Nat.lt_succ_of_lt replaced)
      | failed failed => exact .failed failed
    | applyProbeCompletion probeOk =>
      cases flagged with
      | idle => exact ih counted .idle
      | current alive => exact ih (counted.apply succeeds fails alive probeOk) .idle
      | stale replaced =>
        have kept : applyProbeCompletion config worker _ probeOk = worker := if_pos (Nat.ne_of_gt replaced)
        exact ih (kept.symm ▸ counted) .idle
      | failed failed =>
        have kept : history.next config probeOk = history := by
          simp [History.next, ← counted.status, failed]
        rw [standing]
        split
        · rw [List.foldl_cons, kept]
          exact ih counted .idle
        · exact ih counted .idle

end

/-- The status is the one that the outcomes of the probes without a replacement since their launch give. -/
theorem status_follows_outcomes (succeeds : 1 ≤ config.successThreshold)
    (fails : 1 ≤ config.failureThreshold) (events : List Event) :
    (events.foldl (HealthLoop.step config) {}).worker.status =
      ((standing none events).foldl (History.next config) {}).status :=
  status_foldl succeeds fails ⟨rfl, counts_nil true, counts_nil false, fun _ => rfl⟩ .idle events

/-- The failure of the probe from before the replacement does not keep the worker from `Ready`. -/
theorem replaced_worker_ready : ([.queueDueProbes, .applyProbeCompletion true, .queueDueProbes, .installSharedState,
      .applyProbeCompletion false, .queueDueProbes, .applyProbeCompletion true].foldl
        (HealthLoop.step ⟨2, 3⟩) {}).worker.status = .ready := by
  rw [status_follows_outcomes (by decide) (by decide)]
  rfl

end ModelGateway.HealthProbes
