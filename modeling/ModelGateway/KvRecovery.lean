import ModelGateway.KvSubscription

/-! The KV event subscription together with the servicer of the SGLang backend
(`sglang/servicer.py`): whether the gateway goes on applying batches after one was lost. -/
namespace ModelGateway.KvRecovery
open EventTree EventTreeRuns KvSubscription List Nat

/-- `SubscribeKvEvents` does not read `start_sequence_number`: of the batches published before, none
is sent, and the socket it opens gets the ones published from then on. -/
def subscribeKvEvents (_startSequenceNumber : Nat) : List Nat := []

/-- The gateway's loop, the number the publisher sends next, and the batches on the stream that the
gateway has still to process. -/
structure System where
  gateway : Subscription
  nextNumber : Nat
  inFlight : List Nat := []

/-- `publish reaches` publishes the next batch, which reaches the stream of a connected gateway or is
lost; `close` ends the connection, with what is in flight on it. -/
inductive Move where
  | publish (reaches : Bool)
  | subscribe
  | refuse
  | receive
  | close
  | other (event : Event)
  deriving Inhabited

namespace System

section
variable (hashing : Hashing) (worker : WorkerId) (published : Nat → List KvCacheEvent)

/-- The gateway processes a batch; a gap ends the connection. -/
def process (self : System) (number : Nat) (rest : List Nat) : System :=
  let gateway := self.gateway.step hashing worker (.received ⟨number, published number⟩)
  { self with gateway := gateway
              inFlight := if gateway.connection = .streaming then rest else [] }

def step (self : System) : Move → System
  | .publish reaches =>
    { self with nextNumber := self.nextNumber + 1
                inFlight := if self.gateway.connection = .streaming ∧ reaches then
                    self.inFlight ++ [self.nextNumber]
                  else self.inFlight }
  | .subscribe =>
    { self with gateway := self.gateway.step hashing worker .subscribed
                inFlight := subscribeKvEvents self.gateway.lastSeq }
  | .refuse => { self with gateway := self.gateway.step hashing worker .refused }
  | .receive =>
    match self.inFlight with
    | [] => self
    | number :: rest => self.process hashing worker published number rest
  | .close => { self with gateway := self.gateway.step hashing worker .closed, inFlight := [] }
  | .other event => { self with gateway := self.gateway.step hashing worker (.other event) }

def Enabled (self : System) : Move → Prop
  | .publish _ => True
  | .subscribe | .refuse => self.gateway.connection = .down
  | .receive => self.inFlight ≠ []
  | .close => self.gateway.connection = .streaming
  | .other event => event.worker ≠ worker

end

/-- The state of a subscription that has just been started. -/
structure Fresh (worker : WorkerId) (system : System) : Prop where
  gateway : ∃ fleet, Unlisted worker fleet ∧ system.gateway = { fleet := fleet }
  inFlight : system.inFlight = []

end System

/-- An infinite run of the subscription and the backend. -/
structure Run (hashing : Hashing) (worker : WorkerId) (published : Nat → List KvCacheEvent) where
  state : Nat → System
  move : Nat → Move
  fresh : (state 0).Fresh worker
  enabled : ∀ t, (state t).Enabled worker (move t)
  follows : ∀ t, state (t + 1) = (state t).step hashing worker published (move t)

namespace Run
variable {hashing : Hashing} {worker : WorkerId} {published : Nat → List KvCacheEvent}

variable (run : Run hashing worker published)

def Publishes (t : Nat) : Prop :=
  ∃ reaches, run.move t = .publish reaches

/-- The gateway takes a batch off the stream. -/
def Receives (t number : Nat) : Prop :=
  run.move t = .receive ∧ (run.state t).inFlight.head? = some number

/-- The gateway takes a batch off the stream and applies it. -/
def Applies (t number : Nat) : Prop :=
  run.Receives t number ∧ judge (run.state t).gateway.lastSeq number = .apply

/-- The publisher goes on, and all but finitely many batches reach the connected gateway. -/
structure Delivers (run : Run hashing worker published) : Prop where
  publishes : ∀ bound, ∃ t ≥ bound, run.Publishes t
  receives : ∃ bound, ∀ number ≥ bound, ∃ t, run.Receives t number

end Run

/-- Once the last sequence number is positive the connection stays and every batch reaches it; before
that, no batch is lost behind one that is in flight. -/
def Unbroken (self : System) : Move → Prop
  | .publish reaches =>
    0 < self.gateway.lastSeq ∨ self.inFlight ≠ [] → self.gateway.connection = .streaming ∧ reaches = true
  | .close => self.gateway.lastSeq = 0
  | _ => True

/-- What is in flight runs up to the next batch to be published, and follows the last batch applied
unless the last sequence number is 0. -/
structure InStep (system : System) : Prop where
  flying : ∃ start count, system.inFlight = range' start count ∧ (0 < count → start + count = system.nextNumber) ∧
    (0 < system.gateway.lastSeq → start = system.gateway.lastSeq + 1 ∧ start + count = system.nextNumber)
  connected : system.inFlight ≠ [] → system.gateway.connection = .streaming
  kept : 0 < system.gateway.lastSeq → system.gateway.connection = .streaming

section
variable {hashing : Hashing} {worker : WorkerId} {published : Nat → List KvCacheEvent} {self : System} {number : Nat}

theorem inStep_of_quiet (empty : self.inFlight = []) (zero : self.gateway.lastSeq = 0) : InStep self :=
  ⟨⟨0, 0, empty, nofun, by simp [zero]⟩, by simp [empty], by simp [zero]⟩

theorem System.Fresh.inStep (fresh : self.Fresh worker) : InStep self := by
  obtain ⟨⟨fleet, -, started⟩, empty⟩ := fresh
  exact inStep_of_quiet empty (by rw [started])

theorem judge_next (lastSeq : Nat) : judge lastSeq (lastSeq + 1) = .apply := by
  unfold judge
  rw [if_neg (by omega), if_neg (by omega)]

theorem InStep.applies (inStep : InStep self) (first : self.inFlight.head? = some number) :
    judge self.gateway.lastSeq number = .apply := by
  obtain ⟨start, count, flying, -, follows⟩ := inStep.flying
  rcases Nat.eq_zero_or_pos self.gateway.lastSeq with zero | pos
  · rw [zero]
    simp [judge]
  · cases count with
    | zero => simp [flying] at first
    | succ count =>
      rw [flying, range'_succ, head?_cons] at first
      rw [← Option.some.inj first, (follows pos).1]
      exact judge_next _

theorem InStep.process (inStep : InStep self) {rest : List Nat} (flying : self.inFlight = number :: rest) :
    InStep (self.process hashing worker published number rest) := by
  have applies := inStep.applies (by rw [flying]; rfl)
  have connected := inStep.connected (by rw [flying]; simp)
  have gateway : self.gateway.step hashing worker (.received ⟨number, published number⟩) =
      { self.gateway with
          fleet := applyBatch hashing worker self.gateway.fleet (published number)
          lastSeq := number } := by
    simp only [Subscription.step, Subscription.processBatch, applies]
  obtain ⟨start, count, spelled, upTo, -⟩ := inStep.flying
  cases count with
  | zero => simp [flying] at spelled
  | succ count =>
    rw [flying, range'_succ] at spelled
    obtain ⟨rfl, rest_eq⟩ := cons.inj spelled
    have whole : number + 1 + count = self.nextNumber := by
      have := upTo (by omega)
      omega
    unfold System.process
    rw [gateway]
    simp only [connected, if_true]
    exact ⟨⟨number + 1, count, rest_eq, fun _ => whole, fun _ => ⟨rfl, whole⟩⟩, fun _ => rfl, fun _ => rfl⟩

theorem InStep.step (inStep : InStep self) {move : Move} (enabled : self.Enabled worker move)
    (unbroken : Unbroken self move) : InStep (self.step hashing worker published move) := by
  have idle (down : self.gateway.connection = .down) : self.inFlight = [] ∧ self.gateway.lastSeq = 0 := by
    constructor
    · by_contra flying
      simp [inStep.connected flying] at down
    · by_contra nonzero
      simp [inStep.kept (Nat.pos_of_ne_zero nonzero)] at down
  cases move with
  | publish reaches =>
    obtain ⟨start, count, flying, upTo, follows⟩ := inStep.flying
    simp only [System.step]
    by_cases sent : self.gateway.connection = .streaming ∧ reaches = true
    · rw [if_pos sent]
      refine ⟨?_, fun _ => sent.1, fun _ => sent.1⟩
      rcases Nat.eq_zero_or_pos count with rfl | some_flying
      · -- the first batch in flight, wherever the numbers have got to
        refine ⟨self.nextNumber, 1, by simp [flying], fun _ => rfl, fun pos => ?_⟩
        have next : self.nextNumber = self.gateway.lastSeq + 1 := by
          have := follows pos
          omega
        exact ⟨next, rfl⟩
      · have whole : start + (count + 1) = self.nextNumber + 1 := by
          rw [← upTo some_flying, add_assoc]
        refine ⟨start, count + 1, ?_, fun _ => whole, fun pos => ⟨(follows pos).1, whole⟩⟩
        rw [flying, range'_concat, one_mul, upTo some_flying]
    · rw [if_neg sent]
      have quiet : self.gateway.lastSeq = 0 ∧ self.inFlight = [] := by
        simpa only [not_or, not_lt, le_zero, ne_eq, not_not] using mt unbroken sent
      exact inStep_of_quiet quiet.2 quiet.1
  | subscribe =>
    obtain ⟨empty, zero⟩ := idle enabled
    exact inStep_of_quiet rfl zero
  | refuse => exact { inStep with }
  | close =>
    have zero : self.gateway.lastSeq = 0 := unbroken
    exact inStep_of_quiet rfl zero
  | receive =>
    cases flying : self.inFlight with
    | nil => exact absurd flying enabled
    | cons number rest =>
      have processed : self.step hashing worker published .receive =
          self.process hashing worker published number rest := by
        simp only [System.step, flying]
      rw [processed]
      exact inStep.process flying
  | other event => exact { inStep with }

variable (run : Run hashing worker published)

theorem Run.inStep (unbroken : ∀ t, Unbroken (run.state t) (run.move t)) (t : Nat) : InStep (run.state t) := by
  induction t with
  | zero => exact run.fresh.inStep
  | succ t ih =>
    rw [run.follows t]
    exact ih.step (run.enabled t) (unbroken t)

theorem Run.receives_later (delivers : run.Delivers)
    (bound : Nat) : ∃ t ≥ bound, ∃ number, run.Receives t number := by
  obtain ⟨first, receives⟩ := delivers.receives
  choose moment received using fun number => receives (first + number) (Nat.le_add_right ..)
  have injective : Function.Injective moment := by
    intro one other same
    have here := (received one).2
    rw [same, (received other).2] at here
    have := Option.some.inj here
    omega
  obtain ⟨t, ⟨number, rfl⟩, later⟩ := (Set.infinite_range_of_injective injective).exists_gt bound
  exact ⟨moment number, later.le, first + number, received number⟩

/-- The gateway applies infinitely many batches if nothing is lost once the last sequence number is
positive. -/
theorem applies_infinitely_often (delivers : run.Delivers)
    (unbroken : ∀ t, Unbroken (run.state t) (run.move t)) (bound : Nat) :
    ∃ t ≥ bound, ∃ number, run.Applies t number := by
  obtain ⟨t, later, number, receives⟩ := run.receives_later delivers bound
  exact ⟨t, later, number, receives, (run.inStep unbroken t).applies receives.2⟩

end

/-- A gateway that has nothing to store, with this last sequence number. -/
def idleGateway (lastSeq : Nat) (connection : Connection) : Subscription := ⟨{}, lastSeq, connection⟩

/-- Every batch is published, received and applied. -/
def losslessRun : Run sampleHashing 0 (fun _ => []) where
  state
    | 0 => ⟨idleGateway 0 .down, 0, []⟩
    | t + 1 =>
      if t % 2 = 0 then ⟨idleGateway (t / 2 - 1) .streaming, t / 2, []⟩
      else ⟨idleGateway (t / 2 - 1) .streaming, t / 2 + 1, [t / 2]⟩
  move
    | 0 => .subscribe
    | t + 1 => if t % 2 = 0 then .publish true else .receive
  fresh := ⟨⟨{}, unlisted_empty 0, rfl⟩, rfl⟩
  enabled t := by
    cases t with
    | zero => rfl
    | succ t => by_cases even : t % 2 = 0 <;> simp [even, System.Enabled]
  follows t := by
    cases t with
    | zero => rfl
    | succ t =>
      by_cases even : t % 2 = 0
      · have odd : (t + 1) % 2 ≠ 0 := by omega
        have half : (t + 1) / 2 = t / 2 := by omega
        simp [even, odd, half, System.step, idleGateway]
      · have next : (t + 1) % 2 = 0 := by omega
        have half : (t + 1) / 2 = t / 2 + 1 := by omega
        have applies : judge (t / 2 - 1) (t / 2) = .apply := by
          rcases Nat.eq_zero_or_pos (t / 2) with zero | pos
          · rw [zero]
            rfl
          · have follows := judge_next (t / 2 - 1)
            rwa [Nat.sub_add_cancel pos] at follows
        simp [even, next, half, System.step, System.process, idleGateway, Subscription.step,
          Subscription.processBatch, applies, applyBatch]

theorem lossless_run_applies : losslessRun.Delivers ∧ (∀ t, Unbroken (losslessRun.state t) (losslessRun.move t)) ∧
      ∀ bound, ∃ t ≥ bound, ∃ number, losslessRun.Applies t number := by
  have delivers : losslessRun.Delivers := by
    constructor
    · intro bound
      refine ⟨2 * bound + 1, by omega, true, ?_⟩
      simp [losslessRun]
    · refine ⟨0, fun number _ => ⟨2 * number + 2, ?_, ?_⟩⟩
      · simp [losslessRun, show (2 * number + 1) % 2 = 1 by omega]
      · simp [losslessRun, show (2 * number + 1) % 2 = 1 by omega, show (2 * number + 1) / 2 = number by omega]
  have unbroken : ∀ t, Unbroken (losslessRun.state t) (losslessRun.move t) := by
    intro t
    cases t with
    | zero => trivial
    | succ t => by_cases even : t % 2 = 0 <;> simp [losslessRun, even, Unbroken, idleGateway]
  exact ⟨delivers, unbroken, applies_infinitely_often losslessRun delivers unbroken⟩

/-- Batch 1 is applied and batch 2 is lost.  Every later batch reaches the gateway, which finds a gap
and subscribes again. -/
def lossyRun : Run sampleHashing 0 (fun _ => []) where
  state
    | 0 => ⟨idleGateway 0 .down, 1, []⟩
    | 1 => ⟨idleGateway 0 .streaming, 1, []⟩
    | 2 => ⟨idleGateway 0 .streaming, 2, [1]⟩
    | 3 => ⟨idleGateway 1 .streaming, 2, []⟩
    | t + 4 =>
      if t % 3 = 0 then ⟨idleGateway 1 .streaming, t / 3 + 3, []⟩
      else if t % 3 = 1 then ⟨idleGateway 1 .streaming, t / 3 + 4, [t / 3 + 3]⟩
      else ⟨idleGateway 1 .down, t / 3 + 4, []⟩
  move
    | 0 => .subscribe
    | 1 => .publish true
    | 2 => .receive
    | 3 => .publish false
    | t + 4 => if t % 3 = 0 then .publish true else if t % 3 = 1 then .receive else .subscribe
  fresh := ⟨⟨{}, unlisted_empty 0, rfl⟩, rfl⟩
  enabled t := by
    rcases t with _ | _ | _ | _ | t
    · rfl
    · trivial
    · simp [System.Enabled]
    · trivial
    · by_cases first : t % 3 = 0
      · simp [first, System.Enabled]
      · by_cases second : t % 3 = 1
        · simp [second, System.Enabled]
        · simp [first, second, System.Enabled, idleGateway]
  follows t := by
    rcases t with _ | _ | _ | _ | t
    · rfl
    · rfl
    · rfl
    · rfl
    · by_cases first : t % 3 = 0
      · have next : (t + 1) % 3 = 1 := by omega
        have third : (t + 1) / 3 = t / 3 := by omega
        simp [first, next, third, System.step, idleGateway]
      · by_cases second : t % 3 = 1
        · have next : (t + 1) % 3 = 2 := by omega
          have third : (t + 1) / 3 = t / 3 := by omega
          have gap : judge 1 (t / 3 + 3) = .gap 2 (t / 3 + 3) := by
            unfold judge
            rw [if_neg (by omega), if_pos (by omega)]
          simp [second, next, third, System.step, System.process, idleGateway, Subscription.step,
            Subscription.processBatch, gap]
        · have next : (t + 1) % 3 = 0 := by omega
          have third : (t + 1) / 3 = t / 3 + 1 := by omega
          simp [first, second, next, third, System.step, idleGateway, Subscription.step, subscribeKvEvents]

/-- After one lost batch the gateway rejects every batch, although all of them reach it. -/
theorem lost_batch_stalls : lossyRun.Delivers ∧ ¬ ∀ bound, ∃ t ≥ bound, ∃ number, lossyRun.Applies t number := by
  refine ⟨⟨fun bound => ?_, 3, fun number later => ?_⟩, fun applies => ?_⟩
  · refine ⟨3 * bound + 4, by omega, true, ?_⟩
    simp [lossyRun]
  · obtain ⟨k, rfl⟩ := Nat.exists_eq_add_of_le' later
    refine ⟨3 * k + 5, ?_, ?_⟩
    · simp [lossyRun, show (3 * k + 1) % 3 = 1 by omega]
    · simp [lossyRun, show (3 * k + 1) % 3 = 1 by omega, show (3 * k + 1) / 3 = k by omega]
  · obtain ⟨t, later, number, ⟨receives, first⟩, applied⟩ := applies 4
    obtain ⟨t, rfl⟩ := Nat.exists_eq_add_of_le' later
    have turn : t % 3 = 1 := by
      by_contra other
      by_cases published : t % 3 = 0 <;> simp [lossyRun, published, other] at receives
    have number_eq : t / 3 + 3 = number := by simpa [lossyRun, turn] using first
    have last : (lossyRun.state (t + 4)).gateway.lastSeq = 1 := by
      simp [lossyRun, turn, idleGateway]
    rw [last, ← number_eq] at applied
    rcases judge_apply applied with zero | next
    · cases zero
    · omega

end ModelGateway.KvRecovery
