import Mathlib.Data.List.Basic

/-! Concurrency limiting with a token bucket that is not refilled (`middleware/concurrency.rs`,
`middleware/token_bucket.rs`): the middleware, the queue processor and the waiting tasks it spawns, and
clients that leave at any await point.  Tokens are whole units. -/
namespace ModelGateway.ConcurrencyLimit
open List Bool

structure TokenBucket where
  capacity : Nat
  tokens : Nat
  deriving DecidableEq, Repr

namespace TokenBucket

def new (capacity : Nat) : TokenBucket := ⟨capacity, capacity⟩

/-- `try_acquire(1.0)` without a refill. -/
def tryAcquire (self : TokenBucket) : Option TokenBucket :=
  if 1 ≤ self.tokens then some { self with tokens := self.tokens - 1 } else none

/-- `return_tokens_sync(1.0)`. -/
def returnTokens (self : TokenBucket) : TokenBucket :=
  { self with tokens := min (self.tokens + 1) self.capacity }

end TokenBucket

/-- Where a request is.  A request that waits for its permit may have lost its client: the middleware
future is dropped then, and with it the receiving half of the permit channel. -/
inductive Phase where
  /-- In the queue, for the processor to take. -/
  | queued (present : Bool)
  /-- A spawned task waits for a token. -/
  | waiting (present : Bool)
  /-- The processor or the spawned task has taken a token and is about to send the permit. -/
  | acquired (present : Bool)
  /-- The permit was sent and not yet received. -/
  | granted
  /-- A refusal was sent and not yet received. -/
  | refused
  /-- The middleware holds a token and the handler runs. -/
  | handling
  /-- The response body guards the token. -/
  | streaming
  | done
  deriving DecidableEq, Repr

/-- A request that is being served, or that a token is on its way to. -/
def Phase.holds : Phase → Bool
  | .acquired _ | .granted | .handling | .streaming => true
  | _ => false

/-- A request whose client is still there, or that some task holds a token for. -/
def Phase.inFlight : Phase → Bool
  | .queued present | .waiting present => present
  | .done => false
  | _ => true

/-- The bucket, the requests in the order of their arrival, and the queue of request numbers. -/
structure Limiter where
  bucket : TokenBucket
  requests : List Phase := []
  queue : List Nat := []
  queueSize : Nat
  deriving DecidableEq, Repr

/-- `arrive` carries whether the global limit of the mesh is exceeded, `process` whether the request has
been in the queue for too long. -/
inductive Step where
  | arrive (exceeded : Bool)
  | process (timedOut : Bool)
  | acquire (request : Nat)
  | timeOut (request : Nat)
  | grant (request : Nat)
  | receive (request : Nat)
  | respond (request : Nat)
  | finish (request : Nat)
  | leave (request : Nat)
  deriving DecidableEq, Repr

namespace Limiter

variable (self : Limiter) (request : Nat)

def setPhase (phase : Phase) : Limiter :=
  { self with requests := self.requests.set request phase }

/-- The entry of the middleware: a token at once, a place in the queue, or a refusal. -/
def arrive (exceeded : Bool) : Limiter :=
  if exceeded then { self with requests := self.requests ++ [.done] }
  else match self.bucket.tryAcquire with
    | some bucket => { self with bucket := bucket, requests := self.requests ++ [.handling] }
    | none =>
      if self.queue.length < self.queueSize then
        { self with
            requests := self.requests ++ [.queued true]
            queue := self.queue ++ [self.requests.length] }
      else { self with requests := self.requests ++ [.done] }

/-- `permit_tx.send(..)`, whose failure is ignored when the client is gone. -/
def send (present : Bool) (message : Phase) : Limiter :=
  self.setPhase request (if present then message else .done)

/-- One turn of the queue processor, up to the sending of a permit. -/
def process (timedOut : Bool) : Limiter :=
  match self.queue with
  | [] => self
  | request :: rest =>
    let taken := { self with queue := rest }
    match self.requests[request]? with
    | some (.queued present) =>
      if timedOut then taken.send request present .refused
      else match self.bucket.tryAcquire with
        | some bucket => { taken with bucket := bucket }.setPhase request (.acquired present)
        | none => taken.setPhase request (.waiting present)
    | _ => taken

/-- A spawned task is woken up and tries to take a token. -/
def acquire : Limiter :=
  match self.requests[request]?, self.bucket.tryAcquire with
  | some (.waiting present), some bucket =>
    { self with bucket := bucket }.setPhase request (.acquired present)
  | _, _ => self

/-- The permit is sent for a token that was taken. -/
def grant : Limiter :=
  match self.requests[request]? with
  | some (.acquired present) => self.send request present .granted
  | _ => self

/-- A spawned task gives up. -/
def timeOut : Limiter :=
  match self.requests[request]? with
  | some (.waiting present) => self.send request present .refused
  | _ => self

/-- The middleware receives what was sent to it. -/
def receive : Limiter :=
  match self.requests[request]? with
  | some .granted => self.setPhase request .handling
  | some .refused => self.setPhase request .done
  | _ => self

/-- The handler returns, and the token goes into the guard of the response body. -/
def respond : Limiter :=
  match self.requests[request]? with
  | some .handling => self.setPhase request .streaming
  | _ => self

/-- The response body is sent or dropped. -/
def finish : Limiter :=
  match self.requests[request]? with
  | some .streaming => { self with bucket := self.bucket.returnTokens }.setPhase request .done
  | _ => self

/-- The client leaves: the middleware future is dropped where it is, or the response body. -/
def leave : Limiter :=
  match self.requests[request]? with
  | some (.queued _) => self.setPhase request (.queued false)
  | some (.waiting _) => self.setPhase request (.waiting false)
  | some (.acquired _) => self.setPhase request (.acquired false)
  | some .streaming => self.finish request
  | some _ => self.setPhase request .done
  | none => self

def step : Step → Limiter
  | .arrive exceeded => self.arrive exceeded
  | .process timedOut => self.process timedOut
  | .acquire request => self.acquire request
  | .timeOut request => self.timeOut request
  | .grant request => self.grant request
  | .receive request => self.receive request
  | .respond request => self.respond request
  | .finish request => self.finish request
  | .leave request => self.leave request

/-- The tokens held by requests that are served, or by waiters about to receive one. -/
def held : Nat := self.requests.countP Phase.holds

end Limiter

/-- The states that allowed steps lead to. -/
inductive Reached (capacity queueSize : Nat) (allowed : Limiter → Step → Prop) : Limiter → Prop
  | new : Reached capacity queueSize allowed ⟨.new capacity, [], [], queueSize⟩
  | step {limiter : Limiter} (next : Step) (pre : Reached capacity queueSize allowed limiter)
    (permitted : allowed limiter next) : Reached capacity queueSize allowed (limiter.step next)

/-- No permit is sent to a client that is gone, and no client leaves while a permit is on its way to it
or its handler runs. -/
def Attended (limiter : Limiter) : Step → Prop
  | .grant request => limiter.requests[request]? ≠ some (.acquired false)
  | .leave request =>
    limiter.requests[request]? ≠ some .granted ∧ limiter.requests[request]? ≠ some .handling
  | _ => True

instance (limiter : Limiter) : (step : Step) → Decidable (Attended limiter step)
  | .grant _ => inferInstanceAs (Decidable (_ ≠ _))
  | .leave _ => inferInstanceAs (Decidable (_ ∧ _))
  | .arrive _ | .process _ | .acquire _ | .timeOut _ | .receive _ | .respond _ | .finish _ =>
    inferInstanceAs (Decidable True)

/-! ### Every token is in the bucket or held -/

/-- The tokens in the bucket and those held make up the capacity. -/
structure Balanced (capacity : Nat) (limiter : Limiter) : Prop where
  limit : limiter.bucket.capacity = capacity
  whole : limiter.bucket.tokens + limiter.held = capacity

section
variable {capacity request : Nat} {limiter : Limiter} {pre : Phase} {bucket : TokenBucket}

theorem tryAcquire_eq_some {acquired : TokenBucket} (success : bucket.tryAcquire = some acquired) :
    0 < bucket.tokens ∧ acquired = { bucket with tokens := bucket.tokens - 1 } := by
  unfold TokenBucket.tryAcquire at success
  split at success
  · exact ⟨by omega, (Option.some.inj success).symm⟩
  · cases success

theorem held_setPhase (position : limiter.requests[request]? = some pre) (post : Phase) :
    (limiter.setPhase request post).held + (if pre.holds then 1 else 0) =
      limiter.held + (if post.holds then 1 else 0) := by
  obtain ⟨inside, same⟩ := List.getElem?_eq_some_iff.mp position
  unfold Limiter.held Limiter.setPhase
  rw [countP_set inside, same]
  by_cases holder : pre.holds = true
  · have pos : 0 < limiter.requests.countP Phase.holds :=
      countP_pos_iff.mpr ⟨pre, mem_of_getElem? position, holder⟩
    simp only [holder, if_true]
    omega
  · simp only [holder, false_eq_true, if_false]
    omega

namespace Balanced

variable (balanced : Balanced capacity limiter) {post : Phase} (position : limiter.requests[request]? = some pre)
include balanced position

theorem setPhase (same : post.holds = pre.holds) : Balanced capacity (limiter.setPhase request post) := by
  have count := held_setPhase position post
  rw [same] at count
  have whole := balanced.whole
  refine ⟨balanced.limit, ?_⟩
  show limiter.bucket.tokens + _ = capacity
  omega

theorem take (idle : pre.holds = false) (holder : post.holds = true)
    (acquired : limiter.bucket.tryAcquire = some bucket) :
    Balanced capacity ({ limiter with bucket := bucket }.setPhase request post) := by
  obtain ⟨pos, rfl⟩ := tryAcquire_eq_some acquired
  have count := held_setPhase position post
  rw [idle, holder] at count
  simp only [false_eq_true, if_false, if_true] at count
  have whole := balanced.whole
  refine ⟨balanced.limit, ?_⟩
  show limiter.bucket.tokens - 1 + (limiter.setPhase request post).held = capacity
  omega

theorem refuse (idle : pre.holds = false) (present : Bool) :
    Balanced capacity (limiter.send request present .refused) := by
  unfold Limiter.send
  split
  · exact balanced.setPhase position (by rw [idle]; rfl)
  · exact balanced.setPhase position (by rw [idle]; rfl)

omit position

theorem append {phase : Phase} {queue : List Nat} (idle : phase.holds = false) :
    Balanced capacity { limiter with requests := limiter.requests ++ [phase], queue := queue } := by
  refine ⟨balanced.limit, ?_⟩
  have whole := balanced.whole
  unfold Limiter.held at whole ⊢
  rw [countP_append, countP_singleton, if_neg (by rw [idle]; decide)]
  exact whole

theorem arrive (exceeded : Bool) : Balanced capacity (limiter.arrive exceeded) := by
  unfold Limiter.arrive
  split
  · exact balanced.append rfl
  · split
    · next bucket acquired =>
      obtain ⟨pos, rfl⟩ := tryAcquire_eq_some acquired
      refine ⟨balanced.limit, ?_⟩
      have whole := balanced.whole
      unfold Limiter.held at whole ⊢
      rw [countP_append, countP_singleton, if_pos (show Phase.holds .handling = true from rfl)]
      dsimp only
      omega
    · split
      · exact balanced.append rfl
      · exact balanced.append rfl

theorem process (timedOut : Bool) : Balanced capacity (limiter.process timedOut) := by
  unfold Limiter.process
  split
  · exact balanced
  · next request rest _ =>
    have taken : Balanced capacity { limiter with queue := rest } := { balanced with }
    dsimp only
    split
    · next present queued =>
      split
      · exact taken.refuse queued rfl present
      · split
        · next bucket acquired => exact taken.take queued rfl rfl acquired
        · exact taken.setPhase queued rfl
    · exact taken

theorem acquire (request : Nat) : Balanced capacity (limiter.acquire request) := by
  unfold Limiter.acquire
  split
  · next waiting acquired => exact balanced.take waiting rfl rfl acquired
  · exact balanced

theorem grant (attended : Attended limiter (.grant request)) : Balanced capacity (limiter.grant request) := by
  unfold Limiter.grant
  split
  · next present acquired =>
    cases present with
    | true => exact balanced.setPhase acquired rfl
    | false => exact absurd acquired attended
  · exact balanced

theorem timeOut (request : Nat) : Balanced capacity (limiter.timeOut request) := by
  unfold Limiter.timeOut
  split
  · next present waiting => exact balanced.refuse waiting rfl present
  · exact balanced

theorem receive (request : Nat) : Balanced capacity (limiter.receive request) := by
  unfold Limiter.receive
  split
  · next granted => exact balanced.setPhase granted rfl
  · next refused => exact balanced.setPhase refused rfl
  · exact balanced

theorem respond (request : Nat) : Balanced capacity (limiter.respond request) := by
  unfold Limiter.respond
  split
  · next handling => exact balanced.setPhase handling rfl
  · exact balanced

theorem finish (request : Nat) : Balanced capacity (limiter.finish request) := by
  unfold Limiter.finish
  split
  · next streaming =>
    have count := held_setPhase streaming .done
    simp only [Phase.holds, false_eq_true, if_false, if_true] at count
    have whole := balanced.whole
    have limit := balanced.limit
    refine ⟨limit, ?_⟩
    show min (limiter.bucket.tokens + 1) limiter.bucket.capacity + (limiter.setPhase request .done).held = capacity
    omega
  · exact balanced

theorem leave (attended : Attended limiter (.leave request)) : Balanced capacity (limiter.leave request) := by
  unfold Limiter.leave
  split
  · next queued => exact balanced.setPhase queued rfl
  · next waiting => exact balanced.setPhase waiting rfl
  · next acquired => exact balanced.setPhase acquired rfl
  · exact balanced.finish request
  · next phase _ _ notAcquired notStreaming position =>
    cases phase with
    | granted => exact absurd position attended.1
    | handling => exact absurd position attended.2
    | streaming => exact absurd rfl notStreaming
    | acquired present => exact absurd rfl (notAcquired present)
    | queued _ | waiting _ | refused | done => exact balanced.setPhase position rfl
  · exact balanced

theorem step {next : Step} (attended : Attended limiter next) : Balanced capacity (limiter.step next) := by
  cases next with
  | arrive exceeded => exact balanced.arrive exceeded
  | process timedOut => exact balanced.process timedOut
  | acquire request => exact balanced.acquire request
  | timeOut request => exact balanced.timeOut request
  | grant request => exact balanced.grant attended
  | receive request => exact balanced.receive request
  | respond request => exact balanced.respond request
  | finish request => exact balanced.finish request
  | leave request => exact balanced.leave attended

theorem full (idle : ∀ phase ∈ limiter.requests, phase.inFlight = false) : limiter.bucket.tokens = capacity := by
  have none_held : limiter.held = 0 := by
    apply countP_eq_zero.mpr
    intro phase mem holder
    have grounded := idle phase mem
    cases phase <;> simp_all [Phase.holds, Phase.inFlight]
  have whole := balanced.whole
  omega

end Balanced

/-- In every state the tokens in the bucket and those held make up the capacity, and the bucket is full
when no request is in flight, if permits only go to clients that are there and clients that have a permit
stay until their handler returns. -/
theorem tokens_conserved {queueSize : Nat} (reached : Reached capacity queueSize Attended limiter) :
    limiter.bucket.tokens + limiter.held = capacity ∧
      ((∀ phase ∈ limiter.requests, phase.inFlight = false) → limiter.bucket.tokens = capacity) := by
  have balanced : Balanced capacity limiter := by
    induction reached with
    | new => exact ⟨rfl, rfl⟩
    | step next pre permitted ih => exact ih.step permitted
  exact ⟨balanced.whole, balanced.full⟩

end

/-- A request that is queued behind another gets the token the other returns. -/
theorem queued_request_served : ∃ limiter, Reached 1 1 Attended limiter ∧ limiter.requests = [.done, .handling] ∧
      limiter.bucket.tokens + limiter.held = 1 := by
  have first := Reached.step (.respond 0) (.step (.arrive false) (.step (.arrive false)
    (@Reached.new 1 1 Attended) trivial) trivial) trivial
  have second := Reached.step (.grant 1) (.step (.process false) (.step (.finish 0) first
    trivial) trivial) (by decide)
  have served := Reached.step (.receive 1) second trivial
  exact ⟨_, served, rfl, (tokens_conserved served).1⟩

/-- A client that leaves while its handler runs takes its token with it. -/
theorem abandoned_token_lost : ∃ limiter, Reached 1 0 (fun _ _ => True) limiter ∧
      (∀ phase ∈ limiter.requests, phase.inFlight = false) ∧ limiter.bucket.tokens = 0 ∧
      limiter.bucket.tokens + limiter.held ≠ limiter.bucket.capacity := by
  have left := Reached.step (.leave 0) (.step (.arrive false) (@Reached.new 1 0 (fun _ _ => True)) trivial) trivial
  exact ⟨_, left, by decide, rfl, by decide⟩

theorem Limiter.step_tokens_le (self : Limiter) (next : Step) :
    (self.step next).bucket.tokens + (self.step next).held ≤ self.bucket.tokens + self.held := by
  have moved {request pre post} (position : self.requests[request]? = some pre) := held_setPhase position post
  simp only [held, setPhase] at moved ⊢
  cases next with
  | arrive | process | acquire =>
    simp only [step, arrive, process, acquire, send, setPhase]
    grind [Phase.holds, TokenBucket.tryAcquire]
  | _ =>
    simp only [step, timeOut, grant, receive, respond, leave, finish, send, setPhase]
    grind [Phase.holds, TokenBucket.returnTokens]

/-- Over every run, wherever its clients leave, no more requests hold a token than the capacity. -/
theorem held_within_capacity (capacity queueSize : Nat) (steps : List Step) :
    let limiter := steps.foldl Limiter.step ⟨.new capacity, [], [], queueSize⟩
    limiter.bucket.tokens + limiter.held ≤ capacity := by
  refine foldlRecOn (motive := fun self : Limiter => self.bucket.tokens + self.held ≤ capacity) steps _
    (Nat.le_refl capacity) fun self within next _ => ?_
  exact Nat.le_trans (self.step_tokens_le next) within

end ModelGateway.ConcurrencyLimit
