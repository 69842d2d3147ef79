import ModelGateway.Json
import ModelGateway.KeyedMap

/-! The in-memory repository of background responses (`data_connector/src/memory_background.rs`): a queue with
leases, the responses themselves and the log of their stream events.  Every operation runs under one lock.
What the repository writes into the shared response storage is kept as the list of these writes. -/
namespace ModelGateway.Background
open Json

abbrev ResponseId := Text

abbrev WorkerId := Text

abbrev RequestContext := List (Text × Text)

/-- What the repository takes from `chrono`: lengths of time, and a sum that panics out of range. -/
structure Chrono where
  fromStd : Nat → Except Text Int
  add : Int → Int → Option Int

inductive FinalizeStatus where
  | completed
  | incomplete
  | failed
  | cancelled
  deriving DecidableEq, Repr

inductive InternalStatus where
  | queued
  | inProgress
  | completed
  | incomplete
  | failed
  | cancelled
  deriving DecidableEq, Repr

namespace InternalStatus

def isTerminal : InternalStatus → Bool
  | completed | incomplete | failed | cancelled => true
  | queued | inProgress => false

def fromFinalize : FinalizeStatus → InternalStatus
  | .completed => completed
  | .incomplete => incomplete
  | .failed => failed
  | .cancelled => cancelled

def toFinalize : InternalStatus → Option FinalizeStatus
  | completed => some .completed
  | incomplete => some .incomplete
  | failed => some .failed
  | cancelled => some .cancelled
  | queued | inProgress => none

end InternalStatus

inductive RepositoryError where
  | notFound (responseId : ResponseId)
  | invalidTransition (message : Text)
  | leaseNotHeld (responseId : ResponseId) (workerId : WorkerId)
  | backend (message : Text)
  deriving DecidableEq, Repr

/-- How a call ends. -/
inductive Reply (α : Type) where
  | ok (value : α)
  | err (error : RepositoryError)
  | panicked
  deriving DecidableEq, Repr

variable {F : Type}

def toChrono (chrono : Chrono) (duration : Nat) : Except RepositoryError Int :=
  match chrono.fromStd duration with
  | .ok value => .ok value
  | .error error => .error (.backend ("lease duration out of range for chrono: ".toList ++ error))

def overwriteRawResponseStatus (raw : Value F) (terminal : Text) : Value F :=
  match raw with
  | .object fields => .object (insertField fields "status".toList (.string terminal))
  | other => other

structure StoredStreamEvent (F : Type) where
  responseId : ResponseId
  sequence : Int
  eventType : Text
  data : Value F
  createdAt : Int

structure StoredResponse (F : Type) where
  id : ResponseId
  previousResponseId : Option ResponseId
  input : Value F
  createdAt : Int
  safetyIdentifier : Option Text
  model : Option Text
  conversationId : Option Text
  rawResponse : Value F

structure Entry (F : Type) where
  status : InternalStatus
  requestJson : Value F
  input : Value F
  rawResponse : Value F
  streamEnabled : Bool
  model : Text
  conversationId : Option Text
  previousResponseId : Option ResponseId
  safetyIdentifier : Option Text
  priority : Int
  retryAttempt : Nat
  workerId : Option WorkerId
  leaseExpiresAt : Option Int
  nextAttemptAt : Int
  createdAt : Int
  cancelRequested : Bool
  requestContext : Option RequestContext
  streamEvents : List (StoredStreamEvent F)
  nextStreamSequence : Int
  startedAt : Option Int
  completedAt : Option Int

namespace Entry

variable (self : Entry F)

def toStoredResponse (id : ResponseId) : StoredResponse F :=
  ⟨id, self.previousResponseId, self.input, self.createdAt, self.safetyIdentifier, some self.model,
    self.conversationId, self.rawResponse⟩

/-- What `claim_next` orders the queue by. -/
def rank : Int ×ₗ (Int ×ₗ Int) :=
  toLex (self.priority, toLex (self.nextAttemptAt, self.createdAt))

/-- Queued, and its time has come. -/
def isDue (now : Int) : Bool := self.status = .queued && self.nextAttemptAt ≤ now

def heldByCaller (workerId : WorkerId) (now : Int) : Bool :=
  self.status = .inProgress && self.workerId = some workerId && self.leaseExpiresAt.any (now < ·)

/-- Becomes terminal at the request of a client. -/
def cancel (now : Int) : Entry F :=
  { self with
      status := .cancelled
      completedAt := some now
      rawResponse := overwriteRawResponseStatus self.rawResponse "cancelled".toList }

end Entry

/-- A write into the shared response storage. -/
inductive MirrorWrite (F : Type) where
  | upsert (response : StoredResponse F)
  | delete (id : ResponseId)

structure State (F : Type) where
  entries : KeyedMap ResponseId (Entry F) := ∅
  mirror : List (MirrorWrite F) := []

namespace State

def find? (self : State F) (id : ResponseId) : Option (Entry F) := self.entries.get? id

def setEntry (self : State F) (id : ResponseId) (entry : Entry F) : State F :=
  { self with entries := self.entries.insert id entry }

/-- Sets the entry and writes it into the response storage. -/
def publish (self : State F) (id : ResponseId) (entry : Entry F) : State F :=
  { self.setEntry id entry with mirror := self.mirror ++ [.upsert (entry.toStoredResponse id)] }

end State

/-! ### Queue -/

structure EnqueueRequest (F : Type) where
  responseId : ResponseId
  requestJson : Value F
  input : Value F
  rawResponse : Value F
  streamEnabled : Bool
  priority : Int
  conversationId : Option Text
  model : Text
  safetyIdentifier : Option Text
  previousResponseId : Option ResponseId

structure QueuedResponse where
  responseId : ResponseId
  createdAt : Int
  queueDepthAtInsert : Nat

/-- The entry of a new response. -/
def EnqueueRequest.entry (request : EnqueueRequest F) (requestContext : Option RequestContext) (now : Int) :
    Entry F where
  status := .queued
  requestJson := request.requestJson
  input := request.input
  rawResponse := request.rawResponse
  streamEnabled := request.streamEnabled
  model := request.model
  conversationId := request.conversationId
  previousResponseId := request.previousResponseId
  safetyIdentifier := request.safetyIdentifier
  priority := request.priority
  retryAttempt := 0
  workerId := none
  leaseExpiresAt := none
  nextAttemptAt := now
  createdAt := now
  cancelRequested := false
  requestContext := requestContext
  streamEvents := []
  nextStreamSequence := 0
  startedAt := none
  completedAt := none

def enqueue (request : EnqueueRequest F) (requestContext : Option RequestContext) (now : Int)
    (state : State F) : State F × Reply QueuedResponse :=
  if state.entries.contains request.responseId then
    (state, .err (.invalidTransition ("response ".toList ++ request.responseId ++ " already exists".toList)))
  else
    let next := state.publish request.responseId (request.entry requestContext now)
    (next, .ok ⟨request.responseId, now, (next.entries.values.filter (·.status = .queued)).length⟩)

structure LeasedJob (F : Type) where
  responseId : ResponseId
  retryAttempt : Nat
  priority : Int
  workerId : WorkerId
  leaseExpiresAt : Int
  input : Value F
  requestJson : Value F
  model : Text
  conversationId : Option Text
  previousResponseId : Option ResponseId
  streamEnabled : Bool

/-- The order in which a hash map lists its entries. -/
structure HashOrder (F : Type) where
  list : List (ResponseId × Entry F) → List (ResponseId × Entry F)
  perm : ∀ entries, (list entries).Perm entries

/-- Ranks are compared entry by entry. -/
instance rankPreorder : Preorder (Int ×ₗ (Int ×ₗ Int)) :=
  (inferInstance : LinearOrder (Int ×ₗ (Int ×ₗ Int))).toPreorder

/-- The job that one turn of the loop looks at. -/
def pick (order : HashOrder F) (now : Int) (state : State F) : Option ResponseId :=
  (((order.list state.entries.toList).filter (·.2.isDue now)).argmin (·.2.rank)).map Prod.fst

variable (self : Entry F)

/-- The job of a worker. -/
def Entry.leased (id : ResponseId) (workerId : WorkerId) (expiresAt : Int) : LeasedJob F :=
  ⟨id, self.retryAttempt, self.priority, workerId, expiresAt, self.input, self.requestJson, self.model,
    self.conversationId, self.previousResponseId, self.streamEnabled⟩

def Entry.claim (workerId : WorkerId) (now expiresAt : Int) : Entry F :=
  { self with
      status := .inProgress
      workerId := some workerId
      leaseExpiresAt := some expiresAt
      startedAt := if self.startedAt.isNone then some now else self.startedAt }

/-- The loop of `claim_next`; it has no answer when the fuel runs out. -/
def claimLoop (chrono : Chrono) (order : HashOrder F) (workerId : WorkerId) (now lease : Int) :
    Nat → State F → Option (State F × Reply (Option (LeasedJob F)))
  | 0, _ => none
  | fuel + 1, state =>
    match pick order now state with
    | none => some (state, .ok none)
    | some id =>
      match state.find? id with
      | none =>
        some (state, .err (.backend "claim_next invariant: picked entry missing under write lock".toList))
      | some entry =>
        -- cancelled before it was claimed: no worker gets it, and the next job is looked at
        if entry.cancelRequested then
          claimLoop chrono order workerId now lease fuel (state.publish id (entry.cancel now))
        else
          match chrono.add now lease with
          | none => some (state, .panicked)
          | some expiresAt =>
            some (state.setEntry id (entry.claim workerId now expiresAt),
              .ok (some (entry.leased id workerId expiresAt)))

/-- `claim_next`, with fuel for one turn more than there are entries. -/
def claimNext (chrono : Chrono) (order : HashOrder F) (workerId : WorkerId) (now : Int) (lease : Nat)
    (state : State F) : Option (State F × Reply (Option (LeasedJob F))) :=
  match toChrono chrono lease with
  | .error error => some (state, .err error)
  | .ok lease => claimLoop chrono order workerId now lease (state.entries.size + 1) state

def heartbeat (chrono : Chrono) (responseId : ResponseId) (workerId : WorkerId) (now : Int) (lease : Nat)
    (state : State F) : State F × Reply Unit :=
  match state.find? responseId with
  | none => (state, .err (.notFound responseId))
  | some entry =>
    if !entry.heldByCaller workerId now then (state, .err (.leaseNotHeld responseId workerId))
    else match toChrono chrono lease with
      | .error error => (state, .err error)
      | .ok lease =>
        match chrono.add now lease with
        | none => (state, .panicked)
        | some expiresAt =>
          (state.setEntry responseId { entry with leaseExpiresAt := some expiresAt }, .ok ())

inductive StoredCancelResult where
  | queuedCancelled
  | cancelRequested
  | alreadyTerminal
  | notFound
  deriving DecidableEq, Repr

def requestCancel (responseId : ResponseId) (now : Int) (state : State F) :
    State F × Reply StoredCancelResult :=
  match state.find? responseId with
  | none => (state, .ok .notFound)
  | some entry =>
    match entry.status with
    | .queued =>
      (state.publish responseId { entry.cancel now with workerId := none, leaseExpiresAt := none },
        .ok .queuedCancelled)
    | .inProgress =>
      (state.setEntry responseId { entry with cancelRequested := true }, .ok .cancelRequested)
    | .completed | .incomplete | .failed | .cancelled => (state, .ok .alreadyTerminal)

/-- The largest `i64`. -/
def maxSequence : Int := 2 ^ 63 - 1

def Entry.append (event : StoredStreamEvent F) : Entry F :=
  { self with
      streamEvents := self.streamEvents ++ [event]
      nextStreamSequence := self.nextStreamSequence + 1 }

def appendStreamEvent (responseId : ResponseId) (eventType : Text) (data : Value F) (now : Int)
    (state : State F) : State F × Reply (StoredStreamEvent F) :=
  match state.find? responseId with
  | none => (state, .err (.notFound responseId))
  | some entry =>
    if maxSequence ≤ entry.nextStreamSequence then (state, .err (.backend "sequence overflow".toList))
    else
      let event := ⟨responseId, entry.nextStreamSequence, eventType, data, now⟩
      (state.setEntry responseId (entry.append event), .ok event)

structure ResumeEventBatch (F : Type) where
  events : List (StoredStreamEvent F)
  terminal : Bool

def loadResumeEvents (responseId : ResponseId) (startingAfter : Option Int) (state : State F) :
    Reply (ResumeEventBatch F) :=
  match state.find? responseId with
  | none => .err (.notFound responseId)
  | some entry =>
    .ok ⟨entry.streamEvents.filter fun event => startingAfter.all (· < event.sequence), entry.status.isTerminal⟩

structure FinalizeRequest (F : Type) where
  responseId : ResponseId
  workerId : WorkerId
  status : FinalizeStatus
  rawResponse : Value F
  completedAt : Int

structure FinalizeResult where
  responseId : ResponseId
  finalStatus : FinalizeStatus
  cancelWon : Bool
  deriving DecidableEq, Repr

def Entry.finalize (update : FinalizeRequest F) : Entry F :=
  { self with
      status := .fromFinalize (if self.cancelRequested then .cancelled else update.status)
      rawResponse :=
        if self.cancelRequested then overwriteRawResponseStatus update.rawResponse "cancelled".toList
        else update.rawResponse
      completedAt := some update.completedAt
      workerId := none
      leaseExpiresAt := none }

def finalize (update : FinalizeRequest F) (now : Int) (state : State F) : State F × Reply FinalizeResult :=
  match state.find? update.responseId with
  | none => (state, .err (.notFound update.responseId))
  | some entry =>
    match entry.status.toFinalize with
    | some prior => (state, .ok ⟨update.responseId, prior, false⟩)
    | none =>
      -- the status is not looked at: a lease is there only while the response is in progress
      if entry.workerId ≠ some update.workerId ∨ entry.leaseExpiresAt.any (now < ·) = false then
        (state, .err (.leaseNotHeld update.responseId update.workerId))
      else
        (state.publish update.responseId (entry.finalize update),
          .ok ⟨update.responseId, if entry.cancelRequested then .cancelled else update.status,
            entry.cancelRequested⟩)

/-- In progress with a lease that has run out. -/
def Entry.isExpired (now : Int) : Bool :=
  self.status = .inProgress && self.leaseExpiresAt.any (· ≤ now)

def Entry.requeue (now : Int) : Entry F :=
  { self with
      status := .queued
      workerId := none
      leaseExpiresAt := none
      retryAttempt := min (self.retryAttempt + 1) (2 ^ 32 - 1)
      nextAttemptAt := now }

def requeueExpired (now : Int) (state : State F) : State F × Reply Nat :=
  let expired := state.entries.toList.filter (·.2.isExpired now)
  (expired.foldl (fun state (id, entry) => state.setEntry id (entry.requeue now)) state, .ok expired.length)

inductive DeleteResult where
  | deleted
  | inProgress
  | notFound
  deriving DecidableEq, Repr

def deleteBackgroundResponse (responseId : ResponseId) (state : State F) : State F × Reply DeleteResult :=
  match state.find? responseId with
  | none => (state, .ok .notFound)
  | some entry =>
    if entry.status = .inProgress then (state, .ok .inProgress)
    else
      ({ entries := state.entries.erase responseId, mirror := state.mirror ++ [.delete responseId] }, .ok .deleted)

end ModelGateway.Background
