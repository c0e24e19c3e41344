import Img2Web.Driver.RetryPolicy

/-!
One request of the application, from the session's queue until its future is
set. It goes through the hosts of its query plan, waits for a connection where
there is none, and is called back by the connection it was written to, at most
once for each time (`Proper`). A `SetKeyspaceHandler`, a `PrepareHandler` or a
`SchemaChangeHandler` may be called back in its place.

Which hosts are ready, which of their connections take the request, and what
comes back, is up to the events. Metrics, latencies and log lines are left out.
-/

namespace Img2Web.Driver

inductive RequestKind where
  | query
  | prepare
  | execute (skipMetadata : Bool)
  | batch
  deriving DecidableEq

inductive ResultKind where
  | rows (noMetadata : Bool)
  | schemaChange
  | other
  deriving DecidableEq

/-- A response, as far as `on_set` tells them apart. An id that a batch knows
is the id of one of its prepared statements. -/
inductive ServerResponse (ρ : Type) where
  | result (kind : ResultKind) (body : ρ)
  | unprepared (known : Bool)
  | readTimeout (consistency : Nat) (received required : Int) (dataPresent : Bool)
  | writeTimeout (consistency : Nat) (received required : Int) (writeType : WriteType)
  | unavailable (consistency : Nat) (required alive : Int)
  | error (code : Int)
  | unexpected

inductive RequestError where
  | noHostsAvailable
  | requestQueueFull
  | requestTimedOut
  | unexpectedResponse
  | messageEncode
  | badParams
  | parameterUnset
  | server (code : Int)
  deriving DecidableEq

/-- What a future is set to, and the host it names. -/
inductive FutureResult (η ρ : Type) where
  | response (host : η) (body : ρ)
  | ignored (host : η)
  | error (host : Option η) (code : RequestError)

/-- `Request::ENCODE_ERROR_*`. -/
inductive RequestEncodeError where
  | unsupportedProtocol
  | batchWithNamedValues
  | parameterUnset
  deriving DecidableEq

/-- What the request is told: by the connection of the first, and by the encoding
itself of the others. -/
def RequestEncodeError.code : RequestEncodeError → RequestError
  | .unsupportedProtocol => .messageEncode
  | .batchWithNamedValues => .badParams
  | .parameterUnset => .parameterUnset

/-- How `Connection::write` takes a request: it has no stream left, it takes a
`SetKeyspaceHandler` first, it takes the request, or it cannot encode it. -/
inductive Written where
  | refused
  | keyspace
  | taken
  | unencodable (error : RequestEncodeError)
  deriving DecidableEq

/-- What `IOWorker::retry` finds at a host. -/
inductive Attempt where
  | unready
  | busy
  | write (written : Written)

/-- `MultipleRequestHandler`, with the response that waits for the agreement.
`waiting` queries are still to be called back. -/
structure Agreement (ρ : Type) where
  body : ρ
  remaining : Nat
  waiting : Nat
  invalid : Bool
  failed : Bool

/-- Who has the request. A keyspace is set on a connection to `host`. -/
inductive Place (η ρ : Type) where
  | queued
  | assigned
  | pending
  | settingKeyspace (host : η)
  | written
  | preparing
  | retryOutstanding
  | agreeing (agreement : Agreement ρ)
  | scheduled (body : ρ)
  | done
  | dropped

/-- `currentHost` is none when the plan is exhausted. `writeOutstanding` says
that a response came before the write was reported. `outcomes` and `tries`,
newest first, are read by nothing. -/
structure RequestHandler (η ρ : Type) where
  kind : RequestKind
  retryPolicy : RetryPolicy
  numRetries : Nat
  consistency : Nat
  plan : List η
  currentHost : Option η
  place : Place η ρ
  writeOutstanding : Bool
  outcomes : List (FutureResult η ρ)
  tries : List (η × Nat)

namespace RequestHandler

variable {η ρ : Type}

def new (kind : RequestKind) (retryPolicy : RetryPolicy) (plan : List η) : RequestHandler η ρ where
  kind := kind
  retryPolicy := retryPolicy
  numRetries := 0
  consistency := Consistency.unknown
  plan := plan
  currentHost := none
  place := .queued
  writeOutstanding := false
  outcomes := []
  tries := []

def nextHost (r : RequestHandler η ρ) : RequestHandler η ρ :=
  match r.plan with
  | [] => {r with currentHost := none}
  | host :: rest => {r with currentHost := some host, plan := rest}

def finish (r : RequestHandler η ρ) (outcome : FutureResult η ρ) : RequestHandler η ρ :=
  {r with outcomes := outcome :: r.outcomes, place := .done}

def setError (r : RequestHandler η ρ) (code : RequestError) : RequestHandler η ρ :=
  r.finish (.error r.currentHost code)

/-- `set_response` and the others that need the current host; `none` is a null
pointer. -/
def finishAtHost (r : RequestHandler η ρ) (outcome : η → FutureResult η ρ) :
    Option (RequestHandler η ρ) :=
  r.currentHost.map fun host => r.finish (outcome host)

def setResponse (r : RequestHandler η ρ) (body : ρ) : Option (RequestHandler η ρ) :=
  r.finishAtHost fun host => .response host body

/-- `Pool::write`, with a connection to `host`; `none` is its answer false. -/
def write (r : RequestHandler η ρ) (host : η) : Written → Option (RequestHandler η ρ)
  | .refused => none
  | .keyspace => some {r with place := .settingKeyspace host}
  | .taken => some {r with place := .written, tries := (host, r.consistency) :: r.tries}
  | .unencodable error => some (r.setError error.code)

/-- One round of `IOWorker::retry`; `none` goes on to the next host. -/
def tryHost (attempt : η → Attempt) (r : RequestHandler η ρ) (host : η) :
    Option (RequestHandler η ρ) :=
  match attempt host with
  | .unready => none
  | .busy => some {r with place := .pending}
  | .write written => r.write host written

/-- The first of the hosts for which `go` succeeds. -/
def firstHost (go : RequestHandler η ρ → η → Option (RequestHandler η ρ))
    (r : RequestHandler η ρ) : List η → RequestHandler η ρ
  | [] => {r with currentHost := none, plan := []}.setError .noHostsAvailable
  | host :: rest =>
      match go {r with currentHost := some host, plan := rest} host with
      | some r' => r'
      | none => r.firstHost go rest

/-- `Session::on_execute`, for one request. -/
def dispatch (r : RequestHandler η ρ) (available : η → Bool) : RequestHandler η ρ :=
  r.firstHost (fun r host => if available host then some {r with place := .assigned} else none)
    r.plan

/-- `IOWorker::retry`. -/
def workerRetry (r : RequestHandler η ρ) (attempt : η → Attempt) : RequestHandler η ρ :=
  match r.currentHost with
  | none => r.setError .noHostsAvailable
  | some host => r.firstHost (tryHost attempt) (host :: r.plan)

/-- `RequestHandler::retry`; `none` is a failed assertion of `set_state`. -/
def retry (r : RequestHandler η ρ) (attempt : η → Attempt) : Option (RequestHandler η ρ) :=
  if r.writeOutstanding then none else some (r.workerRetry attempt)

def retryNext (r : RequestHandler η ρ) (attempt : η → Attempt) : Option (RequestHandler η ρ) :=
  r.nextHost.retry attempt

/-- `num_retries_` is counted last. -/
def handleRetryDecision (r : RequestHandler η ρ) (attempt : η → Attempt) (code : Int)
    (decision : RetryDecision) : Option (RequestHandler η ρ) :=
  let result :=
    match decision with
    | .returnError => r.finishAtHost fun host => .error (some host) (.server code)
    | .retry consistency currentHost =>
        let r := {r with consistency := consistency}
        let r := if currentHost then r else r.nextHost
        if r.writeOutstanding then some {r with place := .retryOutstanding} else r.retry attempt
    | .ignore => r.finishAtHost .ignored
  result.map fun r => {r with numRetries := r.numRetries + 1}

/-- `PrepareHandler::init`. -/
def canPrepare (r : RequestHandler η ρ) (known : Bool) : Bool :=
  match r.kind with
  | .execute _ => true
  | .batch => known
  | _ => false

def onErrorUnprepared (r : RequestHandler η ρ) (known accepted : Bool) (attempt : η → Attempt) :
    Option (RequestHandler η ρ) :=
  if r.canPrepare known then
    if accepted then some {r with place := .preparing} else r.retry attempt
  else some (r.setError .unexpectedResponse)

/-- Where a request is while queries of an agreement are out. -/
def agreementPlace (agreement : Agreement ρ) : Place η ρ :=
  if agreement.waiting = 0 then .done else .agreeing agreement

/-- `MultipleRequestHandler::execute_query`. A query that is refused gives the
response away, and does not count as an error. -/
def executeQuery (r : RequestHandler η ρ) (agreement : Agreement ρ) (accepted : Bool) :
    Option (RequestHandler η ρ × Agreement ρ) :=
  let agreement := {agreement with remaining := agreement.remaining + 1}
  if accepted then some (r, {agreement with waiting := agreement.waiting + 1})
  else (r.setResponse agreement.body).map fun r => (r, agreement)

/-- `SchemaChangeHandler::execute`, with the answers of its two writes. -/
def executeAgreement (r : RequestHandler η ρ) (body : ρ) (accepted : Bool × Bool) :
    Option (RequestHandler η ρ) := do
  let (r, agreement) ← r.executeQuery ⟨body, 0, 0, false, false⟩ accepted.1
  let (r, agreement) ← r.executeQuery agreement accepted.2
  return {r with place := agreementPlace agreement}

def onResult (r : RequestHandler η ρ) (body : ρ) (accepted : Bool × Bool) :
    ResultKind → Option (RequestHandler η ρ)
  | .rows noMetadata =>
      if r.kind = .execute false ∧ noMetadata = true then some (r.setError .unexpectedResponse)
      else r.setResponse body
  | .schemaChange => r.executeAgreement body accepted
  | .other => r.setResponse body

/-- `on_set`; `accepted` is how the connection takes what is written then. -/
def onSet (r : RequestHandler η ρ) (accepted : Bool × Bool) (attempt : η → Attempt) :
    ServerResponse ρ → Option (RequestHandler η ρ)
  | .result kind body => r.onResult body accepted kind
  | .unprepared known => r.onErrorUnprepared known accepted.1 attempt
  | .readTimeout consistency received required dataPresent =>
      r.handleRetryDecision attempt 0x1200
        (r.retryPolicy.onReadTimeout consistency received required dataPresent r.numRetries)
  | .writeTimeout consistency received _ writeType =>
      r.handleRetryDecision attempt 0x1100
        (r.retryPolicy.onWriteTimeout consistency received writeType r.numRetries)
  | .unavailable consistency _ alive =>
      r.handleRetryDecision attempt 0x1000
        (r.retryPolicy.onUnavailable consistency alive r.numRetries)
  | .error code => some (r.setError (.server code))
  | .unexpected => some (r.setError .unexpectedResponse)

end RequestHandler

/-- How a request of the driver's own is called back: with the response it
expects, with an error, with a timeout, or with a response of another kind. -/
inductive Callback where
  | answered
  | failed
  | timeout
  | unexpected

namespace RequestHandler

variable {η ρ : Type}

def onTimeout (r : RequestHandler η ρ) : Option (RequestHandler η ρ) :=
  if r.currentHost.isNone then none else some (r.setError .requestTimedOut)

/-- `SetKeyspaceHandler`, on a connection to `host`. A response of an unexpected
kind is dropped, and the request with it. -/
def onKeyspace (r : RequestHandler η ρ) (host : η) (written : Written) (attempt : η → Attempt) :
    Callback → Option (RequestHandler η ρ)
  | .answered => (r.write host written).or (r.retry attempt)
  | .failed => r.retryNext attempt
  | .timeout => r.onTimeout
  | .unexpected => some {r with place := .dropped}

/-- `PrepareHandler`. -/
def onPrepare (r : RequestHandler η ρ) (attempt : η → Attempt) :
    Callback → Option (RequestHandler η ρ)
  | .answered => r.retry attempt
  | .failed | .timeout => r.retryNext attempt
  | .unexpected => some {r with place := .dropped}

/-- `SchemaChangeHandler::on_set`. `agreed` also stands for having waited long
enough. -/
def onAgreement (r : RequestHandler η ρ) (agreement : Agreement ρ) (agreed : Bool) :
    Option (RequestHandler η ρ) :=
  if agreement.invalid then some {r with place := .dropped}
  else if agreed then r.setResponse agreement.body
  else some {r with place := .scheduled agreement.body}

/-- `MultipleRequestHandler::InternalHandler`, when one of its queries is called
back. -/
def onQuery (r : RequestHandler η ρ) (agreement : Agreement ρ) (agreed : Bool)
    (callback : Callback) : Option (RequestHandler η ρ) :=
  let agreement := {agreement with waiting := agreement.waiting - 1}
  let onResponse (invalid : Bool) :=
    let agreement := {agreement with
      remaining := agreement.remaining - 1, invalid := agreement.invalid || invalid}
    if agreement.remaining = 0 ∧ agreement.failed = false then r.onAgreement agreement agreed
    else some {r with place := agreementPlace agreement}
  match callback with
  | .answered => onResponse false
  | .unexpected => onResponse true
  | .failed | .timeout =>
      (if agreement.failed then some r else r.setResponse agreement.body).map fun r =>
        {r with place := agreementPlace {agreement with failed := true}}

inductive Event (η ρ : Type) where
  | rejected (connected : Bool)
  | dispatched (available : η → Bool)
  | dequeued (attempt : η → Attempt)
  | lent (foreign : Option η) (written : Written) (attempt : η → Attempt)
  | withdrawn (attempt : η → Attempt)
  | keyspace (callback : Callback) (written : Written) (attempt : η → Attempt)
  | set (reply : ServerResponse ρ) (early : Bool) (accepted : Bool × Bool) (attempt : η → Attempt)
  | error (attempt : η → Attempt)
  | timeout
  | reported (attempt : η → Attempt)
  | prepare (callback : Callback) (attempt : η → Attempt)
  | query (callback : Callback) (agreed : Bool)
  | rescheduled (accepted : Bool × Bool)
  | closing

/-- What may happen next: a pool lends the request a connection, or it takes
too long or is closed, while the request is pending there. A request that has
gone on from one host to another gives the connection that it had to the pool
where it is now, so that a pool may lend a connection to a `foreign` host. -/
def Enabled (r : RequestHandler η ρ) : Event η ρ → Prop
  | .rejected _ | .dispatched _ => r.place = .queued
  | .dequeued _ => r.place = .assigned
  | .lent _ _ _ | .withdrawn _ => r.place = .pending
  | .keyspace _ written _ => (∃ host, r.place = .settingKeyspace host) ∧ written ≠ .keyspace
  | .set _ _ _ _ | .error _ | .timeout => r.place = .written
  | .reported _ => r.writeOutstanding = true
  | .prepare _ _ => r.place = .preparing
  | .query _ _ => ∃ agreement, r.place = .agreeing agreement
  | .rescheduled _ | .closing => ∃ body, r.place = .scheduled body

/-- What happens then; `none` is a failed assertion or a null pointer. -/
def perform (r : RequestHandler η ρ) : Event η ρ → Option (RequestHandler η ρ)
  | .rejected connected =>
      some (r.setError (if connected then .requestQueueFull else .noHostsAvailable))
  | .dispatched available => some (r.dispatch available)
  | .dequeued attempt => r.retry attempt
  | .lent foreign written attempt =>
      ((foreign.or r.currentHost).bind (r.write · written)).or (r.retryNext attempt)
  | .withdrawn attempt => r.retryNext attempt
  | .keyspace callback written attempt =>
      match r.place with
      | .settingKeyspace host => r.onKeyspace host written attempt callback
      | _ => none
  | .set reply early accepted attempt =>
      if r.currentHost.isNone then none
      else {r with writeOutstanding := early}.onSet accepted attempt reply
  | .error attempt => r.retryNext attempt
  | .timeout => r.onTimeout
  | .reported attempt =>
      let r := {r with writeOutstanding := false}
      match r.place with
      | .retryOutstanding => r.retry attempt
      | _ => some r
  | .prepare callback attempt => r.onPrepare attempt callback
  | .query callback agreed =>
      match r.place with
      | .agreeing agreement => r.onQuery agreement agreed callback
      | _ => none
  | .rescheduled accepted =>
      match r.place with
      | .scheduled body => r.executeAgreement body accepted
      | _ => none
  | .closing =>
      match r.place with
      | .scheduled body => r.setResponse body
      | _ => none

/-- A run of the request, event by event. -/
inductive Run : RequestHandler η ρ → List (Event η ρ) → RequestHandler η ρ → Prop where
  | nil (r : RequestHandler η ρ) : Run r [] r
  | snoc {r r' r'' : RequestHandler η ρ} {es : List (Event η ρ)} {e : Event η ρ} :
      Run r es r' → r'.Enabled e → r'.perform e = some r'' → Run r (es ++ [e]) r''

end RequestHandler

end Img2Web.Driver
