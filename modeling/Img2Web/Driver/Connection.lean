import Mathlib.Logic.Function.Basic
import Img2Web.Driver.Streams

/-!
One `Connection` of the driver. It writes requests to a socket, gives each a
stream number, and hands every response to the request that waits on its
stream. The request may time out meanwhile, the socket may report a response
before it reports that the request was written, and the connection may be
closed at any moment, so a request goes through the states of
`Handler::State`.

Everything runs on one event loop. A callback of the loop that works through a
list, and may call out to other code for every entry, is kept in `task`.
Availability, water marks, metrics and TLS are left out.
-/

namespace Img2Web.Driver

inductive RequestState where
  | new
  | writing
  | reading
  | timeout
  | timeoutWriteOutstanding
  | readBeforeWrite
  | retryWriteOutstanding
  | done
  deriving DecidableEq

namespace RequestState

/-- The request has not been called back. -/
def active : RequestState → Bool
  | .writing | .reading => true
  | _ => false

/-- Its response has not come. -/
def waiting : RequestState → Bool
  | .writing | .reading | .timeout | .timeoutWriteOutstanding => true
  | _ => false

/-- It is in one of the pending writes. -/
def queued : RequestState → Bool
  | .writing | .timeoutWriteOutstanding | .readBeforeWrite | .retryWriteOutstanding => true
  | _ => false

/-- It is in `pending_reads_`. -/
def inReads : RequestState → Bool
  | .reading | .timeout => true
  | _ => false

end RequestState

structure Handler where
  state : RequestState
  stream : Option Nat
  timer : Bool

/-- `Handler::set_state`; `none` is a failed assertion. A request that times
out before it was written gets a state of its own. -/
def Handler.setState (h : Handler) (next : RequestState) : Option Handler :=
  match h.state, next with
  | .new, .new => some {h with state := .new, stream := none}
  | .new, .writing => some {h with state := .writing}
  | .writing, .reading => some {h with state := .reading}
  | .writing, .readBeforeWrite => some {h with state := .readBeforeWrite, timer := false}
  | .writing, .done => some {h with state := .done, timer := false}
  | .writing, .timeout => some {h with state := .timeoutWriteOutstanding}
  | .reading, .done => some {h with state := .done, timer := false}
  | .reading, .timeout => some {h with state := .timeout}
  | .timeout, .done => some {h with state := .done}
  | .timeoutWriteOutstanding, .timeout => some {h with state := .timeout}
  | .timeoutWriteOutstanding, .readBeforeWrite => some {h with state := .readBeforeWrite}
  | .readBeforeWrite, .done => some {h with state := .done}
  | .readBeforeWrite, .retryWriteOutstanding => some {h with state := .retryWriteOutstanding}
  | .retryWriteOutstanding, .new => some {h with state := .new}
  | .done, .new => some {h with state := .new}
  | _, _ => none

/-- An encoded request, as the server will read it. -/
structure Frame (κ : Type) where
  stream : Nat
  request : κ

/-- A decoded response. Streams of requests are not negative. -/
structure Message (ρ : Type) where
  stream : Int
  isEvent : Bool
  body : ρ

/-- `PendingWriteBase`. A write is `submitted` when the socket took it, and will
report it. -/
structure PendingWrite (ι κ : Type) where
  flushed : Bool
  submitted : Bool
  buffers : List (Frame κ)
  handlers : List ι

/-- What happens to a request, as its owner sees it. -/
inductive Note (ι κ ρ : Type) where
  | wrote (h : ι) (request : κ)
  | onSet (h : ι) (body : ρ)
  | onError (h : ι)
  | onTimeout (h : ι)

/-- The callback of the event loop that is running. -/
inductive Task (ι ρ : Type) where
  | idle
  | consuming (unread : List (Message ρ))
  | completing (ok : Bool) (handlers : List ι)

/-- What a request does when it is called back: it may ask to be written again,
and it may close the connection. -/
structure Decision where
  retry : Bool
  defunct : Bool

/-- `outbound` is what the socket took and the server has not read. `history`,
newest first, is what the owners of the requests have seen; no code reads it. -/
structure Connection (ι κ ρ : Type) where
  handlers : ι → Handler
  refs : ι → Nat
  streams : StreamManager ι
  pendingWrites : List (PendingWrite ι κ)
  pendingReads : List ι
  closing : Bool
  task : Task ι ρ
  outbound : List (Frame κ)
  history : List (Note ι κ ρ)

namespace Connection

variable {ι κ ρ : Type}

def new (protocolVersion : Nat) : Connection ι κ ρ where
  handlers := fun _ => ⟨.new, none, false⟩
  refs := fun _ => 0
  streams := .new protocolVersion
  pendingWrites := []
  pendingReads := []
  closing := false
  task := .idle
  outbound := []
  history := []

def state (c : Connection ι κ ρ) (h : ι) : RequestState := (c.handlers h).state

def note (c : Connection ι κ ρ) (n : Note ι κ ρ) : Connection ι κ ρ :=
  {c with history := n :: c.history}

/-- `internal_close`. The reasons for closing differ in what they log. -/
def close (c : Connection ι κ ρ) : Connection ι κ ρ := {c with closing := true}

def closeIf (c : Connection ι κ ρ) (defunct : Bool) : Connection ι κ ρ :=
  if defunct then c.close else c

/-- The back of `pending_writes_` if it can still take requests, else a new
one, and the writes before it. -/
def openWrite (writes : List (PendingWrite ι κ)) :
    List (PendingWrite ι κ) × PendingWrite ι κ :=
  match writes.getLast? with
  | some back => if back.flushed then (writes, ⟨false, false, [], []⟩) else (writes.dropLast, back)
  | none => ([], ⟨false, false, [], []⟩)

/-- `PendingWriteBase::write`, into the open write. -/
def addWrite (writes : List (PendingWrite ι κ)) (f : Frame κ) (h : ι) :
    List (PendingWrite ι κ) :=
  let (front, back) := openWrite writes
  front ++ [{back with buffers := back.buffers ++ [f], handlers := back.handlers ++ [h]}]

/-- `uv_write` on a closed socket takes nothing and reports nothing. -/
def flush (c : Connection ι κ ρ) : Connection ι κ ρ :=
  match c.pendingWrites.getLast? with
  | some back =>
      if back.flushed || back.buffers.isEmpty then c
      else
        {c with
          pendingWrites := c.pendingWrites.dropLast ++
            [{back with flushed := true, submitted := !c.closing}]
          outbound := if c.closing then c.outbound else c.outbound ++ back.buffers}
  | none => c

/-- The end of `on_write`, when no request is left. -/
def endWrite (c : Connection ι κ ρ) (rest : List ι) : Connection ι κ ρ :=
  if rest.isEmpty then {c with task := .idle}.flush else c

variable [DecidableEq ι]

def setHandler (c : Connection ι κ ρ) (h : ι) (handler : Handler) : Connection ι κ ρ :=
  {c with handlers := Function.update c.handlers h handler}

def setState (c : Connection ι κ ρ) (h : ι) (next : RequestState) :
    Option (Connection ι κ ρ) :=
  ((c.handlers h).setState next).map (c.setHandler h)

def setTimer (c : Connection ι κ ρ) (h : ι) (running : Bool) : Connection ι κ ρ :=
  c.setHandler h {c.handlers h with timer := running}

def incRef (c : Connection ι κ ρ) (h : ι) : Connection ι κ ρ :=
  {c with refs := Function.update c.refs h (c.refs h + 1)}

/-- Only references that the connection took may be given back. -/
def decRef (c : Connection ι κ ρ) (h : ι) : Option (Connection ι κ ρ) :=
  if 0 < c.refs h then some {c with refs := Function.update c.refs h (c.refs h - 1)} else none

/-- `List::remove`, on a node of the list. -/
def removeRead (c : Connection ι κ ρ) (h : ι) : Option (Connection ι κ ρ) :=
  if h ∈ c.pendingReads then some {c with pendingReads := c.pendingReads.erase h} else none

def addRead (c : Connection ι κ ρ) (h : ι) : Connection ι κ ρ :=
  {c with pendingReads := c.pendingReads ++ [h]}

/-- `set_state(REQUEST_STATE_NEW)` of `RequestHandler::retry`. The write that
follows is a call of its own. -/
def retryIf (c : Connection ι κ ρ) (h : ι) (retry : Bool) (next : RequestState) :
    Option (Connection ι κ ρ) :=
  if retry then c.setState h next else some c

/-- `internal_write`, which gives false when there is no stream left. -/
def internalWrite (c : Connection ι κ ρ) (h : ι) (request : κ) (encodable flushImmediately : Bool) :
    Option (Bool × Connection ι κ ρ) :=
  match c.streams.acquire h with
  | (none, streams) => some (false, {c with streams := streams})
  | (some stream, streams) => do
      let c := ({c with streams := streams}.note (.wrote h request)).incRef h
      let c := c.setHandler h {c.handlers h with stream := some stream}
      if encodable then
        let c ← {c with
          pendingWrites := addWrite c.pendingWrites ⟨stream, request⟩ h}.setState h .writing
        let c := c.setTimer h true
        return (true, if flushImmediately then c.flush else c)
      else
        let (front, back) := openWrite c.pendingWrites
        let c := {c with pendingWrites := front ++ [back]}
        let streams ← c.streams.release stream
        let c ← ({c with streams := streams}.note (.onError h)).decRef h
        return (true, c)

/-- One message of `consume`. -/
def consume (c : Connection ι κ ρ) (m : Message ρ) (d : Decision) : Option (Connection ι κ ρ) :=
  if m.stream < 0 then
    if m.isEvent then some c else some c.close
  else
    match c.streams.getPendingAndRelease m.stream.toNat with
    | none => none
    | some (none, streams) => some {c with streams := streams}.close
    | some (some h, streams) => do
        let c := {c with streams := streams}
        match c.state h with
        | .reading =>
            let c ← c.removeRead h
            let c ← (c.setTimer h false).setState h .done
            let c ← (c.note (.onSet h m.body)).retryIf h d.retry .new
            (c.closeIf d.defunct).decRef h
        | .writing =>
            let c ← c.setState h .readBeforeWrite
            let c ← (c.note (.onSet h m.body)).retryIf h d.retry .retryWriteOutstanding
            return c.closeIf d.defunct
        | .timeout =>
            let c ← c.removeRead h
            let c ← c.setState h .done
            c.decRef h
        | .timeoutWriteOutstanding => c.setState h .readBeforeWrite
        | _ => none

/-- One request of the loop in `on_write`. -/
def finishWrite (c : Connection ι κ ρ) (ok : Bool) (h : ι) (d : Decision) :
    Option (Connection ι κ ρ) := do
  match c.state h with
  | .writing =>
      if ok then
        let c ← c.setState h .reading
        return c.addRead h
      else
        let c := c.close
        let stream ← (c.handlers h).stream
        let streams ← c.streams.release stream
        let c ← ({c with streams := streams}.setTimer h false).setState h .done
        let c ← (c.note (.onError h)).retryIf h d.retry .new
        c.decRef h
  | .timeoutWriteOutstanding =>
      let c ← c.setState h .timeout
      return c.addRead h
  | .readBeforeWrite =>
      let c ← (c.setTimer h false).setState h .done
      c.decRef h
  | .retryWriteOutstanding =>
      let c ← (c.setTimer h false).setState h .new
      c.decRef h
  | _ => none

/-- `Timer::on_timeout` and `Connection::on_timeout`. -/
def onTimeout (c : Connection ι κ ρ) (h : ι) (d : Decision) : Option (Connection ι κ ρ) := do
  let c ← (c.setTimer h false).setState h .timeout
  return (c.note (.onTimeout h)).closeIf d.defunct

/-- `cleanup_pending_handlers`, on one request. -/
def cleanupHandler (c : Connection ι κ ρ) (h : ι) : Option (Connection ι κ ρ) :=
  if (c.state h).active then ((c.note (.onTimeout h)).setTimer h false).decRef h
  else c.decRef h

def cleanup (c : Connection ι κ ρ) : List ι → Option (Connection ι κ ρ)
  | [] => some c
  | h :: rest => do
      let c ← c.cleanupHandler h
      c.cleanup rest

/-- `on_close`: all requests in `pending_reads_`, then those of the pending
writes. -/
def onClose (c : Connection ι κ ρ) : Option (Connection ι κ ρ) := do
  let c ← {c with pendingReads := []}.cleanup c.pendingReads
  {c with pendingWrites := []}.cleanup (c.pendingWrites.flatMap PendingWrite.handlers)

section Equations

/-! What each call does to a request that is in the state it expects. -/

variable {c : Connection ι κ ρ} {m : Message ρ} {d : Decision} {h : ι}
  {streams : StreamManager ι}

attribute [local simp] Handler.setState state note close closeIf setHandler setState setTimer
  incRef decRef removeRead addRead retryIf

theorem consume_event (hstream : m.stream < 0) (hevent : m.isEvent = true) :
    c.consume m d = some c := by
  rw [consume, if_pos hstream, if_pos hevent]

/-- Anything else on a negative stream is an error. -/
theorem consume_stray (hstream : m.stream < 0) (hevent : m.isEvent = false) :
    c.consume m d = some c.close := by
  rw [consume, if_pos hstream, hevent]
  rfl

theorem consume_unknown (hstream : 0 ≤ m.stream)
    (hfound : c.streams.getPendingAndRelease m.stream.toNat = some (none, streams)) :
    c.consume m d = some {c with streams := streams}.close := by
  have hneg : ¬ m.stream < 0 := by omega
  simp only [consume, if_neg hneg, hfound]

theorem consume_reading (hstream : 0 ≤ m.stream)
    (hfound : c.streams.getPendingAndRelease m.stream.toNat = some (some h, streams))
    (hstate : (c.handlers h).state = .reading) (hread : h ∈ c.pendingReads)
    (hrefs : 0 < c.refs h) :
    c.consume m d = some {c with
      streams := streams
      pendingReads := c.pendingReads.erase h
      handlers := Function.update c.handlers h
        ⟨if d.retry then .new else .done, (c.handlers h).stream, false⟩
      refs := Function.update c.refs h (c.refs h - 1)
      history := .onSet h m.body :: c.history
      closing := c.closing || d.defunct} := by
  obtain ⟨retry, defunct⟩ := d
  have hneg : ¬ m.stream < 0 := by omega
  simp only [consume, if_neg hneg, hfound, state, hstate]
  cases retry <;> cases defunct <;> simp [hread, hstate, hrefs]

theorem consume_writing (hstream : 0 ≤ m.stream)
    (hfound : c.streams.getPendingAndRelease m.stream.toNat = some (some h, streams))
    (hstate : (c.handlers h).state = .writing) :
    c.consume m d = some {c with
      streams := streams
      handlers := Function.update c.handlers h
        ⟨if d.retry then .retryWriteOutstanding else .readBeforeWrite, (c.handlers h).stream,
          false⟩
      history := .onSet h m.body :: c.history
      closing := c.closing || d.defunct} := by
  obtain ⟨retry, defunct⟩ := d
  have hneg : ¬ m.stream < 0 := by omega
  simp only [consume, if_neg hneg, hfound, state, hstate]
  cases retry <;> cases defunct <;> simp [hstate]

theorem consume_timeout (hstream : 0 ≤ m.stream)
    (hfound : c.streams.getPendingAndRelease m.stream.toNat = some (some h, streams))
    (hstate : (c.handlers h).state = .timeout) (hread : h ∈ c.pendingReads)
    (hrefs : 0 < c.refs h) :
    c.consume m d = some {c with
      streams := streams
      pendingReads := c.pendingReads.erase h
      handlers := Function.update c.handlers h {c.handlers h with state := .done}
      refs := Function.update c.refs h (c.refs h - 1)} := by
  have hneg : ¬ m.stream < 0 := by omega
  simp only [consume, if_neg hneg, hfound, state, hstate]
  simp [hread, hstate, hrefs]

theorem consume_timeoutWriteOutstanding (hstream : 0 ≤ m.stream)
    (hfound : c.streams.getPendingAndRelease m.stream.toNat = some (some h, streams))
    (hstate : (c.handlers h).state = .timeoutWriteOutstanding) :
    c.consume m d = some {c with
      streams := streams
      handlers := Function.update c.handlers h
        {c.handlers h with state := .readBeforeWrite}} := by
  have hneg : ¬ m.stream < 0 := by omega
  simp only [consume, if_neg hneg, hfound, state, hstate]
  simp [hstate]

theorem finishWrite_writing (hstate : (c.handlers h).state = .writing) :
    c.finishWrite true h d = some {c with
      pendingReads := c.pendingReads ++ [h]
      handlers := Function.update c.handlers h {c.handlers h with state := .reading}} := by
  simp [finishWrite, hstate]

theorem finishWrite_failed {s : Nat} (hstate : (c.handlers h).state = .writing)
    (hstream : (c.handlers h).stream = some s) (hrelease : c.streams.release s = some streams)
    (hrefs : 0 < c.refs h) :
    c.finishWrite false h d = some {c with
      streams := streams
      handlers := Function.update c.handlers h ⟨if d.retry then .new else .done, some s, false⟩
      refs := Function.update c.refs h (c.refs h - 1)
      history := .onError h :: c.history
      closing := true} := by
  obtain ⟨retry, defunct⟩ := d
  cases retry <;> simp [finishWrite, hstate, hstream, hrelease, hrefs]

theorem finishWrite_timeoutWriteOutstanding {ok : Bool}
    (hstate : (c.handlers h).state = .timeoutWriteOutstanding) :
    c.finishWrite ok h d = some {c with
      pendingReads := c.pendingReads ++ [h]
      handlers := Function.update c.handlers h {c.handlers h with state := .timeout}} := by
  simp [finishWrite, hstate]

theorem finishWrite_readBeforeWrite {ok : Bool} (hstate : (c.handlers h).state = .readBeforeWrite)
    (hrefs : 0 < c.refs h) :
    c.finishWrite ok h d = some {c with
      handlers := Function.update c.handlers h ⟨.done, (c.handlers h).stream, false⟩
      refs := Function.update c.refs h (c.refs h - 1)} := by
  simp [finishWrite, hstate, hrefs]

theorem finishWrite_retryWriteOutstanding {ok : Bool}
    (hstate : (c.handlers h).state = .retryWriteOutstanding) (hrefs : 0 < c.refs h) :
    c.finishWrite ok h d = some {c with
      handlers := Function.update c.handlers h ⟨.new, (c.handlers h).stream, false⟩
      refs := Function.update c.refs h (c.refs h - 1)} := by
  simp [finishWrite, hstate, hrefs]

theorem onTimeout_active (hactive : (c.handlers h).state.active = true) :
    c.onTimeout h d = some {c with
      handlers := Function.update c.handlers h
        ⟨if (c.handlers h).state = .writing then .timeoutWriteOutstanding else .timeout,
          (c.handlers h).stream, false⟩
      history := .onTimeout h :: c.history
      closing := c.closing || d.defunct} := by
  obtain ⟨retry, defunct⟩ := d
  have hcases : (c.handlers h).state = .writing ∨ (c.handlers h).state = .reading := by
    cases hs : (c.handlers h).state <;> simp [hs, RequestState.active] at hactive ⊢
  rcases hcases with hstate | hstate
  · cases defunct <;> simp [onTimeout, hstate]
  · cases defunct <;> simp [onTimeout, hstate]

/-- A request may be new again when it has left the lists of the connection. -/
theorem setState_new {handler : Handler} (hidle : handler.state = .new ∨ handler.state = .done) :
    ∃ next, handler.setState .new = some next ∧ next.state = .new ∧
      next.timer = handler.timer := by
  rcases hidle with hstate | hstate <;> simp [hstate]

theorem setState_readBeforeWrite (hstate : c.state h = .readBeforeWrite) :
    c.setState h .new = none := by
  have hhandler : (c.handlers h).state = .readBeforeWrite := hstate
  simp [hhandler]

theorem internalWrite_full {request : κ} {encodable flushImmediately : Bool}
    (hacquire : c.streams.acquire h = (none, streams)) :
    c.internalWrite h request encodable flushImmediately =
      some (false, {c with streams := streams}) := by
  simp only [internalWrite, hacquire]

theorem internalWrite_written {request : κ} {flushImmediately : Bool} {s : Nat}
    (hacquire : c.streams.acquire h = (some s, streams)) (hstate : (c.handlers h).state = .new) :
    c.internalWrite h request true flushImmediately =
      let written : Connection ι κ ρ := {c with
        streams := streams
        pendingWrites := addWrite c.pendingWrites ⟨s, request⟩ h
        handlers := Function.update c.handlers h ⟨.writing, some s, true⟩
        refs := Function.update c.refs h (c.refs h + 1)
        history := .wrote h request :: c.history}
      some (true, if flushImmediately then written.flush else written) := by
  simp [internalWrite, hacquire, hstate]

theorem internalWrite_unencodable {request : κ} {flushImmediately : Bool} {s : Nat}
    {released : StreamManager ι} (hacquire : c.streams.acquire h = (some s, streams))
    (hrelease : streams.release s = some released) :
    c.internalWrite h request false flushImmediately =
      some (true, {c with
        streams := released
        pendingWrites := (openWrite c.pendingWrites).1 ++ [(openWrite c.pendingWrites).2]
        handlers := Function.update c.handlers h {c.handlers h with stream := some s}
        history := .onError h :: .wrote h request :: c.history}) := by
  simp [internalWrite, hacquire, hrelease]

theorem cleanupHandler_active (hactive : (c.handlers h).state.active = true)
    (hrefs : 0 < c.refs h) :
    c.cleanupHandler h = some {c with
      handlers := Function.update c.handlers h {c.handlers h with timer := false}
      refs := Function.update c.refs h (c.refs h - 1)
      history := .onTimeout h :: c.history} := by
  simp [cleanupHandler, hactive, hrefs]

theorem cleanupHandler_inactive (hactive : (c.handlers h).state.active = false)
    (hrefs : 0 < c.refs h) :
    c.cleanupHandler h = some {c with refs := Function.update c.refs h (c.refs h - 1)} := by
  simp [cleanupHandler, hactive, hrefs]

end Equations

end Connection

end Img2Web.Driver
