import Mathlib.Logic.Relation
import Img2Web.Driver.Connection

/-!
A connection, its socket and the server, taking turns in any order. The server
reads requests in the order they were written, answers each at most once, in
any order and at any time, and may send events of its own. `answers k r` says
that `r` is a reply the server may give to the request `k`.
-/

namespace Img2Web.Driver

open Relation

structure World (ι κ ρ : Type) where
  conn : Connection ι κ ρ
  serving : List (Frame κ)
  inbound : List (Message ρ)
  closed : Bool

inductive Event (ι κ ρ : Type) where
  | write (h : ι) (request : κ) (encodable flushImmediately : Bool)
  | flush
  | close
  | read (n : Nat)
  | consume (d : Decision)
  | onWrite (i : Nat) (ok : Bool)
  | finishWrite (d : Decision)
  | timeout (h : ι) (d : Decision)
  | retry (h : ι)
  | onClose
  | receive
  | answer (i : Nat) (body : ρ)
  | event (body : ρ)

namespace World

variable {ι κ ρ : Type} [DecidableEq ι]

def new (protocolVersion : Nat) : World ι κ ρ := ⟨.new protocolVersion, [], [], false⟩

/-- What may happen next. A request is written when it is new or asked for a
retry; a request that was called back may also be retried later, by another one,
as a `PrepareHandler` does. The loop runs a callback to its end before it takes
up the next, and it reports every write the socket took before it reports the
socket closed. -/
def Enabled (answers : κ → ρ → Prop) (w : World ι κ ρ) : Event ι κ ρ → Prop
  | .write h _ _ _ => w.closed = false ∧ w.conn.state h = .new
  | .flush => w.closed = false
  | .close => w.closed = false
  | .read n => w.closed = false ∧ w.conn.task = .idle ∧ w.conn.closing = false ∧
      0 < n ∧ n ≤ w.inbound.length
  | .consume _ => ∃ m rest, w.conn.task = .consuming (m :: rest)
  | .onWrite i _ => w.closed = false ∧ w.conn.task = .idle ∧
      ∃ p, w.conn.pendingWrites[i]? = some p ∧ p.submitted = true
  | .finishWrite _ => ∃ ok h rest, w.conn.task = .completing ok (h :: rest)
  | .timeout h _ => w.closed = false ∧ w.conn.task = .idle ∧ (w.conn.handlers h).timer = true
  | .retry h => w.conn.state h = .new ∨ w.conn.state h = .done ∨
      w.conn.state h = .readBeforeWrite
  | .onClose => w.closed = false ∧ w.conn.task = .idle ∧ w.conn.closing = true ∧
      ∀ p ∈ w.conn.pendingWrites, p.submitted = false
  | .receive => w.conn.outbound ≠ []
  | .answer i body => ∃ f, w.serving[i]? = some f ∧ answers f.request body
  | .event _ => True

/-- What happens then; `none` is a failed assertion. -/
def perform (w : World ι κ ρ) : Event ι κ ρ → Option (World ι κ ρ)
  | .write h request encodable flushImmediately =>
      (w.conn.internalWrite h request encodable flushImmediately).map
        fun result => {w with conn := result.2}
  | .flush => some {w with conn := w.conn.flush}
  | .close => some {w with conn := w.conn.close}
  | .read n =>
      some {w with
        conn := {w.conn with task := .consuming (w.inbound.take n)}
        inbound := w.inbound.drop n}
  | .consume d =>
      match w.conn.task with
      | .consuming (m :: rest) =>
          let task := if rest.isEmpty then Task.idle else Task.consuming rest
          let c := {w.conn with task := task}
          (c.consume m d).map fun c => {w with conn := c}
      | _ => none
  | .onWrite i ok =>
      w.conn.pendingWrites[i]?.map fun p =>
        let c := {w.conn with
          pendingWrites := w.conn.pendingWrites.eraseIdx i
          task := Task.completing ok p.handlers}
        {w with conn := c.endWrite p.handlers}
  | .finishWrite d =>
      match w.conn.task with
      | .completing ok (h :: rest) =>
          let c := {w.conn with task := Task.completing ok rest}
          (c.finishWrite ok h d).map fun c => {w with conn := c.endWrite rest}
      | _ => none
  | .timeout h d => (w.conn.onTimeout h d).map fun c => {w with conn := c}
  | .retry h => (w.conn.setState h .new).map fun c => {w with conn := c}
  | .onClose => w.conn.onClose.map fun c => {w with conn := c, closed := true}
  | .receive =>
      match w.conn.outbound with
      | f :: rest =>
          some {w with conn := {w.conn with outbound := rest}, serving := w.serving ++ [f]}
      | [] => none
  | .answer i body =>
      w.serving[i]?.map fun f =>
        {w with
          serving := w.serving.eraseIdx i, inbound := w.inbound ++ [⟨f.stream, false, body⟩]}
  | .event body => some {w with inbound := w.inbound ++ [⟨-1, true, body⟩]}

def Step (answers : κ → ρ → Prop) (w w' : World ι κ ρ) : Prop :=
  ∃ e, w.Enabled answers e ∧ w.perform e = some w'

def Reachable (answers : κ → ρ → Prop) (protocolVersion : Nat) (w : World ι κ ρ) : Prop :=
  ReflTransGen (Step answers) (new protocolVersion) w

end World

/-- The request that the owner of `h` waits for, if it waits for one. -/
def outstanding {ι κ ρ : Type} [DecidableEq ι] : List (Note ι κ ρ) → ι → Option κ
  | [], _ => none
  | .wrote h' request :: rest, h => if h' = h then some request else outstanding rest h
  | .onSet h' _ :: rest, h => if h' = h then none else outstanding rest h
  | .onError h' :: rest, h => if h' = h then none else outstanding rest h
  | .onTimeout h' :: rest, h => if h' = h then none else outstanding rest h

/-- A request is called back only while its owner waits for it, so once at most
for every time it is written; and what it is given is a reply to the request
that was written. -/
def Proper {ι κ ρ : Type} [DecidableEq ι] (answers : κ → ρ → Prop) : List (Note ι κ ρ) → Prop
  | [] => True
  | .wrote h _ :: rest => outstanding rest h = none ∧ Proper answers rest
  | .onSet h body :: rest =>
      (∃ request, outstanding rest h = some request ∧ answers request body) ∧ Proper answers rest
  | .onError h :: rest => (outstanding rest h).isSome ∧ Proper answers rest
  | .onTimeout h :: rest => (outstanding rest h).isSome ∧ Proper answers rest

namespace Connection

variable {ι κ ρ : Type}

/-- The messages of the current chunk that are still to be consumed. -/
def unread (c : Connection ι κ ρ) : List (Message ρ) :=
  match c.task with
  | .consuming unread => unread
  | _ => []

/-- The requests of a write that is being reported. -/
def finishing (c : Connection ι κ ρ) : List ι :=
  match c.task with
  | .completing _ handlers => handlers
  | _ => []

def handlersOf (writes : List (PendingWrite ι κ)) : List ι :=
  writes.flatMap PendingWrite.handlers

def unflushedOf (writes : List (PendingWrite ι κ)) : List (Frame κ) :=
  (writes.filter fun p => !p.flushed).flatMap PendingWrite.buffers

/-- The requests of the pending writes. -/
def queue (c : Connection ι κ ρ) : List ι := handlersOf c.pendingWrites ++ c.finishing

def unflushed (c : Connection ι κ ρ) : List (Frame κ) := unflushedOf c.pendingWrites

variable [DecidableEq ι]

/-- What is known of one request: its state says where it is filed, how many
references the connection holds, whether its timer runs, whether it has a
stream, and whether its owner waits. -/
structure Consistent (c : Connection ι κ ρ) (h : ι) : Prop where
  reads : c.pendingReads.count h = (c.state h).inReads.toNat
  queue : c.queue.count h = (c.state h).queued.toNat
  refs : c.refs h = (c.state h).inReads.toNat + (c.state h).queued.toNat
  timer : (c.handlers h).timer = (c.state h).active
  numbered : (c.state h).waiting = true → (c.handlers h).stream.isSome
  table : ∀ s, c.streams.pending.lookup s = some h ↔
    (c.handlers h).stream = some s ∧ (c.state h).waiting = true
  history : (outstanding c.history h).isSome = (c.state h).active

/-- The requests of a write that is not flushed, and what was encoded for them. -/
structure Open (c : Connection ι κ ρ) (p : PendingWrite ι κ) : Prop where
  streams : p.buffers.map (fun f => some f.stream) = p.handlers.map fun h => (c.handlers h).stream
  waiting : ∀ h ∈ p.handlers, (c.state h).waiting = true

/-- Frames and messages on their way: at most one for each stream that is in
use, and none for the others. If the owner of the request on a stream still
waits, it is its own request that is on the way, or a reply to it. -/
structure Wire (answers : κ → ρ → Prop) (c : Connection ι κ ρ) (frames : List (Frame κ))
    (messages : List (Message ρ)) : Prop where
  once : ∀ s : Nat, frames.countP (fun f => f.stream = s) +
    messages.countP (fun m => m.stream = (s : Int)) ≤ if s ∈ c.streams.pending then 1 else 0
  frame : ∀ f ∈ frames, ∀ h, c.streams.pending.lookup f.stream = some h →
    (c.state h).active = true → outstanding c.history h = some f.request
  message : ∀ m ∈ messages, ∀ s : Nat, m.stream = (s : Int) → ∀ h,
    c.streams.pending.lookup s = some h → (c.state h).active = true →
      ∃ request, outstanding c.history h = some request ∧ answers request m.body

end Connection

namespace World

variable {ι κ ρ : Type} [DecidableEq ι]

/-- What holds in every reachable world until the connection is closed. Once it
is closing nothing more is read, so nothing is said of what is on its way. -/
structure Invariant (answers : κ → ρ → Prop) (w : World ι κ ρ) : Prop where
  valid : w.conn.streams.Valid
  consistent : ∀ h, w.conn.Consistent h
  opened : ∀ p ∈ w.conn.pendingWrites, p.flushed = false → w.conn.Open p
  near : w.conn.Wire answers w.conn.unflushed w.conn.unread
  far : w.conn.closing = false →
    w.conn.Wire answers (w.conn.unflushed ++ w.conn.outbound ++ w.serving)
      (w.conn.unread ++ w.inbound)
  proper : Proper answers w.conn.history

end World

end Img2Web.Driver
