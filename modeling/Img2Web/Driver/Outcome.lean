import Img2Web.Driver.Closing

/-!
What the owners of the requests can rely on, in every world a connection can
reach: whatever the order in which requests are written, time out, are
answered, retried and called back, and whenever the connection is closed.
-/

namespace Img2Web.Driver

namespace World

open Connection Relation

variable {ι κ ρ : Type} [DecidableEq ι] {answers : κ → ρ → Prop} {w : World ι κ ρ}
  {protocolVersion : Nat}

/-- An assertion of the driver fails exactly when a request is retried by another
one before its own write is reported. -/
theorem no_assertion_fails (hw : Reachable answers protocolVersion w) {e : Event ι κ ρ}
    (he : w.Enabled answers e) :
    w.perform e = none ↔ ∃ h, e = .retry h ∧ w.conn.state h = .readBeforeWrite := by
  constructor
  · intro hfails
    by_contra hmature
    obtain ⟨w', hw', -⟩ := (Reachable.safe hw).perform he hmature
    rw [hfails] at hw'
    cases hw'
  · exact Premature.fails

set_option maxRecDepth 8000 in
/-- A response comes before the socket reports its request as written. The report
may follow, but the request may not be retried before. -/
theorem no_assertion_fails_early_response :
    ∃ w : World Nat Nat Nat, w.conn.state 5 = .readBeforeWrite ∧
      w.perform (.onWrite 0 true) ≠ none ∧ w.perform (.retry 5) = none := by
  have hwritten : Reachable (fun k r => r = k + 1) 2 (_ : World Nat Nat Nat) :=
    ReflTransGen.refl.tail ⟨.write 5 7 true true, ⟨rfl, rfl⟩, rfl⟩
  have hanswered := (hwritten.tail ⟨.receive, List.cons_ne_nil _ _, rfl⟩).tail
    ⟨.answer 0 8, ⟨_, rfl, rfl⟩, rfl⟩
  have hread := hanswered.tail ⟨.read 1, ⟨rfl, rfl, rfl, by decide, by decide⟩, rfl⟩
  obtain ⟨w, hearly, hstate, henabled⟩ : ∃ w : World Nat Nat Nat,
      Reachable (fun k r => r = k + 1) 2 w ∧ w.conn.state 5 = .readBeforeWrite ∧
        w.Enabled (fun k r => r = k + 1) (.onWrite 0 true) :=
    ⟨_, hread.tail ⟨.consume ⟨false, false⟩, ⟨_, _, rfl⟩, rfl⟩, rfl, rfl, rfl, _, rfl, rfl⟩
  refine ⟨w, hstate, fun hfails => ?_, ?_⟩
  · obtain ⟨h, heq, -⟩ := (no_assertion_fails hearly henabled).mp hfails
    cases heq
  · have hretry : w.Enabled (fun k r => r = k + 1) (.retry 5) := Or.inr (Or.inr hstate)
    exact (no_assertion_fails hearly hretry).mpr ⟨5, rfl, hstate⟩

/-- A request is called back once at most for every time it is written, and a
response it is given answers the request that was written. -/
theorem called_back_properly (hw : Reachable answers protocolVersion w) :
    Proper answers w.conn.history := by
  rcases Reachable.safe hw with ⟨-, hinv⟩ | ⟨-, hsettled⟩
  · exact hinv.proper
  · exact hsettled.proper

set_option maxRecDepth 8000 in
/-- Request 5 times out, request 6 takes another stream, and each of the two
replies comes late and in the other order. -/
theorem called_back_properly_late :
    ∃ w : World Nat Nat Nat, w.conn.history = [.onSet 6 10, .wrote 6 9, .onTimeout 5, .wrote 5 7] ∧
      w.conn.state 5 = .timeoutWriteOutstanding ∧
      Proper (fun k r => r = k + 1) w.conn.history :=
  ⟨_, rfl, rfl, @called_back_properly Nat Nat Nat _ _ _ 2
    (((((((((ReflTransGen.refl.tail
      ⟨.write 5 7 true true, ⟨rfl, rfl⟩, rfl⟩).tail
      ⟨.timeout 5 ⟨false, false⟩, ⟨rfl, rfl, rfl⟩, rfl⟩).tail
      ⟨.write 6 9 true true, ⟨rfl, rfl⟩, rfl⟩).tail
      ⟨.receive, List.cons_ne_nil _ _, rfl⟩).tail
      ⟨.receive, List.cons_ne_nil _ _, rfl⟩).tail
      ⟨.answer 1 10, ⟨_, rfl, rfl⟩, rfl⟩).tail
      ⟨.answer 0 8, ⟨_, rfl, rfl⟩, rfl⟩).tail
      ⟨.read 1, ⟨rfl, rfl, rfl, by decide, by decide⟩, rfl⟩).tail
      ⟨.consume ⟨false, false⟩, ⟨_, _, rfl⟩, rfl⟩)⟩

/-- Two requests never share a stream on their way, and a free stream has
nothing on its way, so a stream is not used again before the late response of a
request that timed out was consumed. -/
theorem streams_not_shared (hw : Reachable answers protocolVersion w)
    (hopen : w.conn.closing = false) (s : Nat) :
    (w.conn.unflushed ++ w.conn.outbound ++ w.serving).countP (fun f => f.stream = s) +
      (w.conn.unread ++ w.inbound).countP (fun m => m.stream = (s : Int)) ≤
        if s ∈ w.conn.streams.pending then 1 else 0 := by
  rcases Reachable.safe hw with ⟨-, hinv⟩ | ⟨-, hsettled⟩
  · exact (hinv.far hopen).once s
  · rw [hsettled.closing] at hopen
    exact Bool.noConfusion hopen

set_option maxRecDepth 8000 in
/-- The late response of a request that timed out. -/
theorem streams_not_shared_late :
    ∃ w : World Nat Nat Nat, w.conn.state 5 = .timeoutWriteOutstanding ∧
      w.inbound = [⟨0, false, 8⟩] ∧
      (w.conn.unflushed ++ w.conn.outbound ++ w.serving).countP (fun f => f.stream = 0) +
        (w.conn.unread ++ w.inbound).countP (fun m => m.stream = 0) ≤
          if 0 ∈ w.conn.streams.pending then 1 else 0 :=
  ⟨_, rfl, rfl, @streams_not_shared Nat Nat Nat _ (fun k r => r = k + 1) _ 2
    ((((ReflTransGen.refl.tail
      ⟨.write 5 7 true true, ⟨rfl, rfl⟩, rfl⟩).tail
      ⟨.timeout 5 ⟨false, false⟩, ⟨rfl, rfl, rfl⟩, rfl⟩).tail
      ⟨.receive, List.cons_ne_nil _ _, rfl⟩).tail
      ⟨.answer 0 8, ⟨_, rfl, rfl⟩, rfl⟩) rfl 0⟩

/-- Where a request is filed, and what its owner can tell, until the connection
is closed: one reference for each list it is in, a timer that runs while its
owner waits, and a stream as long as a response may come. -/
theorem requests_accounted (hw : Reachable answers protocolVersion w)
    (hopen : w.closed = false) (h : ι) :
    w.conn.refs h = w.conn.pendingReads.count h + w.conn.queue.count h ∧
      w.conn.pendingReads.count h ≤ 1 ∧ w.conn.queue.count h ≤ 1 ∧
      ((w.conn.handlers h).timer = true ↔ (outstanding w.conn.history h).isSome) ∧
      ((outstanding w.conn.history h).isSome → ∃ s, w.conn.streams.pending.lookup s = some h) := by
  rcases Reachable.safe hw with ⟨-, hinv⟩ | ⟨hclosed, -⟩
  · have hh := hinv.consistent h
    have hwaits : (outstanding w.conn.history h).isSome → (w.conn.state h).waiting = true := by
      rw [hh.history]
      cases w.conn.state h <;> decide
    refine ⟨?_, ?_, ?_, ?_, ?_⟩
    · rw [hh.reads, hh.queue, hh.refs]
    · rw [hh.reads]
      exact Bool.toNat_le _
    · rw [hh.queue]
      exact Bool.toNat_le _
    · rw [hh.timer, hh.history]
    · intro hsome
      have hwaiting := hwaits hsome
      obtain ⟨s, hs⟩ := Option.isSome_iff_exists.mp (hh.numbered hwaiting)
      exact ⟨s, (hh.table s).mpr ⟨hs, hwaiting⟩⟩
  · rw [hclosed] at hopen
    exact Bool.noConfusion hopen

set_option maxRecDepth 8000 in
/-- A request that was written and not yet reported, after another that timed
out. -/
theorem requests_accounted_written :
    ∃ w : World Nat Nat Nat, w.conn.history = [.wrote 6 9, .onTimeout 5, .wrote 5 7] ∧
      (w.conn.refs 6 = w.conn.pendingReads.count 6 + w.conn.queue.count 6 ∧
        w.conn.pendingReads.count 6 ≤ 1 ∧ w.conn.queue.count 6 ≤ 1 ∧
        ((w.conn.handlers 6).timer = true ↔ (outstanding w.conn.history 6).isSome) ∧
        ((outstanding w.conn.history 6).isSome →
          ∃ s, w.conn.streams.pending.lookup s = some 6)) :=
  ⟨_, rfl, @requests_accounted Nat Nat Nat _ (fun k r => r = k + 1) _ 2
    (((ReflTransGen.refl.tail
      ⟨.write 5 7 true true, ⟨rfl, rfl⟩, rfl⟩).tail
      ⟨.timeout 5 ⟨false, false⟩, ⟨rfl, rfl, rfl⟩, rfl⟩).tail
      ⟨.write 6 9 true true, ⟨rfl, rfl⟩, rfl⟩) rfl 6⟩

/-- When the connection is closed every owner has been called back, and no
request is kept. -/
theorem closed_settles (hw : Reachable answers protocolVersion w) (hclosed : w.closed = true)
    (h : ι) : outstanding w.conn.history h = none ∧ w.conn.refs h = 0 := by
  rcases Reachable.safe hw with ⟨hopen, -⟩ | ⟨-, hsettled⟩
  · rw [hclosed] at hopen
    exact Bool.noConfusion hopen
  · exact ⟨hsettled.history h, hsettled.refs h⟩

set_option maxRecDepth 8000 in
/-- The connection is closed before the response comes. -/
theorem closed_settles_unanswered :
    ∃ w : World Nat Nat Nat, w.conn.history = [.onTimeout 5, .wrote 5 7] ∧
      outstanding w.conn.history 5 = none ∧ w.conn.refs 5 = 0 :=
  ⟨_, rfl, @closed_settles Nat Nat Nat _ (fun k r => r = k + 1) _ 2
    (((((ReflTransGen.refl.tail
      ⟨.write 5 7 true true, ⟨rfl, rfl⟩, rfl⟩).tail
      ⟨.close, rfl, rfl⟩).tail
      ⟨.onWrite 0 true, ⟨rfl, rfl, _, rfl, rfl⟩, rfl⟩).tail
      ⟨.finishWrite ⟨false, false⟩, ⟨_, _, _, rfl⟩, rfl⟩).tail
      ⟨.onClose, ⟨rfl, rfl, rfl, by decide⟩, rfl⟩) rfl 5⟩

/-- A connection that is closing gets closed: however its owners and the server
go on meanwhile, the loop calls back a number of times that is known
beforehand, and it is never out of callbacks before the connection is closed. -/
theorem closing_ends (hw : Reachable answers protocolVersion w)
    (hclosing : w.conn.closing = true) {es : List (Event ι κ ρ)} {w' : World ι κ ρ}
    (hrun : Run answers w es w') :
    es.countP Event.reporting ≤ w.remaining ∧
      (w'.closed = true ∨ ∃ e : Event ι κ ρ, e.reporting = true ∧ w'.Enabled answers e) := by
  obtain ⟨horderly, hclosing', hle⟩ := hrun.remaining (orderly hw) hclosing
  refine ⟨by omega, ?_⟩
  cases hopen : w'.closed with
  | true => exact Or.inl rfl
  | false => exact Or.inr (report_enabled answers horderly hclosing' hopen)

set_option maxRecDepth 8000 in
/-- One write is reported, with its one request, and then the socket. -/
theorem closing_ends_reported :
    ∃ w w' : World Nat Nat Nat, 3 ≤ w.remaining ∧
      (w'.closed = true ∨
        ∃ e : Event Nat Nat Nat, e.reporting = true ∧ w'.Enabled (fun k r => r = k + 1) e) := by
  have hwritten : Reachable (fun k r => r = k + 1) 2 _ :=
    ReflTransGen.refl.tail ⟨.write 5 7 true true, ⟨rfl, rfl⟩, rfl⟩
  exact ⟨_, _, closing_ends (hwritten.tail ⟨.close, rfl, rfl⟩) rfl
    (.cons (e := .onWrite 0 true) ⟨rfl, rfl, _, rfl, rfl⟩ rfl
      (.cons (e := .finishWrite ⟨false, false⟩) ⟨_, _, _, rfl⟩ rfl
        (.cons (e := .onClose) ⟨rfl, rfl, rfl, by decide⟩ rfl (.nil _))))⟩

end World

end Img2Web.Driver
