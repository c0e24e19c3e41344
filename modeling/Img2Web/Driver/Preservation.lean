import Img2Web.Driver.Bookkeeping

/-!
What each kind of event does to the invariant of `World`: a request is
written, reported as written, called back, timed out or given up, frames move
on, and the connection is closed.
-/

namespace Img2Web.Driver

namespace World

open Connection

variable {ι κ ρ : Type}

variable [DecidableEq ι] {answers : κ → ρ → Prop} {w : World ι κ ρ}

/-- A write that can still take requests holds none but requests that wait. -/
theorem Invariant.not_open (hw : w.Invariant answers) {p : PendingWrite ι κ} {h : ι}
    (hp : p ∈ w.conn.pendingWrites) (hflushed : p.flushed = false)
    (hstate : (w.conn.state h).waiting = false) : h ∉ p.handlers := by
  intro hmem
  rw [(hw.opened p hp hflushed).waiting h hmem] at hstate
  exact Bool.noConfusion hstate

/-- Flushing keeps the invariant. -/
theorem Invariant.flushed (hw : w.Invariant answers) {c : Connection ι κ ρ}
    (hc : Flushed w.conn c) : ({w with conn := c} : World ι κ ρ).Invariant answers := by
  have hunread : c.unread = w.conn.unread := by rw [unread, unread, hc.task]
  have hfinishing : c.finishing = w.conn.finishing := by rw [finishing, finishing, hc.task]
  constructor
  case valid =>
    show c.streams.Valid
    rw [hc.streams]
    exact hw.valid
  case consistent =>
    intro h
    refine (hw.consistent h).of_same ?_ ?_ ?_ ?_ ?_ ?_
    · rw [hc.handlers]
    · rw [hc.refs]
    · rw [hc.pendingReads]
    · rw [queue, queue, hc.handlersOf, hfinishing]
    · intro s
      rw [hc.streams]
    · rw [hc.history]
  case opened =>
    intro p hp hopen
    apply open_of_same (hw.opened p (hc.opened p hp hopen) hopen)
    intro h hh
    rw [state, state, hc.handlers]
    exact ⟨rfl, id⟩
  case near =>
    apply Wire.of_eq _ hc.handlers (congrArg _ hc.streams) hc.history
    show w.conn.Wire answers c.unflushed c.unread
    rw [hunread]
    apply hw.near.mono
    · exact fun s => Nat.add_le_add_right (hc.less s) _
    · exact hc.subset
    · exact fun _ hm => hm
  case far =>
    intro hopen
    have hopen' : w.conn.closing = false := hc.closing ▸ hopen
    apply Wire.of_eq _ hc.handlers (congrArg _ hc.streams) hc.history
    show w.conn.Wire answers (c.unflushed ++ c.outbound ++ w.serving) (c.unread ++ w.inbound)
    have hperm := (hc.moved hopen').append_right w.serving
    rw [hunread]
    apply (hw.far hopen').mono
    · exact fun s => Nat.add_le_add_right (Nat.le_of_eq (hperm.countP_eq _)) _
    · exact fun f hf => hperm.mem_iff.mp hf
    · exact fun _ hm => hm
  case proper =>
    show Proper answers c.history
    rw [hc.history]
    exact hw.proper

theorem Invariant.flush {c : Connection ι κ ρ} {serving : List (Frame κ)}
    {inbound : List (Message ρ)} {closed : Bool}
    (hw : (⟨c, serving, inbound, closed⟩ : World ι κ ρ).Invariant answers) :
    (⟨c.flush, serving, inbound, closed⟩ : World ι κ ρ).Invariant answers :=
  hw.flushed (flush_spec c)

/-- A request called back for its response has no place in an open write: its
frame was flushed, since the response came. -/
theorem Invariant.consumed_not_open (hw : w.Invariant answers) {m : Message ρ}
    {rest : List (Message ρ)} {s : Nat} {h : ι} (hunread : w.conn.unread = m :: rest)
    (hm : m.stream = (s : Int)) (hlookup : w.conn.streams.pending.lookup s = some h)
    {p : PendingWrite ι κ} (hp : p ∈ w.conn.pendingWrites) (hopen : p.flushed = false) :
    h ∉ p.handlers := by
  intro hmem
  have hone := hw.near.once s
  have hstream := ((hw.consistent h).holder hlookup).1
  have hframe : some s ∈ p.buffers.map fun f => some f.stream := by
    rw [(hw.opened p hp hopen).streams]
    exact List.mem_map.mpr ⟨h, hmem, hstream⟩
  obtain ⟨f, hf, hfs⟩ := List.mem_map.mp hframe
  have hunflushed : f ∈ w.conn.unflushed := by
    rw [unflushed, unflushedOf, List.mem_flatMap]
    exact ⟨p, List.mem_filter.mpr ⟨hp, by simp [hopen]⟩, hf⟩
  have hpos : 0 < w.conn.unflushed.countP (fun f => f.stream = s) :=
    List.countP_pos_iff.mpr ⟨f, hunflushed, by simpa using hfs⟩
  rw [hunread, List.countP_cons, if_pos (by simpa using hm)] at hone
  split at hone <;> omega

/-- The message at the head of the chunk is consumed, and the request on its
stream is called back or dropped. -/
theorem Invariant.consumed (hw : w.Invariant answers) {m : Message ρ} {rest : List (Message ρ)}
    {s : Nat} {h : ι} {c : Connection ι κ ρ} (hunread : w.conn.unread = m :: rest)
    (hm : m.stream = (s : Int)) (hlookup : w.conn.streams.pending.lookup s = some h)
    (hvalid : c.streams.Valid) (hpending : c.streams.pending = w.conn.streams.pending.erase s)
    (hhandlers : ∀ h' ≠ h, c.handlers h' = w.conn.handlers h')
    (hrefs : ∀ h' ≠ h, c.refs h' = w.conn.refs h')
    (hreads : ∀ h' ≠ h, c.pendingReads.count h' = w.conn.pendingReads.count h')
    (hwrites : c.pendingWrites = w.conn.pendingWrites) (hout : c.outbound = w.conn.outbound)
    (hrest : c.unread = rest) (hfinishing : c.finishing = w.conn.finishing)
    (hclosing : c.closing = false → w.conn.closing = false)
    (hactive : (c.state h).active = false)
    (hhistory : ∀ h' ≠ h, outstanding c.history h' = outstanding w.conn.history h')
    (hproper : Proper answers c.history) (hself : c.Consistent h) :
    ({w with conn := c} : World ι κ ρ).Invariant answers := by
  have hkeep : ∀ h', (c.state h').active = true → (w.conn.state h').active = true ∧
      outstanding c.history h' = outstanding w.conn.history h' := by
    intro h' hh'
    have hne : h' ≠ h := by
      intro heq
      rw [heq, hactive] at hh'
      exact Bool.noConfusion hh'
    rw [state, hhandlers h' hne] at hh'
    exact ⟨hh', hhistory h' hne⟩
  have hunflushed : c.unflushed = w.conn.unflushed := by rw [unflushed, unflushed, hwrites]
  constructor
  case valid => exact hvalid
  case consistent =>
    apply consistent_of_self hw.consistent hhandlers hrefs hreads _ _ hhistory hself
    · intro h' _
      rw [queue, queue, hfinishing]
      exact congrArg (fun l => (handlersOf l ++ w.conn.finishing).count h') hwrites
    · intro h' hne s'
      exact hpending ▸ lookup_erase_other hlookup hne s'
  case opened =>
    intro p hp hopen
    have hp' : p ∈ w.conn.pendingWrites := hwrites ▸ hp
    exact open_of_other (hw.opened p hp' hopen) hhandlers
      (hw.consumed_not_open hunread hm hlookup hp' hopen)
  case near =>
    show c.Wire answers c.unflushed c.unread
    have hnear := hw.near
    rw [hunread] at hnear
    rw [hunflushed, hrest]
    exact hnear.consumed hm hpending hkeep
  case far =>
    intro hopen
    have hfar := hw.far (hclosing hopen)
    rw [hunread, List.cons_append] at hfar
    show c.Wire answers (c.unflushed ++ c.outbound ++ w.serving) (c.unread ++ w.inbound)
    rw [hunflushed, hout, hrest]
    exact hfar.consumed hm hpending hkeep
  case proper => exact hproper

/-- A request that is being reported is in no other pending write. -/
theorem Invariant.finishing_notMem (hw : w.Invariant answers) {h : ι} {rest : List ι}
    (hqueue : w.conn.finishing = h :: rest) : h ∉ handlersOf w.conn.pendingWrites := by
  intro hmem
  have hcount := (hw.consistent h).queue
  rw [queue, hqueue, List.count_append, List.count_cons_self] at hcount
  have hpos : 0 < (handlersOf w.conn.pendingWrites).count h := List.count_pos_iff.mpr hmem
  have hle := Bool.toNat_le (w.conn.state h).queued
  omega

/-- A frame that is not flushed is on the stream of a request of its write. -/
theorem Invariant.unflushed_holder (hw : w.Invariant answers) {f : Frame κ}
    (hf : f ∈ w.conn.unflushed) :
    ∃ h ∈ handlersOf w.conn.pendingWrites, w.conn.streams.pending.lookup f.stream = some h := by
  rw [unflushed, unflushedOf, List.mem_flatMap] at hf
  obtain ⟨p, hp, hfp⟩ := hf
  obtain ⟨hp, hopen⟩ := List.mem_filter.mp hp
  have hopened := hw.opened p hp (by simpa using hopen)
  have hstream : some f.stream ∈ p.handlers.map fun h => (w.conn.handlers h).stream := by
    rw [← hopened.streams]
    exact List.mem_map.mpr ⟨f, hfp, rfl⟩
  obtain ⟨h, hh, hs⟩ := List.mem_map.mp hstream
  exact ⟨h, List.mem_flatMap.mpr ⟨p, hp, hh⟩,
    ((hw.consistent h).table f.stream).mpr ⟨hs, hopened.waiting h hh⟩⟩

/-- A request of a write that the socket reports goes on to wait for its
response, or is done with. -/
theorem Invariant.finished (hw : w.Invariant answers) {h : ι} {rest : List ι}
    {c : Connection ι κ ρ} (hqueue : w.conn.finishing = h :: rest)
    (hstreams : c.streams = w.conn.streams)
    (hhandlers : ∀ h' ≠ h, c.handlers h' = w.conn.handlers h')
    (hrefs : ∀ h' ≠ h, c.refs h' = w.conn.refs h')
    (hreads : ∀ h' ≠ h, c.pendingReads.count h' = w.conn.pendingReads.count h')
    (hwrites : c.pendingWrites = w.conn.pendingWrites) (hout : c.outbound = w.conn.outbound)
    (hunread : c.unread = w.conn.unread) (hfinishing : c.finishing = rest)
    (hclosing : c.closing = w.conn.closing) (hhistory : c.history = w.conn.history)
    (hactive : (c.state h).active = true → (w.conn.state h).active = true)
    (hself : c.Consistent h) :
    ({w with conn := c} : World ι κ ρ).Invariant answers := by
  have hkeep : ∀ h', (c.state h').active = true → (w.conn.state h').active = true ∧
      outstanding c.history h' = outstanding w.conn.history h' := by
    intro h' hh'
    rw [hhistory]
    by_cases hne : h' = h
    · subst hne
      exact ⟨hactive hh', rfl⟩
    · rw [state, hhandlers h' hne] at hh'
      exact ⟨hh', rfl⟩
  have hnotin := hw.finishing_notMem hqueue
  have hunflushed : c.unflushed = w.conn.unflushed := by rw [unflushed, unflushed, hwrites]
  constructor
  case valid =>
    show c.streams.Valid
    rw [hstreams]
    exact hw.valid
  case consistent =>
    apply consistent_of_self hw.consistent hhandlers hrefs hreads _ _ _ hself
    · intro h' hne
      have hne' : ¬ h = h' := fun heq => hne heq.symm
      rw [queue, queue, hwrites, hfinishing, hqueue, List.count_append, List.count_append,
        List.count_cons_of_ne hne']
    · intro h' _ s
      rw [hstreams]
    · intro h' _
      rw [hhistory]
  case opened =>
    intro p hp hopen
    have hp' : p ∈ w.conn.pendingWrites := hwrites ▸ hp
    apply open_of_other (hw.opened p hp' hopen) hhandlers
    intro hmem
    exact hnotin (List.mem_flatMap.mpr ⟨p, hp', hmem⟩)
  case near =>
    show c.Wire answers c.unflushed c.unread
    rw [hunflushed, hunread]
    exact hw.near.change (by rw [hstreams]) hkeep
  case far =>
    intro hopen
    have hopen' : w.conn.closing = false := hclosing ▸ hopen
    show c.Wire answers (c.unflushed ++ c.outbound ++ w.serving) (c.unread ++ w.inbound)
    rw [hunflushed, hout, hunread]
    exact (hw.far hopen').change (by rw [hstreams]) hkeep
  case proper =>
    show Proper answers c.history
    rw [hhistory]
    exact hw.proper

/-- A request of a write that failed is called back with an error, and its
stream is given back. The connection closes, so nothing more is read. -/
theorem Invariant.failed (hw : w.Invariant answers) {h : ι} {rest : List ι} {s : Nat}
    {c : Connection ι κ ρ} (hqueue : w.conn.finishing = h :: rest)
    (hunread : w.conn.unread = []) (hlookup : w.conn.streams.pending.lookup s = some h)
    (hvalid : c.streams.Valid) (hpending : c.streams.pending = w.conn.streams.pending.erase s)
    (hhandlers : ∀ h' ≠ h, c.handlers h' = w.conn.handlers h')
    (hrefs : ∀ h' ≠ h, c.refs h' = w.conn.refs h')
    (hreads : c.pendingReads = w.conn.pendingReads)
    (hwrites : c.pendingWrites = w.conn.pendingWrites) (hrest : c.unread = [])
    (hfinishing : c.finishing = rest) (hclosing : c.closing = true)
    (hactive : (c.state h).active = false)
    (hhistory : ∀ h' ≠ h, outstanding c.history h' = outstanding w.conn.history h')
    (hproper : Proper answers c.history) (hself : c.Consistent h) :
    ({w with conn := c} : World ι κ ρ).Invariant answers := by
  have hnotin := hw.finishing_notMem hqueue
  have hunflushed : c.unflushed = w.conn.unflushed := by rw [unflushed, unflushed, hwrites]
  constructor
  case valid => exact hvalid
  case consistent =>
    apply consistent_of_self hw.consistent hhandlers hrefs _ _ _ hhistory hself
    · intro h' _
      rw [hreads]
    · intro h' hne
      have hne' : ¬ h = h' := fun heq => hne heq.symm
      rw [queue, queue, hwrites, hfinishing, hqueue, List.count_append, List.count_append,
        List.count_cons_of_ne hne']
    · intro h' hne s'
      exact hpending ▸ lookup_erase_other hlookup hne s'
  case opened =>
    intro p hp hopen
    have hp' : p ∈ w.conn.pendingWrites := hwrites ▸ hp
    apply open_of_other (hw.opened p hp' hopen) hhandlers
    intro hmem
    exact hnotin (List.mem_flatMap.mpr ⟨p, hp', hmem⟩)
  case near =>
    show c.Wire answers c.unflushed c.unread
    have hnear := hw.near
    rw [hunread] at hnear
    rw [hunflushed, hrest]
    apply hnear.release _ hpending
    · intro h' hh'
      have hne : h' ≠ h := by
        intro heq
        rw [heq, hactive] at hh'
        exact Bool.noConfusion hh'
      rw [state, hhandlers h' hne] at hh'
      exact ⟨hh', hhistory h' hne⟩
    · rw [List.countP_nil, Nat.add_zero, List.countP_eq_zero]
      intro f hf hfs
      obtain ⟨h', hh', hholder⟩ := hw.unflushed_holder hf
      rw [decide_eq_true_eq] at hfs
      rw [hfs, hlookup, Option.some.injEq] at hholder
      exact hnotin (hholder ▸ hh')
  case far =>
    intro hopen
    have hopen' : c.closing = false := hopen
    rw [hclosing] at hopen'
    exact Bool.noConfusion hopen'
  case proper => exact hproper

/-- A request times out: its owner stops to wait, and it keeps its stream. -/
theorem Invariant.timedOut (hw : w.Invariant answers) {h : ι} {c : Connection ι κ ρ}
    (hstreams : c.streams = w.conn.streams)
    (hhandlers : ∀ h' ≠ h, c.handlers h' = w.conn.handlers h')
    (hstream : (c.handlers h).stream = (w.conn.handlers h).stream)
    (hwaiting : (c.state h).waiting = true) (hrefs : c.refs = w.conn.refs)
    (hreads : c.pendingReads = w.conn.pendingReads)
    (hwrites : c.pendingWrites = w.conn.pendingWrites) (hout : c.outbound = w.conn.outbound)
    (htask : c.task = w.conn.task) (hclosing : c.closing = false → w.conn.closing = false)
    (hactive : (c.state h).active = false)
    (hhistory : ∀ h' ≠ h, outstanding c.history h' = outstanding w.conn.history h')
    (hproper : Proper answers c.history) (hself : c.Consistent h) :
    ({w with conn := c} : World ι κ ρ).Invariant answers := by
  have hkeep : ∀ h', (c.state h').active = true → (w.conn.state h').active = true ∧
      outstanding c.history h' = outstanding w.conn.history h' := by
    intro h' hh'
    have hne : h' ≠ h := by
      intro heq
      rw [heq, hactive] at hh'
      exact Bool.noConfusion hh'
    rw [state, hhandlers h' hne] at hh'
    exact ⟨hh', hhistory h' hne⟩
  have hunflushed : c.unflushed = w.conn.unflushed := by rw [unflushed, unflushed, hwrites]
  have hunread : c.unread = w.conn.unread := by rw [unread, unread, htask]
  constructor
  case valid =>
    show c.streams.Valid
    rw [hstreams]
    exact hw.valid
  case consistent =>
    apply consistent_of_self hw.consistent hhandlers _ _ _ _ hhistory hself
    · intro h' _
      rw [hrefs]
    · intro h' _
      rw [hreads]
    · intro h' _
      rw [queue, queue, hwrites, finishing, finishing, htask]
    · intro h' _ s
      rw [hstreams]
  case opened =>
    intro p hp hopen
    apply open_of_same (hw.opened p (hwrites ▸ hp) hopen)
    intro h' _
    by_cases hne : h' = h
    · subst hne
      exact ⟨hstream, fun _ => hwaiting⟩
    · rw [state, state, hhandlers h' hne]
      exact ⟨rfl, id⟩
  case near =>
    show c.Wire answers c.unflushed c.unread
    rw [hunflushed, hunread]
    exact hw.near.change (by rw [hstreams]) hkeep
  case far =>
    intro hopen
    show c.Wire answers (c.unflushed ++ c.outbound ++ w.serving) (c.unread ++ w.inbound)
    rw [hunflushed, hout, hunread]
    exact (hw.far (hclosing hopen)).change (by rw [hstreams]) hkeep
  case proper => exact hproper

/-- What is known of a request before it is written, or when it is done. -/
theorem Invariant.idle_spec (hw : w.Invariant answers) {h : ι}
    (hidle : w.conn.state h = .new ∨ w.conn.state h = .done) :
    w.conn.pendingReads.count h = 0 ∧ w.conn.queue.count h = 0 ∧ w.conn.refs h = 0 ∧
      (w.conn.handlers h).timer = false ∧ (∀ s, w.conn.streams.pending.lookup s ≠ some h) ∧
      outstanding w.conn.history h = none := by
  have hc := hw.consistent h
  have hreads := hc.reads
  have hqueue := hc.queue
  have hrefs := hc.refs
  have htimer := hc.timer
  have htable := hc.table
  have hhistory := hc.history
  rcases hidle with hstate | hstate
  all_goals
    rw [hstate] at hreads hqueue hrefs htimer htable hhistory
    refine ⟨hreads, hqueue, hrefs, htimer, ?_, by simpa [RequestState.active] using hhistory⟩
    intro s hs
    exact Bool.noConfusion ((htable s).mp hs).2

/-- A request is written: it takes a free stream and a place in the open
write. -/
theorem Invariant.written (hw : w.Invariant answers) {h : ι} {s : Nat} {request : κ}
    {c : Connection ι κ ρ} (hnew : (w.conn.handlers h).state = .new)
    (hfree : s ∉ w.conn.streams.pending) (hvalid : c.streams.Valid)
    (hpending : c.streams.pending = w.conn.streams.pending.insert s h)
    (hhandlers : ∀ h' ≠ h, c.handlers h' = w.conn.handlers h')
    (hself : c.handlers h = ⟨.writing, some s, true⟩)
    (hrefs : c.refs = Function.update w.conn.refs h (w.conn.refs h + 1))
    (hreads : c.pendingReads = w.conn.pendingReads)
    (hwrites : c.pendingWrites = addWrite w.conn.pendingWrites ⟨s, request⟩ h)
    (hout : c.outbound = w.conn.outbound) (htask : c.task = w.conn.task)
    (hclosing : c.closing = w.conn.closing)
    (hhistory : c.history = .wrote h request :: w.conn.history) :
    ({w with conn := c} : World ι κ ρ).Invariant answers := by
  obtain ⟨hnoread, hnoqueue, hnoref, -, htable, hwaits⟩ := hw.idle_spec (Or.inl hnew)
  obtain ⟨hhandlersOf, hunflushedOf, hmem⟩ :=
    addWrite_spec w.conn.pendingWrites (⟨s, request⟩ : Frame κ) h
  rw [← hwrites] at hhandlersOf hunflushedOf hmem
  have hstate : c.state h = .writing := by rw [state, hself]
  have hqueue : c.queue = handlersOf w.conn.pendingWrites ++ [h] ++ w.conn.finishing := by
    rw [queue, hhandlersOf, finishing, finishing, htask]
  have hunread : c.unread = w.conn.unread := by rw [unread, unread, htask]
  have hwritten : outstanding c.history h = some request := by
    rw [hhistory, outstanding, if_pos rfl]
  have hothers : ∀ h' ≠ h, outstanding c.history h' = outstanding w.conn.history h' := by
    intro h' hne
    rw [hhistory, outstanding, if_neg (fun heq => hne heq.symm)]
  have hkeep : ∀ h' ≠ h, (c.state h').active = true → (w.conn.state h').active = true ∧
      outstanding c.history h' = outstanding w.conn.history h' := by
    intro h' hne hh'
    rw [state, hhandlers h' hne] at hh'
    exact ⟨hh', hothers h' hne⟩
  constructor
  case valid => exact hvalid
  case consistent =>
    apply consistent_of_self hw.consistent hhandlers _ _ _ _ hothers
    · constructor
      case reads => rw [hstate, hreads, hnoread]; rfl
      case queue =>
        rw [queue, List.count_append] at hnoqueue
        rw [hqueue, hstate, List.count_append, List.count_append, List.count_singleton_self]
        have hone : RequestState.writing.queued.toNat = 1 := rfl
        omega
      case refs => rw [hstate, hrefs, Function.update_self, hnoref]; rfl
      case timer => rw [hself, hstate]; rfl
      case numbered =>
        intro _
        rw [hself]
        rfl
      case table =>
        intro s'
        rw [hpending, hself, hstate]
        by_cases hss : s' = s
        · subst hss
          simp [Finmap.lookup_insert, RequestState.waiting]
        · have hss' : ¬ s = s' := fun heq => hss heq.symm
          simp [Finmap.lookup_insert_of_ne _ hss, htable s', hss']
      case history => rw [hwritten, hstate]; rfl
    · intro h' hne
      rw [hrefs]
      exact Function.update_of_ne hne _ _
    · intro h' _
      rw [hreads]
    · intro h' hne
      have hne' : ¬ h = h' := fun heq => hne heq.symm
      rw [hqueue, queue, List.count_append, List.count_append, List.count_append,
        List.count_cons_of_ne hne', List.count_nil, Nat.add_zero]
    · intro h' hne s'
      rw [hpending]
      exact lookup_insert_other hfree hne s'
  case opened =>
    intro p hp hopen
    have hold : ∀ p ∈ w.conn.pendingWrites, p.flushed = false → c.Open p := by
      intro p hp hopen
      apply open_of_other (hw.opened p hp hopen) hhandlers
      apply hw.not_open hp hopen
      rw [state, hnew]
      rfl
    rcases hmem p hp with hp | ⟨back, hback, hbackOpen, rfl⟩
    · exact hold p hp hopen
    · have hbackOpen : c.Open back := by
        rcases hback with hback | hempty
        · exact hold back hback hbackOpen
        · rw [hempty]
          exact ⟨rfl, fun _ hh => absurd hh List.not_mem_nil⟩
      constructor
      case streams =>
        simp only [List.map_append, hbackOpen.streams, List.map_cons, List.map_nil, hself]
      case waiting =>
        intro h' hh'
        rcases List.mem_append.mp hh' with hh' | hh'
        · exact hbackOpen.waiting h' hh'
        · rw [List.mem_singleton.mp hh', hstate]
          rfl
  case near =>
    show c.Wire answers (unflushedOf c.pendingWrites) c.unread
    rw [hunflushedOf, hunread]
    exact hw.near.acquired hfree htable hpending hwritten hkeep
  case far =>
    intro hopen
    have hfar := (hw.far (hclosing ▸ hopen)).acquired hfree htable hpending hwritten hkeep
    show c.Wire answers (unflushedOf c.pendingWrites ++ c.outbound ++ w.serving)
      (c.unread ++ w.inbound)
    rw [hunflushedOf, hunread, hout]
    have hperm : (w.conn.unflushed ++ [(⟨s, request⟩ : Frame κ)] ++ w.conn.outbound ++
        w.serving).Perm (w.conn.unflushed ++ w.conn.outbound ++ w.serving ++ [⟨s, request⟩]) := by
      have hcomm : ([(⟨s, request⟩ : Frame κ)] ++ (w.conn.outbound ++ w.serving)).Perm
          (w.conn.outbound ++ w.serving ++ [⟨s, request⟩]) := List.perm_append_comm
      simp only [List.append_assoc] at hcomm ⊢
      exact hcomm.append_left _
    apply hfar.mono
    · intro s'
      exact Nat.add_le_add_right (Nat.le_of_eq (hperm.countP_eq _)) _
    · exact fun f hf => hperm.mem_iff.mp hf
    · exact fun _ hm => hm
  case proper =>
    show Proper answers c.history
    rw [hhistory]
    exact ⟨hwaits, hw.proper⟩

/-- A request that cannot be encoded gives its stream back at once. -/
theorem Invariant.unencodable (hw : w.Invariant answers) {h : ι} {request : κ}
    {c : Connection ι κ ρ} (hnew : (w.conn.handlers h).state = .new)
    (hvalid : c.streams.Valid) (hpending : c.streams.pending = w.conn.streams.pending)
    (hhandlers : ∀ h' ≠ h, c.handlers h' = w.conn.handlers h')
    (hself : (c.handlers h).state = .new) (htimer : (c.handlers h).timer = false)
    (hrefs : c.refs = w.conn.refs) (hreads : c.pendingReads = w.conn.pendingReads)
    (hwrites : c.pendingWrites =
      (openWrite w.conn.pendingWrites).1 ++ [(openWrite w.conn.pendingWrites).2])
    (hout : c.outbound = w.conn.outbound) (htask : c.task = w.conn.task)
    (hclosing : c.closing = w.conn.closing)
    (hhistory : c.history = .onError h :: .wrote h request :: w.conn.history) :
    ({w with conn := c} : World ι κ ρ).Invariant answers := by
  obtain ⟨hnoread, hnoqueue, hnoref, -, htable, hwaits⟩ := hw.idle_spec (Or.inl hnew)
  obtain ⟨hback, hhandlersOf, hunflushedOf, hfront, hmem⟩ := openWrite_spec w.conn.pendingWrites
  have hwrites' := hwrites
  rw [← hwrites'] at hhandlersOf hunflushedOf
  have hstate : c.state h = .new := hself
  have hqueue : c.queue = w.conn.queue := by
    rw [queue, hhandlersOf, finishing, htask]
    rfl
  have hunread : c.unread = w.conn.unread := by rw [unread, unread, htask]
  have hothers : ∀ h', outstanding c.history h' = outstanding w.conn.history h' := by
    intro h'
    rw [hhistory, outstanding, outstanding]
    by_cases heq : h = h'
    · subst heq
      rw [if_pos rfl, hwaits]
    · rw [if_neg heq, if_neg heq]
  have hkeep : ∀ h', (c.state h').active = true → (w.conn.state h').active = true ∧
      outstanding c.history h' = outstanding w.conn.history h' := by
    intro h' hh'
    have hne : h' ≠ h := by
      intro heq
      rw [heq, hstate] at hh'
      exact Bool.noConfusion hh'
    rw [state, hhandlers h' hne] at hh'
    exact ⟨hh', hothers h'⟩
  constructor
  case valid => exact hvalid
  case consistent =>
    apply consistent_of_self hw.consistent hhandlers _ _ _ _ (fun h' _ => hothers h')
    · constructor
      case reads => rw [hstate, hreads, hnoread]; rfl
      case queue => rw [hstate, hqueue, hnoqueue]; rfl
      case refs => rw [hstate, hrefs, hnoref]; rfl
      case timer => rw [hstate, htimer]; rfl
      case numbered =>
        rw [hstate]
        exact fun hwaiting => Bool.noConfusion hwaiting
      case table =>
        intro s
        rw [hpending, hstate]
        exact ⟨fun hs => absurd hs (htable s), fun hs => Bool.noConfusion hs.2⟩
      case history => rw [hothers, hwaits, hstate]; rfl
    · intro h' _
      rw [hrefs]
    · intro h' _
      rw [hreads]
    · intro h' _
      rw [hqueue]
    · intro h' _ s
      rw [hpending]
  case opened =>
    intro p hp hopen
    have hp' : p ∈ (openWrite w.conn.pendingWrites).1 ++ [(openWrite w.conn.pendingWrites).2] := by
      rw [← hwrites]
      exact hp
    have hold : ∀ p ∈ w.conn.pendingWrites, p.flushed = false → c.Open p := by
      intro p hp hopen
      apply open_of_other (hw.opened p hp hopen) hhandlers
      apply hw.not_open hp hopen
      rw [state, hnew]
      rfl
    rcases List.mem_append.mp hp' with hp' | hp'
    · exact hold p (hfront p hp') hopen
    · rw [List.mem_singleton] at hp'
      rcases hmem with hmem | hempty
      · exact hold p (hp' ▸ hmem) hopen
      · rw [hp', hempty]
        exact ⟨rfl, fun _ hh => absurd hh List.not_mem_nil⟩
  case near =>
    show c.Wire answers (unflushedOf c.pendingWrites) c.unread
    rw [hunflushedOf, hunread]
    exact hw.near.change hpending hkeep
  case far =>
    intro hopen
    show c.Wire answers (unflushedOf c.pendingWrites ++ c.outbound ++ w.serving)
      (c.unread ++ w.inbound)
    rw [hunflushedOf, hunread, hout]
    exact (hw.far (hclosing ▸ hopen)).change hpending hkeep
  case proper =>
    show Proper answers c.history
    rw [hhistory]
    refine ⟨?_, hwaits, hw.proper⟩
    rw [outstanding, if_pos rfl]
    rfl

/-- A request that is in no list any more becomes new. -/
theorem Invariant.retried (hw : w.Invariant answers) {h : ι}
    (hidle : w.conn.state h = .new ∨ w.conn.state h = .done) :
    ∃ c, w.conn.setState h .new = some c ∧
      ({w with conn := c} : World ι κ ρ).Invariant answers := by
  obtain ⟨hnoread, hnoqueue, hnoref, htimer, htable, hwaits⟩ := hw.idle_spec hidle
  obtain ⟨next, hnext, hstate, hsame⟩ := setState_new hidle
  refine ⟨w.conn.setHandler h next, congrArg (Option.map _) hnext, ?_⟩
  have hself : (w.conn.setHandler h next).handlers h = next := Function.update_self ..
  have hhandlers : ∀ h' ≠ h, (w.conn.setHandler h next).handlers h' = w.conn.handlers h' :=
    fun h' hne => Function.update_of_ne hne _ _
  have hnew : (w.conn.setHandler h next).state h = .new := by
    rw [state, hself, hstate]
  have hkeep : ∀ h', ((w.conn.setHandler h next).state h').active = true →
      (w.conn.state h').active = true ∧
        outstanding w.conn.history h' = outstanding w.conn.history h' := by
    intro h' hh'
    have hne : h' ≠ h := by
      rintro rfl
      rw [hnew] at hh'
      exact Bool.noConfusion hh'
    rw [state, hhandlers h' hne] at hh'
    exact ⟨hh', rfl⟩
  constructor
  case valid => exact hw.valid
  case consistent =>
    apply consistent_of_self hw.consistent hhandlers (fun _ _ => rfl) (fun _ _ => rfl)
      (fun _ _ => rfl) (fun _ _ _ => Iff.rfl) (fun _ _ => rfl)
    apply consistent_of_not_waiting
    case hwaiting => rw [hnew]; rfl
    case hreads => exact hnoread
    case hqueue => rw [hnew]; exact hnoqueue
    case hrefs => rw [hnew]; exact hnoref
    case htimer => rw [hself, hsame, htimer]
    case htable => exact htable
    case hhistory => exact hwaits
  case opened =>
    intro p hp hopen
    apply open_of_other (hw.opened p hp hopen) hhandlers
    apply hw.not_open hp hopen
    rcases hidle with hidle | hidle <;> rw [hidle] <;> rfl
  case near => exact hw.near.change rfl hkeep
  case far => exact fun hopen => (hw.far hopen).change rfl hkeep
  case proper => exact hw.proper

/-- Calls that file no request elsewhere and give back no stream. -/
theorem Invariant.idle (hw : w.Invariant answers) {c : Connection ι κ ρ}
    {serving : List (Frame κ)} {inbound : List (Message ρ)}
    (hhandlers : c.handlers = w.conn.handlers) (hrefs : c.refs = w.conn.refs)
    (hvalid : c.streams.Valid) (hpending : c.streams.pending = w.conn.streams.pending)
    (hreads : c.pendingReads = w.conn.pendingReads)
    (hqueue : ∀ h, c.queue.count h = w.conn.queue.count h)
    (hopened : ∀ p ∈ c.pendingWrites, p.flushed = false → p ∈ w.conn.pendingWrites)
    (hhistory : c.history = w.conn.history)
    (hnear : w.conn.Wire answers c.unflushed c.unread)
    (hfar : c.closing = false → w.conn.Wire answers (c.unflushed ++ c.outbound ++ serving)
      (c.unread ++ inbound)) :
    ({w with conn := c, serving := serving, inbound := inbound} : World ι κ ρ).Invariant
      answers := by
  constructor
  case valid => exact hvalid
  case consistent =>
    intro h
    refine (hw.consistent h).of_same ?_ ?_ ?_ (hqueue h) ?_ ?_
    · rw [hhandlers]
    · rw [hrefs]
    · rw [hreads]
    · intro s
      rw [hpending]
    · rw [hhistory]
  case opened =>
    intro p hp hopen
    apply open_of_same (hw.opened p (hopened p hp hopen) hopen)
    intro h _
    rw [state, state, hhandlers]
    exact ⟨rfl, id⟩
  case near => exact hnear.of_eq hhandlers hpending hhistory
  case far => exact fun hopen => (hfar hopen).of_eq hhandlers hpending hhistory
  case proper =>
    show Proper answers c.history
    rw [hhistory]
    exact hw.proper

theorem Invariant.close (hw : w.Invariant answers) :
    ({w with conn := w.conn.close} : World ι κ ρ).Invariant answers :=
  hw.idle rfl rfl hw.valid rfl rfl (fun _ => rfl) (fun _ h _ => h) rfl hw.near
    (fun hopen => Bool.noConfusion hopen)

/-- A chunk of what came in is read. -/
theorem Invariant.read (hw : w.Invariant answers) (n : Nat) (htask : w.conn.task = .idle)
    (hopen : w.conn.closing = false) :
    ({w with
      conn := {w.conn with task := .consuming (w.inbound.take n)}
      inbound := w.inbound.drop n} : World ι κ ρ).Invariant answers := by
  have hunread : w.conn.unread = [] := by rw [unread, htask]
  have hfar := hw.far hopen
  rw [hunread, List.nil_append] at hfar
  apply hw.idle
  case hhandlers | hrefs | hpending | hreads | hhistory => rfl
  case hvalid => exact hw.valid
  case hqueue =>
    intro h
    rw [queue, queue, finishing, finishing, htask]
  case hopened => exact fun _ hp _ => hp
  case hnear =>
    apply hfar.mono
    · intro s
      have htake := (List.take_sublist n w.inbound).countP_le
        (p := fun m : Message ρ => m.stream = (s : Int))
      rw [List.append_assoc, List.countP_append]
      exact Nat.add_le_add (Nat.le_add_right _ _) htake
    · intro f hf
      rw [List.append_assoc]
      exact List.mem_append_left _ hf
    · exact fun m hm => List.mem_of_mem_take hm
  case hfar =>
    intro _
    show w.conn.Wire answers _ (w.inbound.take n ++ w.inbound.drop n)
    rw [List.take_append_drop]
    exact hfar

/-- The socket begins to report a write. -/
theorem Invariant.onWrite (hw : w.Invariant answers) {i : Nat} {p : PendingWrite ι κ}
    (htask : w.conn.task = .idle) (hi : w.conn.pendingWrites[i]? = some p) (ok : Bool) :
    ({w with conn := {w.conn with
      pendingWrites := w.conn.pendingWrites.eraseIdx i
      task := .completing ok p.handlers}} : World ι κ ρ).Invariant answers := by
  have hsub : (unflushedOf (w.conn.pendingWrites.eraseIdx i)).Sublist w.conn.unflushed := by
    rw [unflushed, unflushedOf, unflushedOf]
    exact ((List.eraseIdx_sublist w.conn.pendingWrites i).filter _).flatMap _
  have hunread : w.conn.unread = [] := by rw [unread, htask]
  obtain ⟨hlt, hget⟩ := List.getElem?_eq_some_iff.mp hi
  have hperm : (p :: w.conn.pendingWrites.eraseIdx i).Perm w.conn.pendingWrites := by
    rw [← hget]
    exact List.getElem_cons_eraseIdx_perm hlt
  apply hw.idle
  case hhandlers | hrefs | hpending | hreads | hhistory => rfl
  case hvalid => exact hw.valid
  case hqueue =>
    intro h
    have hcount := (hperm.flatMap_right PendingWrite.handlers).count_eq h
    simp only [List.flatMap_cons, List.count_append] at hcount
    simp only [queue, finishing, htask, handlersOf, List.append_nil, List.count_append]
    omega
  case hopened => exact fun q hq _ => List.mem_of_mem_eraseIdx hq
  case hnear =>
    apply hw.near.mono
    · intro s
      rw [hunread]
      exact Nat.add_le_add_right (hsub.countP_le) _
    · exact fun f hf => hsub.subset hf
    · intro m hm
      rw [hunread]
      exact hm
  case hfar =>
    intro hopen
    have hsub' := (hsub.append_right w.conn.outbound).append_right w.serving
    apply (hw.far hopen).mono
    · intro s
      rw [hunread]
      exact Nat.add_le_add_right hsub'.countP_le _
    · exact fun f hf => hsub'.subset hf
    · intro m hm
      rw [hunread]
      exact hm

/-- The server reads a request. -/
theorem Invariant.receive (hw : w.Invariant answers) {f : Frame κ} {rest : List (Frame κ)}
    (hout : w.conn.outbound = f :: rest) :
    ({w with conn := {w.conn with outbound := rest}, serving := w.serving ++ [f]} :
      World ι κ ρ).Invariant answers := by
  apply hw.idle
  case hhandlers | hrefs | hpending | hreads | hhistory => rfl
  case hvalid => exact hw.valid
  case hqueue => exact fun _ => rfl
  case hopened => exact fun _ hp _ => hp
  case hnear => exact hw.near
  case hfar =>
    intro hopen
    have hperm : (w.conn.unflushed ++ rest ++ (w.serving ++ [f])).Perm
        (w.conn.unflushed ++ w.conn.outbound ++ w.serving) := by
      have hcomm : (rest ++ w.serving ++ [f]).Perm ([f] ++ (rest ++ w.serving)) :=
        List.perm_append_comm
      rw [hout]
      simp only [List.append_assoc, List.cons_append] at hcomm ⊢
      exact hcomm.append_left _
    apply (hw.far hopen).mono
    · exact fun s => Nat.add_le_add_right (Nat.le_of_eq (hperm.countP_eq _)) _
    · exact fun f' hf' => hperm.mem_iff.mp hf'
    · exact fun _ hm => hm

/-- The server answers one of the requests it has read. -/
theorem Invariant.answered (hw : w.Invariant answers) {i : Nat} {f : Frame κ} {body : ρ}
    (hi : w.serving[i]? = some f) (hbody : answers f.request body) :
    ({w with
      serving := w.serving.eraseIdx i
      inbound := w.inbound ++ [⟨f.stream, false, body⟩]} : World ι κ ρ).Invariant answers := by
  apply hw.idle
  case hhandlers | hrefs | hpending | hreads | hhistory => rfl
  case hvalid => exact hw.valid
  case hqueue => exact fun _ => rfl
  case hopened => exact fun _ hp _ => hp
  case hnear => exact hw.near
  case hfar =>
    intro hopen
    have hfar := hw.far hopen
    obtain ⟨hlt, hget⟩ := List.getElem?_eq_some_iff.mp hi
    have hperm : (f :: w.serving.eraseIdx i).Perm w.serving := by
      rw [← hget]
      exact List.getElem_cons_eraseIdx_perm hlt
    constructor
    case once =>
      intro s
      have hcount := hperm.countP_eq (fun f : Frame κ => f.stream = s)
      have hone := hfar.once s
      have hstream : ((f.stream : Int) = (s : Int)) ↔ f.stream = s := Int.ofNat_inj
      rw [List.countP_cons] at hcount
      simp only [List.countP_append, List.countP_cons, List.countP_nil, hstream] at hone ⊢
      omega
    case frame =>
      intro f' hf'
      apply hfar.frame
      rcases List.mem_append.mp hf' with hf' | hf'
      · exact List.mem_append_left _ hf'
      · exact List.mem_append_right _ (List.mem_of_mem_eraseIdx hf')
    case message =>
      intro m hm s hs h hlookup hh
      rcases List.mem_append.mp hm with hm | hm
      · exact hfar.message m (List.mem_append_left _ hm) s hs h hlookup hh
      · rcases List.mem_append.mp hm with hm | hm
        · exact hfar.message m (List.mem_append_right _ hm) s hs h hlookup hh
        · rw [List.mem_singleton] at hm
          subst hm
          have hfs : f.stream = s := Int.ofNat_inj.mp hs
          have hf : f ∈ w.conn.unflushed ++ w.conn.outbound ++ w.serving :=
            List.mem_append_right _ (hget ▸ List.getElem_mem hlt)
          exact ⟨f.request, hfar.frame f hf h (hfs ▸ hlookup) hh, hbody⟩

/-- The server sends an event. -/
theorem Invariant.event (hw : w.Invariant answers) (body : ρ) :
    ({w with inbound := w.inbound ++ [⟨-1, true, body⟩]} : World ι κ ρ).Invariant answers := by
  apply hw.idle
  case hhandlers | hrefs | hpending | hreads | hhistory => rfl
  case hvalid => exact hw.valid
  case hqueue => exact fun _ => rfl
  case hopened => exact fun _ hp _ => hp
  case hnear => exact hw.near
  case hfar =>
    intro hopen
    have hfar := hw.far hopen
    have hnone : ∀ s : Nat, ¬ (-1 : Int) = (s : Int) := fun s => by omega
    constructor
    case once =>
      intro s
      have hone := hfar.once s
      simp only [List.countP_append, List.countP_cons, List.countP_nil, hnone s, decide_false,
        Bool.false_eq_true, if_false, Nat.add_zero] at hone ⊢
      exact hone
    case frame => exact hfar.frame
    case message =>
      intro m hm s hs
      rw [← List.append_assoc] at hm
      rcases List.mem_append.mp hm with hm | hm
      · exact hfar.message m hm s hs
      · rw [List.mem_singleton] at hm
        subst hm
        exact absurd hs (hnone s)

/-- A message that no request waits for is an event, or closes the connection. -/
theorem Invariant.skipped (hw : w.Invariant answers) {m : Message ρ} {rest : List (Message ρ)}
    {c : Connection ι κ ρ} (hunread : w.conn.unread = m :: rest) (hrest : c.unread = rest)
    (hhandlers : c.handlers = w.conn.handlers) (hrefs : c.refs = w.conn.refs)
    (hvalid : c.streams.Valid) (hpending : c.streams.pending = w.conn.streams.pending)
    (hreads : c.pendingReads = w.conn.pendingReads)
    (hwrites : c.pendingWrites = w.conn.pendingWrites)
    (hfinishing : c.finishing = w.conn.finishing) (hout : c.outbound = w.conn.outbound)
    (hclosing : c.closing = false → w.conn.closing = false)
    (hhistory : c.history = w.conn.history) :
    ({w with conn := c} : World ι κ ρ).Invariant answers := by
  have hunflushed : c.unflushed = w.conn.unflushed := by rw [unflushed, unflushed, hwrites]
  have hless : ∀ s : Nat, rest.countP (fun m => m.stream = (s : Int)) ≤
      w.conn.unread.countP (fun m => m.stream = (s : Int)) := by
    intro s
    rw [hunread, List.countP_cons]
    omega
  have hsub : ∀ m' ∈ rest, m' ∈ w.conn.unread := by
    intro m' hm'
    rw [hunread]
    exact List.mem_cons_of_mem _ hm'
  apply hw.idle hhandlers hrefs hvalid hpending hreads
  case hhistory => exact hhistory
  case hqueue =>
    intro h
    rw [queue, queue, hwrites, hfinishing]
  case hopened => exact fun p hp _ => hwrites ▸ hp
  case hnear =>
    rw [hunflushed, hrest]
    exact hw.near.mono (fun s => Nat.add_le_add_left (hless s) _) (fun _ hf => hf) hsub
  case hfar =>
    intro hopen
    rw [hunflushed, hrest, hout]
    apply (hw.far (hclosing hopen)).mono
    · intro s
      have hle := hless s
      simp only [List.countP_append]
      omega
    · exact fun _ hf => hf
    · intro m' hm'
      rcases List.mem_append.mp hm' with hm' | hm'
      · exact List.mem_append_left _ (hsub m' hm')
      · exact List.mem_append_right _ hm'

/-- What is left when the connection is closed. -/
structure Settled (answers : κ → ρ → Prop) (w : World ι κ ρ) : Prop where
  idle : w.conn.task = .idle
  closing : w.conn.closing = true
  refs : ∀ h, w.conn.refs h = 0
  history : ∀ h, outstanding w.conn.history h = none
  proper : Proper answers w.conn.history

/-- Closing calls back every request whose owner still waits. -/
theorem Invariant.onClose (hw : w.Invariant answers) (htask : w.conn.task = .idle)
    (hclosing : w.conn.closing = true) :
    ∃ c, w.conn.onClose = some c ∧
      ({w with conn := c, closed := true} : World ι κ ρ).Settled answers := by
  have hqueue : w.conn.queue = handlersOf w.conn.pendingWrites := by
    rw [queue, finishing, htask, List.append_nil]
  have hcount : ∀ h, (w.conn.pendingReads ++ handlersOf w.conn.pendingWrites).count h =
      (w.conn.state h).inReads.toNat + (w.conn.state h).queued.toNat := by
    intro h
    rw [List.count_append, (hw.consistent h).reads, ← hqueue, (hw.consistent h).queue]
  obtain ⟨c₁, hc₁, hrefs₁, hwaits₁, hnone₁, hproper₁⟩ :=
    cleanup_spec w.conn.pendingReads (handlersOf w.conn.pendingWrites)
      {w.conn with pendingReads := []} (by
        intro h
        rw [hcount]
        exact (hw.consistent h).refs) (by
        intro h
        rw [hcount]
        cases w.conn.state h <;> decide) (by
        exact fun h _ => (hw.consistent h).history) (by
        intro h hmem
        have hzero := hcount h
        rw [List.count_eq_zero.mpr hmem] at hzero
        have hidle : (w.conn.state h).active = false := by
          revert hzero
          cases w.conn.state h <;> decide
        have hhistory := (hw.consistent h).history
        rw [hidle] at hhistory
        simpa using hhistory) hw.proper
  obtain ⟨c₂, hc₂, hrefs₂, -, hnone₂, hproper₂⟩ :=
    cleanup_spec (handlersOf w.conn.pendingWrites) [] {c₁ with pendingWrites := []} (by
        rw [List.append_nil]
        exact hrefs₁) (by
        intro h
        have hle := hcount h
        rw [List.append_nil]
        rw [List.count_append] at hle
        revert hle
        cases w.conn.state h <;> simp [RequestState.inReads, RequestState.queued] <;> omega) (by
        rw [List.append_nil]
        exact hwaits₁) (by
        rw [List.append_nil]
        exact hnone₁) hproper₁
  refine ⟨c₂, ?_, ?_⟩
  · simp only [Connection.onClose, hc₁, Option.bind_eq_bind, Option.bind_some]
    rw [(cleanup_keeps hc₁).writes]
    exact hc₂
  · constructor
    case idle => exact ((cleanup_keeps hc₂).task.trans (cleanup_keeps hc₁).task).trans htask
    case closing => exact (cleanup_keeps hc₂).closing ((cleanup_keeps hc₁).closing hclosing)
    case refs => exact fun h => hrefs₂ h
    case history => exact fun h => hnone₂ h List.not_mem_nil
    case proper => exact hproper₂

end World

end Img2Web.Driver
