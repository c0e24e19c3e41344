import Img2Web.Driver.Preservation

/-!
Every event keeps the invariant of `World`, from which: no assertion of the
driver fails, every reply reaches the request it answers, once, and a closed
connection has called back every request and holds none.
-/

namespace Img2Web.Driver

namespace World

open Connection

variable {ι κ ρ : Type} [DecidableEq ι] {answers : κ → ρ → Prop} {w : World ι κ ρ}

/-- The response of a request is consumed: the request is called back, unless
it timed out. `c` is the connection when the message is taken off the chunk. -/
theorem Invariant.consume_response (hw : w.Invariant answers) {m : Message ρ}
    {rest : List (Message ρ)} {h : ι} (hunread : w.conn.unread = m :: rest)
    (hstream : 0 ≤ m.stream) (hlookup : w.conn.streams.pending.lookup m.stream.toNat = some h)
    {task : Task ι ρ} (hrest : ({w.conn with task := task} : Connection ι κ ρ).unread = rest)
    (hfinishing : ({w.conn with task := task} : Connection ι κ ρ).finishing = w.conn.finishing)
    (d : Decision) :
    ∃ c, ({w.conn with task := task} : Connection ι κ ρ).consume m d = some c ∧
      ({w with conn := c} : World ι κ ρ).Invariant answers := by
  obtain ⟨streams, htake, hpending, -, hvalid⟩ :=
    StreamManager.getPendingAndRelease_some hw.valid hlookup
  have hs : m.stream = (m.stream.toNat : Int) := (Int.toNat_of_nonneg hstream).symm
  have hh := hw.consistent h
  have hwaiting := (hh.holder hlookup).2
  have herased := hh.erased hlookup
  have hreads := hh.reads
  have hqueue := hh.queue
  have hrefs := hh.refs
  have hwaits := hh.history
  have htimer := hh.timer
  have hanswered : (w.conn.state h).active = true →
      ∃ request, outstanding w.conn.history h = some request ∧ answers request m.body :=
    hw.near.message m (hunread ▸ List.mem_cons_self) _ hs h hlookup
  have hothers : ∀ h' ≠ h, outstanding (.onSet h m.body :: w.conn.history) h' =
      outstanding w.conn.history h' := fun h' hne => if_neg (fun heq => hne heq.symm)
  have hupdate : ∀ x : Handler, ∀ h' ≠ h, Function.update w.conn.handlers h x h' =
      w.conn.handlers h' := fun x h' hne => Function.update_of_ne hne _ _
  have hunref : ∀ h' ≠ h, Function.update w.conn.refs h (w.conn.refs h - 1) h' =
      w.conn.refs h' := fun h' hne => Function.update_of_ne hne _ _
  have herase : ∀ h' ≠ h, (w.conn.pendingReads.erase h).count h' =
      w.conn.pendingReads.count h' := fun h' hne => List.count_erase_of_ne hne
  have hsame : (handlersOf w.conn.pendingWrites ++
      ({w.conn with task := task} : Connection ι κ ρ).finishing).count h =
      w.conn.queue.count h := by rw [hfinishing, queue]
  rw [← hpending] at herased
  rw [state] at hreads hqueue hrefs hwaits htimer hanswered hwaiting
  cases hstate : (w.conn.handlers h).state with
  | new | readBeforeWrite | retryWriteOutstanding | done =>
      rw [hstate] at hwaiting
      exact Bool.noConfusion hwaiting
  | reading =>
      rw [hstate] at hreads hqueue hrefs hwaits htimer hanswered
      have hmem : h ∈ w.conn.pendingReads := List.count_pos_iff.mp (by rw [hreads]; decide)
      have hpos : 0 < w.conn.refs h := by rw [hrefs]; decide
      refine ⟨_, consume_reading hstream htake hstate hmem hpos, ?_⟩
      refine hw.consumed hunread hs hlookup hvalid hpending (hupdate _) hunref herase rfl rfl
        hrest hfinishing (fun hopen => (Bool.or_eq_false_iff.mp hopen).1) ?active hothers
        ⟨hanswered rfl, hw.proper⟩ ?self
      case active =>
        simp only [state, Function.update_self]
        cases d.retry <;> rfl
      case self =>
        apply consistent_of_not_waiting
        case hwaiting =>
          simp only [state, Function.update_self]
          cases d.retry <;> rfl
        case hreads => rw [List.count_erase_self, hreads]; rfl
        case hqueue =>
          simp only [state, Function.update_self]
          exact (hsame.trans hqueue).trans (by cases d.retry <;> rfl)
        case hrefs =>
          simp only [state, Function.update_self, hrefs]
          cases d.retry <;> rfl
        case htimer => simp only [Function.update_self]
        case htable => exact herased
        case hhistory => exact if_pos rfl
  | writing =>
      rw [hstate] at hreads hqueue hrefs hwaits htimer hanswered
      refine ⟨_, consume_writing hstream htake hstate, ?_⟩
      refine hw.consumed hunread hs hlookup hvalid hpending (hupdate _) (fun _ _ => rfl)
        (fun _ _ => rfl) rfl rfl hrest hfinishing
        (fun hopen => (Bool.or_eq_false_iff.mp hopen).1) ?active hothers
        ⟨hanswered rfl, hw.proper⟩ ?self
      case active =>
        simp only [state, Function.update_self]
        cases d.retry <;> rfl
      case self =>
        apply consistent_of_not_waiting
        case hwaiting =>
          simp only [state, Function.update_self]
          cases d.retry <;> rfl
        case hreads => exact hreads
        case hqueue =>
          simp only [state, Function.update_self]
          exact (hsame.trans hqueue).trans (by cases d.retry <;> rfl)
        case hrefs =>
          simp only [state, Function.update_self]
          exact hrefs.trans (by cases d.retry <;> rfl)
        case htimer => simp only [Function.update_self]
        case htable => exact herased
        case hhistory => exact if_pos rfl
  | timeout =>
      rw [hstate] at hreads hqueue hrefs hwaits htimer
      have hmem : h ∈ w.conn.pendingReads := List.count_pos_iff.mp (by rw [hreads]; decide)
      have hpos : 0 < w.conn.refs h := by rw [hrefs]; decide
      refine ⟨_, consume_timeout hstream htake hstate hmem hpos, ?_⟩
      refine hw.consumed hunread hs hlookup hvalid hpending (hupdate _) hunref herase rfl rfl
        hrest hfinishing (fun hopen => hopen) ?active (fun _ _ => rfl) hw.proper ?self
      case active => simp only [state, Function.update_self]; rfl
      case self =>
        apply consistent_of_not_waiting
        case hwaiting => simp only [state, Function.update_self]; rfl
        case hreads => rw [List.count_erase_self, hreads]; rfl
        case hqueue =>
          simp only [state, Function.update_self]
          exact hsame.trans hqueue
        case hrefs => simp only [state, Function.update_self, hrefs]; rfl
        case htimer => simp only [Function.update_self]; exact htimer
        case htable => exact herased
        case hhistory => simpa [RequestState.active] using hwaits
  | timeoutWriteOutstanding =>
      rw [hstate] at hreads hqueue hrefs hwaits htimer
      refine ⟨_, consume_timeoutWriteOutstanding hstream htake hstate, ?_⟩
      refine hw.consumed hunread hs hlookup hvalid hpending (hupdate _) (fun _ _ => rfl)
        (fun _ _ => rfl) rfl rfl hrest hfinishing (fun hopen => hopen) ?active (fun _ _ => rfl)
        hw.proper ?self
      case active => simp only [state, Function.update_self]; rfl
      case self =>
        apply consistent_of_not_waiting
        case hwaiting => simp only [state, Function.update_self]; rfl
        case hreads => exact hreads
        case hqueue =>
          simp only [state, Function.update_self]
          exact hsame.trans hqueue
        case hrefs => simp only [state, Function.update_self]; exact hrefs
        case htimer => simp only [Function.update_self]; exact htimer
        case htable => exact herased
        case hhistory => simpa [RequestState.active] using hwaits

/-- The socket reports one request of a write. `c` is the connection when the
request is taken off the write. -/
theorem Invariant.finish_request (hw : w.Invariant answers) {ok : Bool} {h : ι}
    {rest : List ι} (htask : w.conn.task = .completing ok (h :: rest)) (d : Decision) :
    ∃ c, ({w.conn with task := .completing ok rest} : Connection ι κ ρ).finishWrite ok h d =
        some c ∧
      ({w with conn := c} : World ι κ ρ).Invariant answers ∧ c.task = .completing ok rest := by
  have hfinishing : w.conn.finishing = h :: rest := by rw [finishing, htask]
  have hunread : w.conn.unread = [] := by rw [unread, htask]
  have hh := hw.consistent h
  have hreads := hh.reads
  have hqueue := hh.queue
  have hrefs := hh.refs
  have hwaits := hh.history
  have htimer := hh.timer
  have hnumbered := hh.numbered
  have htable := hh.table
  have hupdate : ∀ x : Handler, ∀ h' ≠ h, Function.update w.conn.handlers h x h' =
      w.conn.handlers h' := fun x h' hne => Function.update_of_ne hne _ _
  have hunref : ∀ h' ≠ h, Function.update w.conn.refs h (w.conn.refs h - 1) h' =
      w.conn.refs h' := fun h' hne => Function.update_of_ne hne _ _
  have hmore : ∀ h' ≠ h, (w.conn.pendingReads ++ [h]).count h' =
      w.conn.pendingReads.count h' := by
    intro h' hne
    rw [List.count_append, List.count_cons_of_ne (fun heq => hne heq.symm), List.count_nil,
      Nat.add_zero]
  have hgone : (handlersOf w.conn.pendingWrites ++ rest).count h = 0 := by
    have hone := hqueue
    rw [queue, hfinishing, List.count_append, List.count_cons_self] at hone
    have hle := Bool.toNat_le (w.conn.state h).queued
    rw [List.count_append]
    omega
  have hqueued : (w.conn.state h).queued = true := by
    rw [queue, hfinishing, List.count_append, List.count_cons_self] at hqueue
    apply Classical.byContradiction
    intro hnot
    rw [Bool.not_eq_true] at hnot
    rw [hnot, Bool.toNat_false] at hqueue
    omega
  rw [state] at hreads hqueue hrefs hwaits htimer hnumbered hqueued
  cases hstate : (w.conn.handlers h).state with
  | new | reading | timeout | done =>
      rw [hstate] at hqueued
      exact Bool.noConfusion hqueued
  | writing =>
      rw [hstate] at hreads hqueue hrefs hwaits htimer hnumbered
      obtain ⟨s, hs⟩ := Option.isSome_iff_exists.mp (hnumbered rfl)
      have hlookup : w.conn.streams.pending.lookup s = some h :=
        (htable s).mpr ⟨hs, by rw [state, hstate]; rfl⟩
      cases ok with
      | true =>
          refine ⟨_, finishWrite_writing hstate, ?_, rfl⟩
          refine hw.finished hfinishing rfl (hupdate _) (fun _ _ => rfl) hmore rfl rfl
            hunread.symm rfl rfl rfl ?active ?self
          case active =>
            intro _
            rw [state, hstate]
            rfl
          case self =>
            have hself : ∀ x : Handler, Function.update w.conn.handlers h x h = x :=
              fun x => Function.update_self ..
            constructor
            case reads =>
              simp only [state, hself, List.count_append, hreads, List.count_singleton_self]
              rfl
            case queue =>
              simp only [state, hself]
              exact hgone
            case refs => simp only [state, hself]; exact hrefs
            case timer => simp only [state, hself]; exact htimer
            case numbered => simp only [hself]; exact fun _ => hnumbered rfl
            case table =>
              intro s'
              have hs' := htable s'
              simp only [state, hstate] at hs'
              simp only [state, hself]
              exact hs'
            case history => simp only [state, hself]; exact hwaits
      | false =>
          have hpos : 0 < w.conn.refs h := by rw [hrefs]; decide
          obtain ⟨streams, hrelease, hpending, -, hvalid⟩ :=
            StreamManager.release_spec hw.valid (Finmap.mem_of_lookup_eq_some hlookup)
          refine ⟨_, finishWrite_failed hstate hs hrelease hpos, ?_, rfl⟩
          refine hw.failed hfinishing hunread hlookup hvalid hpending (hupdate _) hunref rfl rfl
            rfl rfl rfl ?inactive ?others ⟨hwaits, hw.proper⟩ ?self
          case inactive =>
            simp only [state, Function.update_self]
            cases d.retry <;> rfl
          case others => exact fun h' hne => if_neg (fun heq => hne heq.symm)
          case self =>
            apply consistent_of_not_waiting
            case hwaiting =>
              simp only [state, Function.update_self]
              cases d.retry <;> rfl
            case hreads => exact hreads
            case hqueue =>
              simp only [state, Function.update_self]
              exact hgone.trans (by cases d.retry <;> rfl)
            case hrefs =>
              simp only [state, Function.update_self, hrefs]
              cases d.retry <;> rfl
            case htimer => simp only [Function.update_self]
            case htable =>
              intro s'
              simp only [hpending]
              exact hh.erased hlookup s'
            case hhistory => exact if_pos rfl
  | timeoutWriteOutstanding =>
      rw [hstate] at hreads hqueue hrefs hwaits htimer hnumbered
      refine ⟨_, finishWrite_timeoutWriteOutstanding hstate, ?_, rfl⟩
      refine hw.finished hfinishing rfl (hupdate _) (fun _ _ => rfl) hmore rfl rfl
        hunread.symm rfl rfl rfl ?active ?self
      case active =>
        simp only [state, Function.update_self]
        exact fun hactive => Bool.noConfusion hactive
      case self =>
        have hself : ∀ x : Handler, Function.update w.conn.handlers h x h = x :=
          fun x => Function.update_self ..
        constructor
        case reads =>
          simp only [state, hself, List.count_append, hreads, List.count_singleton_self]
          rfl
        case queue =>
          simp only [state, hself]
          exact hgone
        case refs => simp only [state, hself]; exact hrefs
        case timer => simp only [state, hself]; exact htimer
        case numbered => simp only [hself]; exact fun _ => hnumbered rfl
        case table =>
          intro s'
          have hs' := htable s'
          simp only [state, hstate] at hs'
          simp only [state, hself]
          exact hs'
        case history => simp only [state, hself]; exact hwaits
  | readBeforeWrite | retryWriteOutstanding =>
      rw [hstate] at hreads hqueue hrefs hwaits htimer hnumbered
      have hpos : 0 < w.conn.refs h := by rw [hrefs]; decide
      first
        | refine ⟨_, finishWrite_readBeforeWrite hstate hpos, ?_, rfl⟩
        | refine ⟨_, finishWrite_retryWriteOutstanding hstate hpos, ?_, rfl⟩
      refine hw.finished hfinishing rfl (hupdate _) hunref (fun _ _ => rfl) rfl rfl
        hunread.symm rfl rfl rfl ?active ?self
      case active =>
        simp only [state, Function.update_self]
        exact fun hactive => Bool.noConfusion hactive
      case self =>
        apply consistent_of_not_waiting
        case hwaiting => simp only [state, Function.update_self]; rfl
        case hreads => exact hreads
        case hqueue => simp only [state, Function.update_self]; exact hgone
        case hrefs => simp only [state, Function.update_self, hrefs]; rfl
        case htimer => simp only [Function.update_self]
        case htable =>
          intro s' hs'
          have hwaiting := ((htable s').mp hs').2
          rw [state, hstate] at hwaiting
          exact Bool.noConfusion hwaiting
        case hhistory => simpa [RequestState.active] using hwaits

/-- The timer of a request runs out. -/
theorem Invariant.timeout_request (hw : w.Invariant answers) {h : ι}
    (htimer : (w.conn.handlers h).timer = true) (d : Decision) :
    ∃ c, w.conn.onTimeout h d = some c ∧
      ({w with conn := c} : World ι κ ρ).Invariant answers := by
  have hh := hw.consistent h
  have hactive : (w.conn.handlers h).state.active = true := by
    rw [← htimer]
    exact hh.timer.symm
  have hwaits : (outstanding w.conn.history h).isSome = true := by
    rw [hh.history]
    exact hactive
  have hreads := hh.reads
  have hqueue := hh.queue
  have hrefs := hh.refs
  have htable := hh.table
  have hnumbered := hh.numbered
  simp only [state] at hreads hqueue hrefs htable hnumbered
  refine ⟨_, onTimeout_active hactive, ?_⟩
  have hafter : ∀ st : RequestState, st.active = true →
      let next := if st = .writing then RequestState.timeoutWriteOutstanding else .timeout
      next.active = false ∧ next.waiting = true ∧ st.waiting = true ∧
        next.inReads = st.inReads ∧ next.queued = st.queued := by
    intro st
    cases st <;> decide
  obtain ⟨hinactive, hwaiting, hwaiting', hinReads, hinQueue⟩ := hafter _ hactive
  have hself : ∀ x : Handler, Function.update w.conn.handlers h x h = x :=
    fun x => Function.update_self ..
  refine hw.timedOut rfl (fun h' hne => Function.update_of_ne hne _ _) ?stream ?waiting rfl rfl rfl
    rfl rfl (fun hopen => (Bool.or_eq_false_iff.mp hopen).1) ?inactive
    (fun h' hne => if_neg (fun heq => hne heq.symm)) ⟨hwaits, hw.proper⟩ ?self
  case stream => simp only [hself]
  case waiting => simp only [state, hself]; exact hwaiting
  case inactive => simp only [state, hself]; exact hinactive
  case self =>
    constructor
    case reads => simp only [state, hself, hinReads]; exact hreads
    case queue => simp only [state, hself, hinQueue]; exact hqueue
    case refs => simp only [state, hself, hinReads, hinQueue]; exact hrefs
    case timer => simp only [state, hself, hinactive]
    case numbered => simp only [hself]; exact fun _ => hnumbered hwaiting'
    case table =>
      intro s
      simp only [state, hself, hwaiting, htable s, hwaiting']
    case history =>
      simp only [state, hself, hinactive]
      exact congrArg Option.isSome (if_pos rfl)

/-- A request is written, cannot be encoded, or finds no stream. -/
theorem Invariant.write (hw : w.Invariant answers) {h : ι}
    (hnew : (w.conn.handlers h).state = .new) (request : κ) (encodable flushImmediately : Bool) :
    ∃ w', w.perform (.write h request encodable flushImmediately) = some w' ∧
      w'.Invariant answers ∧ w'.closed = w.closed := by
  obtain ⟨-, -, -, htimer, -, -⟩ := hw.idle_spec (Or.inl hnew)
  have hupdate : ∀ x : Handler, ∀ h' ≠ h, Function.update w.conn.handlers h x h' =
      w.conn.handlers h' := fun x h' hne => Function.update_of_ne hne _ _
  cases hacquire : w.conn.streams.acquire h with
  | mk found streams =>
      cases found with
      | none =>
          obtain ⟨-, hpending, -, hvalid⟩ := StreamManager.acquire_none hw.valid hacquire
          refine ⟨_, congrArg (Option.map _) (internalWrite_full hacquire), ?_, rfl⟩
          refine hw.idle rfl rfl hvalid hpending rfl (fun _ => rfl) (fun _ hp _ => hp) rfl hw.near
            hw.far
      | some s =>
          obtain ⟨-, hfree, hpending, -, hvalid⟩ := StreamManager.acquire_some hw.valid hacquire
          cases encodable with
          | true =>
              refine ⟨_, congrArg (Option.map _) (internalWrite_written hacquire hnew), ?_, rfl⟩
              cases flushImmediately with
              | false =>
                  refine hw.written hnew hfree hvalid hpending (hupdate _)
                    (Function.update_self ..) rfl rfl rfl rfl rfl rfl rfl
              | true =>
                  refine Invariant.flush ?_
                  refine hw.written hnew hfree hvalid hpending (hupdate _)
                    (Function.update_self ..) rfl rfl rfl rfl rfl rfl rfl
          | false =>
              obtain ⟨released, hrelease, hreleased, -, hvalid'⟩ :=
                StreamManager.release_spec hvalid
                  (by rw [hpending]; exact Finmap.mem_insert.mpr (Or.inl rfl))
              rw [hpending, erase_insert hfree] at hreleased
              refine ⟨_, congrArg (Option.map _) (internalWrite_unencodable hacquire hrelease), ?_,
                rfl⟩
              refine hw.unencodable hnew hvalid' hreleased (hupdate _) ?_ ?_ rfl rfl rfl rfl rfl
                rfl rfl
              · simp only [Function.update_self]
                exact hnew
              · simp only [Function.update_self]
                exact htimer

/-- In every world that is reached the invariant holds, or the connection is
closed and nothing is left. -/
def Safe (answers : κ → ρ → Prop) (w : World ι κ ρ) : Prop :=
  (w.closed = false ∧ w.Invariant answers) ∨ (w.closed = true ∧ w.Settled answers)

theorem new_safe (protocolVersion : Nat) :
    (new protocolVersion : World ι κ ρ).Safe answers := by
  refine Or.inl ⟨rfl, ?_⟩
  have hempty : ∀ s, (∅ : Finmap fun _ : Nat => ι).lookup s = none :=
    fun s => Finmap.lookup_empty s
  constructor
  case valid => exact StreamManager.new_valid protocolVersion
  case consistent =>
    intro h
    apply consistent_of_not_waiting
    case hwaiting | hreads | hqueue | hrefs | htimer | hhistory => rfl
    case htable =>
      intro s hs
      exact absurd hs (by rw [show (new protocolVersion : World ι κ ρ).conn.streams.pending = ∅
        from rfl, hempty]; simp)
  case opened => exact fun p hp _ => absurd hp List.not_mem_nil
  case near =>
    exact ⟨fun s => Nat.zero_le _, fun f hf => absurd hf List.not_mem_nil,
      fun m hm => absurd hm List.not_mem_nil⟩
  case far =>
    intro _
    exact ⟨fun s => Nat.zero_le _, fun f hf => absurd hf List.not_mem_nil,
      fun m hm => absurd hm List.not_mem_nil⟩
  case proper => exact trivial

/-- One message of a chunk is consumed. -/
theorem Invariant.consume (hw : w.Invariant answers) {m : Message ρ} {rest : List (Message ρ)}
    (htask : w.conn.task = .consuming (m :: rest)) (d : Decision) :
    ∃ w', w.perform (.consume d) = some w' ∧ w'.Invariant answers ∧ w'.closed = w.closed := by
  have hunread : w.conn.unread = m :: rest := by rw [unread, htask]
  generalize htask' : (if rest.isEmpty = true then Task.idle else Task.consuming rest :
    Task ι ρ) = task
  have hrest : ({w.conn with task := task} : Connection ι κ ρ).unread = rest := by
    subst htask'
    cases rest <;> rfl
  have hfinishing : ({w.conn with task := task} : Connection ι κ ρ).finishing =
      w.conn.finishing := by
    subst htask'
    rw [finishing, finishing, htask]
    cases rest <;> rfl
  simp only [perform, htask, htask']
  by_cases hneg : m.stream < 0
  · -- no request waits on a negative stream
    cases hevent : m.isEvent with
    | true =>
        refine ⟨_, congrArg (Option.map _) (consume_event hneg hevent), ?_, rfl⟩
        exact hw.skipped hunread hrest rfl rfl hw.valid rfl rfl rfl hfinishing rfl id rfl
    | false =>
        refine ⟨_, congrArg (Option.map _) (consume_stray hneg hevent), ?_, rfl⟩
        exact hw.skipped hunread hrest rfl rfl hw.valid rfl rfl rfl hfinishing rfl
          (fun hopen => Bool.noConfusion hopen) rfl
  · cases hlookup : w.conn.streams.pending.lookup m.stream.toNat with
    | none =>
        have htake := StreamManager.getPendingAndRelease_none
          (Finmap.lookup_eq_none.mp hlookup)
        have hunknown := consume_unknown (c := {w.conn with task := task}) (d := d)
          (Int.not_lt.mp hneg) htake
        refine ⟨_, congrArg (Option.map _) hunknown, ?_, rfl⟩
        exact hw.skipped hunread hrest rfl rfl hw.valid rfl rfl rfl hfinishing rfl
          (fun hopen => Bool.noConfusion hopen) rfl
    | some h =>
        obtain ⟨c, hc, hinv⟩ := hw.consume_response hunread (by omega) hlookup hrest hfinishing d
        exact ⟨_, congrArg (Option.map _) hc, hinv, rfl⟩

/-- After the last request of a write the next write is flushed. -/
theorem Invariant.endWrite {c : Connection ι κ ρ} {serving : List (Frame κ)}
    {inbound : List (Message ρ)} {closed ok : Bool} {rest : List ι}
    (hw : (⟨c, serving, inbound, closed⟩ : World ι κ ρ).Invariant answers)
    (htask : c.task = .completing ok rest) :
    (⟨c.endWrite rest, serving, inbound, closed⟩ : World ι κ ρ).Invariant answers := by
  unfold Connection.endWrite
  split
  case isFalse => exact hw
  case isTrue hempty =>
    rw [List.isEmpty_iff] at hempty
    subst hempty
    have hunread : ({c with task := .idle} : Connection ι κ ρ).unread = c.unread := by
      simp only [unread, htask]
    apply Invariant.flush
    apply hw.idle
    case hhandlers | hrefs | hpending | hreads | hhistory => rfl
    case hvalid => exact hw.valid
    case hqueue =>
      intro h
      simp only [queue, finishing, htask]
    case hopened => exact fun _ hp _ => hp
    case hnear =>
      rw [hunread]
      exact hw.near
    case hfar =>
      intro hopen
      rw [hunread]
      exact hw.far hopen

/-- One request of a write is reported. -/
theorem Invariant.finishWrite (hw : w.Invariant answers) {ok : Bool} {h : ι} {rest : List ι}
    (htask : w.conn.task = .completing ok (h :: rest)) (d : Decision) :
    ∃ w', w.perform (.finishWrite d) = some w' ∧ w'.Invariant answers ∧ w'.closed = w.closed := by
  obtain ⟨c, hc, hinv, htask'⟩ := hw.finish_request htask d
  simp only [perform, htask]
  exact ⟨_, congrArg (Option.map _) hc, hinv.endWrite htask', rfl⟩

/-- Another request retries one whose write is not reported yet. -/
def Premature (w : World ι κ ρ) (e : Event ι κ ρ) : Prop :=
  ∃ h, e = .retry h ∧ w.conn.state h = .readBeforeWrite

/-- `set_state` allows no such thing. -/
theorem Premature.fails {e : Event ι κ ρ} (h : w.Premature e) : w.perform e = none := by
  obtain ⟨h, rfl, hstate⟩ := h
  exact congrArg (Option.map _) (setState_readBeforeWrite hstate)

omit [DecidableEq ι] in
theorem idle_of_retry {h : ι} (he : w.Enabled answers (.retry h))
    (hmature : ¬ w.Premature (.retry h)) : w.conn.state h = .new ∨ w.conn.state h = .done := by
  rcases he with hnew | hdone | hearly
  · exact Or.inl hnew
  · exact Or.inr hdone
  · exact absurd ⟨h, rfl, hearly⟩ hmature

/-- In an open world whatever else may happen next happens without a failed
assertion. -/
theorem Invariant.perform (hw : w.Invariant answers) (hopen : w.closed = false)
    {e : Event ι κ ρ} (he : w.Enabled answers e) (hmature : ¬ w.Premature e) :
    ∃ w', w.perform e = some w' ∧ w'.Safe answers := by
  have hkeep : ∀ {w' : World ι κ ρ}, w'.Invariant answers → w'.closed = w.closed →
      w'.Safe answers := fun hinv hclosed => Or.inl ⟨hclosed.trans hopen, hinv⟩
  cases e with
  | write h request encodable flushImmediately =>
      obtain ⟨w', hw', hinv, hclosed⟩ := hw.write he.2 request encodable flushImmediately
      exact ⟨w', hw', hkeep hinv hclosed⟩
  | flush => exact ⟨_, rfl, hkeep (hw.flushed (flush_spec w.conn)) rfl⟩
  | close => exact ⟨_, rfl, hkeep hw.close rfl⟩
  | read n =>
      obtain ⟨-, htask, hclosing, -, -⟩ := he
      exact ⟨_, rfl, hkeep (hw.read n htask hclosing) rfl⟩
  | consume d =>
      obtain ⟨m, rest, htask⟩ := he
      obtain ⟨w', hw', hinv, hclosed⟩ := hw.consume htask d
      exact ⟨w', hw', hkeep hinv hclosed⟩
  | onWrite i ok =>
      obtain ⟨-, htask, p, hi, -⟩ := he
      exact ⟨_, congrArg (Option.map _) hi, hkeep ((hw.onWrite htask hi ok).endWrite rfl) rfl⟩
  | finishWrite d =>
      obtain ⟨ok, h, rest, htask⟩ := he
      obtain ⟨w', hw', hinv, hclosed⟩ := hw.finishWrite htask d
      exact ⟨w', hw', hkeep hinv hclosed⟩
  | timeout h d =>
      obtain ⟨c, hc, hinv⟩ := hw.timeout_request he.2.2 d
      exact ⟨_, congrArg (Option.map _) hc, hkeep hinv rfl⟩
  | retry h =>
      obtain ⟨c, hc, hinv⟩ := hw.retried (idle_of_retry he hmature)
      exact ⟨_, congrArg (Option.map _) hc, hkeep hinv rfl⟩
  | onClose =>
      obtain ⟨c, hc, hsettled⟩ := hw.onClose he.2.1 he.2.2.1
      exact ⟨_, congrArg (Option.map _) hc, Or.inr ⟨rfl, hsettled⟩⟩
  | receive =>
      obtain ⟨f, rest, hout⟩ := List.exists_cons_of_ne_nil he
      refine ⟨_, by simp only [World.perform, hout], hkeep (hw.receive hout) rfl⟩
  | answer i body =>
      obtain ⟨f, hi, hbody⟩ := he
      exact ⟨_, congrArg (Option.map _) hi, hkeep (hw.answered hi hbody) rfl⟩
  | event body => exact ⟨_, rfl, hkeep (hw.event body) rfl⟩

/-- Once the connection is closed only the socket and the server still move, and
requests are made ready for other connections. -/
theorem Settled.perform (hw : w.Settled answers) (hclosed : w.closed = true)
    {e : Event ι κ ρ} (he : w.Enabled answers e) (hmature : ¬ w.Premature e) :
    ∃ w', w.perform e = some w' ∧ w'.Safe answers := by
  have hnot : w.closed ≠ false := by
    rw [hclosed]
    decide
  cases e with
  | write | read | onWrite | timeout | onClose => exact absurd he.1 hnot
  | flush | close => exact absurd he hnot
  | consume d =>
      obtain ⟨m, rest, htask⟩ := he
      cases hw.idle.symm.trans htask
  | finishWrite d =>
      obtain ⟨ok, h, rest, htask⟩ := he
      cases hw.idle.symm.trans htask
  | retry h =>
      obtain ⟨next, hnext, -, -⟩ := setState_new (idle_of_retry he hmature)
      have hset : w.conn.setState h .new = some (w.conn.setHandler h next) :=
        congrArg (Option.map _) hnext
      refine ⟨_, congrArg (Option.map _) hset, Or.inr ⟨hclosed, ?_⟩⟩
      exact ⟨hw.idle, hw.closing, hw.refs, hw.history, hw.proper⟩
  | receive =>
      obtain ⟨f, rest, hout⟩ := List.exists_cons_of_ne_nil he
      refine ⟨_, by simp only [World.perform, hout]; rfl, ?_⟩
      exact Or.inr ⟨hclosed, hw.idle, hw.closing, hw.refs, hw.history, hw.proper⟩
  | answer i body =>
      obtain ⟨f, hi, -⟩ := he
      refine ⟨_, congrArg (Option.map _) hi, Or.inr ⟨hclosed, ?_⟩⟩
      exact ⟨hw.idle, hw.closing, hw.refs, hw.history, hw.proper⟩
  | event body =>
      refine ⟨_, rfl, Or.inr ⟨hclosed, ?_⟩⟩
      exact ⟨hw.idle, hw.closing, hw.refs, hw.history, hw.proper⟩

theorem Safe.perform (hw : w.Safe answers) {e : Event ι κ ρ} (he : w.Enabled answers e)
    (hmature : ¬ w.Premature e) : ∃ w', w.perform e = some w' ∧ w'.Safe answers := by
  rcases hw with ⟨hopen, hinv⟩ | ⟨hclosed, hsettled⟩
  · exact hinv.perform hopen he hmature
  · exact hsettled.perform hclosed he hmature

/-- The run lemma. -/
theorem Reachable.safe {protocolVersion : Nat} (hw : Reachable answers protocolVersion w) :
    w.Safe answers := by
  induction hw with
  | refl => exact new_safe protocolVersion
  | tail _ hstep ih =>
      obtain ⟨e, he, hperform⟩ := hstep
      obtain ⟨w', hw', hsafe⟩ := ih.perform he fun hearly => by
        rw [hearly.fails] at hperform
        cases hperform
      rw [hperform, Option.some_inj] at hw'
      exact hw' ▸ hsafe

theorem Safe.proper (hw : w.Safe answers) : Proper answers w.conn.history := by
  rcases hw with ⟨-, hinv⟩ | ⟨-, hsettled⟩
  · exact hinv.proper
  · exact hsettled.proper

end World

end Img2Web.Driver
