import Img2Web.Driver.Delivery

/-!
A connection that is closing comes to its end. The event loop reports the
writes the socket took, then that the socket is closed, and whatever else
happens meanwhile adds nothing to what it still has to report.
-/

namespace Img2Web.Driver

namespace Connection

variable {ι κ ρ : Type}

variable [DecidableEq ι]

theorem consume_keeps {c c' : Connection ι κ ρ} {m : Message ρ} {d : Decision}
    (h : c.consume m d = some c') : c.Keeps c' := by
  unfold consume at h
  split at h
  case isTrue =>
    split at h <;> obtain rfl := Option.some_inj.mp h
    · exact .refl c
    · exact ⟨rfl, rfl, fun _ => rfl⟩
  case isFalse =>
    split at h
    case h_1 => cases h
    case h_2 =>
      obtain rfl := Option.some_inj.mp h
      exact ⟨rfl, rfl, fun _ => rfl⟩
    case h_3 streams _ =>
      have hstart : c.Keeps {c with streams := streams} := ⟨rfl, rfl, id⟩
      simp only [Option.bind_eq_bind, Option.pure_def] at h
      split at h
      case h_1 =>
        simp only [Option.bind_eq_some_iff] at h
        obtain ⟨c₁, hremove, c₂, hdone, c₃, hretry, hdec⟩ := h
        have hdone := ((hstart.removeRead hremove).setTimer _ _).setState hdone
        exact (((hdone.note _).retryIf hretry).closeIf _).decRef hdec
      case h_2 =>
        simp only [Option.bind_eq_some_iff, Option.some_inj] at h
        obtain ⟨c₁, hset, c₂, hretry, rfl⟩ := h
        exact (((hstart.setState hset).note _).retryIf hretry).closeIf _
      case h_3 =>
        simp only [Option.bind_eq_some_iff] at h
        obtain ⟨c₁, hremove, c₂, hdone, hdec⟩ := h
        exact ((hstart.removeRead hremove).setState hdone).decRef hdec
      case h_4 => exact hstart.setState h
      case h_5 => cases h

theorem finishWrite_keeps {c c' : Connection ι κ ρ} {ok : Bool} {h : ι} {d : Decision}
    (hfinish : c.finishWrite ok h d = some c') : c.Keeps c' := by
  unfold finishWrite at hfinish
  simp only [Option.bind_eq_bind, Option.pure_def] at hfinish
  split at hfinish
  case h_1 =>
    split at hfinish
    case isTrue =>
      simp only [Option.bind_eq_some_iff, Option.some_inj] at hfinish
      obtain ⟨c₁, hset, rfl⟩ := hfinish
      have h₁ := (Keeps.refl c).setState hset
      exact ⟨h₁.task, h₁.writes, h₁.closing⟩
    case isFalse =>
      simp only [Option.bind_eq_some_iff] at hfinish
      obtain ⟨stream, -, streams, -, c₁, hset, c₂, hretry, hdec⟩ := hfinish
      have hstart : c.Keeps ({c.close with streams := streams}.setTimer h false) :=
        ⟨rfl, rfl, fun _ => rfl⟩
      exact (((hstart.setState hset).note _).retryIf hretry).decRef hdec
  case h_2 =>
    simp only [Option.bind_eq_some_iff, Option.some_inj] at hfinish
    obtain ⟨c₁, hset, rfl⟩ := hfinish
    have h₁ := (Keeps.refl c).setState hset
    exact ⟨h₁.task, h₁.writes, h₁.closing⟩
  case h_3 | h_4 =>
    simp only [Option.bind_eq_some_iff] at hfinish
    obtain ⟨c₁, hset, hdec⟩ := hfinish
    exact (((Keeps.refl c).setTimer h false).setState hset).decRef hdec
  case h_5 => cases hfinish

theorem onTimeout_keeps {c c' : Connection ι κ ρ} {h : ι} {d : Decision}
    (htimeout : c.onTimeout h d = some c') : c.Keeps c' := by
  unfold onTimeout at htimeout
  simp only [Option.bind_eq_bind, Option.pure_def, Option.bind_eq_some_iff, Option.some_inj]
    at htimeout
  obtain ⟨c₁, hset, rfl⟩ := htimeout
  exact ((((Keeps.refl c).setTimer h false).setState hset).note _).closeIf _

section Reports

/-! What the event loop still has to report. -/

omit [DecidableEq ι]

/-- What the loop will report of the writes the socket took: each write, and
each of its requests. -/
def reports : List (PendingWrite ι κ) → Nat
  | [] => 0
  | p :: rest => (if p.submitted then p.handlers.length + 1 else 0) + reports rest

/-- The socket took only what was flushed. -/
def Unsubmitted (writes : List (PendingWrite ι κ)) : Prop :=
  ∀ p ∈ writes, p.flushed = false → p.submitted = false

theorem reports_append (front rest : List (PendingWrite ι κ)) :
    reports (front ++ rest) = reports front + reports rest := by
  induction front with
  | nil => rw [List.nil_append, reports, Nat.zero_add]
  | cons p front ih => rw [List.cons_append, reports, reports, ih, Nat.add_assoc]

theorem reports_single (p : PendingWrite ι κ) :
    reports [p] = if p.submitted then p.handlers.length + 1 else 0 := rfl

theorem reports_eraseIdx {writes : List (PendingWrite ι κ)} {i : Nat} {p : PendingWrite ι κ}
    (hi : writes[i]? = some p) (hsubmitted : p.submitted = true) :
    reports (writes.eraseIdx i) + (p.handlers.length + 1) = reports writes := by
  obtain ⟨hlt, rfl⟩ := List.getElem?_eq_some_iff.mp hi
  have hsplit : writes = writes.take i ++ ([writes[i]] ++ writes.drop (i + 1)) := by
    rw [List.singleton_append, ← List.drop_eq_getElem_cons hlt, List.take_append_drop]
  have hwhole : reports writes =
      reports (writes.take i) + (reports [writes[i]] + reports (writes.drop (i + 1))) := by
    rw [← reports_append, ← reports_append, ← hsplit]
  rw [reports_single, if_pos hsubmitted] at hwhole
  rw [List.eraseIdx_eq_take_drop_succ, reports_append]
  omega

theorem openWrite_reports {writes : List (PendingWrite ι κ)} (hwrites : Unsubmitted writes) :
    reports (openWrite writes).1 = reports writes ∧ Unsubmitted (openWrite writes).1 ∧
      (openWrite writes).2.submitted = false := by
  unfold openWrite
  split
  case h_1 back hlast =>
    obtain ⟨front, rfl⟩ := List.getLast?_eq_some_iff.mp hlast
    split
    case isTrue => exact ⟨rfl, hwrites, rfl⟩
    case isFalse hflushed =>
      have hback : back.submitted = false :=
        hwrites back (by simp) (Bool.eq_false_iff.mpr hflushed)
      rw [List.dropLast_concat, reports_append, reports_single, hback]
      exact ⟨rfl, fun p hp => hwrites p (List.mem_append_left _ hp), rfl⟩
  case h_2 hlast =>
    obtain rfl := List.getLast?_eq_none_iff.mp hlast
    exact ⟨rfl, hwrites, rfl⟩

/-- `c'` owes no more reports than `c`, if `c` is closing. -/
structure Defers (c c' : Connection ι κ ρ) : Prop where
  task : c'.task = c.task
  closing : c.closing = true → c'.closing = true
  writes : Unsubmitted c.pendingWrites → Unsubmitted c'.pendingWrites ∧
    (c.closing = true → reports c'.pendingWrites ≤ reports c.pendingWrites)

theorem Keeps.defers {c c' : Connection ι κ ρ} (h : c.Keeps c') : c.Defers c' := by
  refine ⟨h.task, h.closing, ?_⟩
  rw [h.writes]
  exact fun hwrites => ⟨hwrites, fun _ => Nat.le_refl _⟩

theorem Defers.trans {c₁ c₂ c₃ : Connection ι κ ρ} (h : c₁.Defers c₂) (h' : c₂.Defers c₃) :
    c₁.Defers c₃ := by
  refine ⟨h'.task.trans h.task, fun hclosing => h'.closing (h.closing hclosing), ?_⟩
  intro hwrites
  obtain ⟨hwrites₂, hle⟩ := h.writes hwrites
  obtain ⟨hwrites₃, hle'⟩ := h'.writes hwrites₂
  exact ⟨hwrites₃, fun hclosing => (hle' (h.closing hclosing)).trans (hle hclosing)⟩

/-- A write that starts out open is not reported. -/
theorem opened_defers {c c' : Connection ι κ ρ} {back : PendingWrite ι κ}
    (hwrites : c'.pendingWrites = (openWrite c.pendingWrites).1 ++ [back])
    (hback : back.submitted = (openWrite c.pendingWrites).2.submitted)
    (htask : c'.task = c.task) (hclosing : c'.closing = c.closing) : c.Defers c' := by
  refine ⟨htask, fun h => hclosing.trans h, ?_⟩
  intro hunsubmitted
  obtain ⟨hreports, hfront, hopen⟩ := openWrite_reports hunsubmitted
  rw [hopen] at hback
  rw [hwrites]
  constructor
  · intro p hp hflushed
    rcases List.mem_append.mp hp with hp | hp
    · exact hfront p hp hflushed
    · rw [List.mem_singleton.mp hp]
      exact hback
  · intro _
    rw [reports_append, reports_single, hback, hreports]
    exact Nat.le_refl _

theorem flush_defers (c : Connection ι κ ρ) : c.Defers c.flush := by
  unfold flush
  split
  case h_1 back hlast =>
    obtain ⟨front, hfront⟩ := List.getLast?_eq_some_iff.mp hlast
    split
    case isTrue => exact (Keeps.refl c).defers
    case isFalse =>
      refine ⟨rfl, id, ?_⟩
      intro hunsubmitted
      simp only [hfront, List.dropLast_concat] at hunsubmitted ⊢
      constructor
      · intro p hp hflushed
        rcases List.mem_append.mp hp with hp | hp
        · exact hunsubmitted p (List.mem_append_left _ hp) hflushed
        · rw [List.mem_singleton.mp hp] at hflushed
          exact Bool.noConfusion hflushed
      · intro hclosing
        rw [reports_append, reports_append, reports_single, hclosing]
        exact Nat.add_le_add_left (Nat.zero_le _) _
  case h_2 => exact (Keeps.refl c).defers

end Reports

theorem internalWrite_defers {c c' : Connection ι κ ρ} {h : ι} {request : κ}
    {encodable flushImmediately accepted : Bool}
    (hwrite : c.internalWrite h request encodable flushImmediately = some (accepted, c')) :
    c.Defers c' := by
  unfold internalWrite at hwrite
  split at hwrite
  case h_1 =>
    obtain ⟨-, rfl⟩ := Prod.mk.inj (Option.some_inj.mp hwrite)
    exact ⟨rfl, id, fun h => ⟨h, fun _ => Nat.le_refl _⟩⟩
  case h_2 stream streams _ =>
    simp only [Option.bind_eq_bind, Option.pure_def] at hwrite
    split at hwrite
    case isTrue =>
      simp only [Option.bind_eq_some_iff, Option.some_inj, Prod.mk.injEq] at hwrite
      obtain ⟨c₁, hset, -, rfl⟩ := hwrite
      have hadded : c.Defers (c₁.setTimer h true) := by
        refine Defers.trans ?_ (((Keeps.refl _).setState hset).setTimer h true).defers
        exact opened_defers rfl rfl rfl rfl
      split
      · exact hadded.trans (flush_defers _)
      · exact hadded
    case isFalse =>
      simp only [Option.bind_eq_some_iff, Option.some_inj, Prod.mk.injEq] at hwrite
      obtain ⟨released, -, c₁, hdec, -, rfl⟩ := hwrite
      refine Defers.trans ?_ ((Keeps.refl _).decRef hdec).defers
      exact opened_defers rfl rfl rfl rfl

end Connection

namespace Connection

variable {ι κ ρ : Type}

/-- The loop is never in a callback that has nothing left to do. -/
structure Orderly (c : Connection ι κ ρ) : Prop where
  writes : Unsubmitted c.pendingWrites
  consuming : c.task ≠ .consuming []
  completing : ∀ ok, c.task ≠ .completing ok []

/-- The requests and messages that the loop still has to go through. -/
def remaining (c : Connection ι κ ρ) : Nat :=
  c.unread.length + c.finishing.length + reports c.pendingWrites

theorem Defers.orderly {c c' : Connection ι κ ρ} (h : c.Defers c') (hc : c.Orderly) :
    c'.Orderly ∧ (c.closing = true → c'.closing = true ∧ c'.remaining ≤ c.remaining) := by
  obtain ⟨hwrites, hle⟩ := h.writes hc.writes
  have hconsuming := hc.consuming
  have hcompleting := hc.completing
  rw [← h.task] at hconsuming hcompleting
  refine ⟨⟨hwrites, hconsuming, hcompleting⟩, fun hclosing => ⟨h.closing hclosing, ?_⟩⟩
  rw [remaining, remaining, unread, unread, finishing, finishing, h.task]
  exact Nat.add_le_add_left (hle hclosing) _

/-- Within `on_write`, which goes on with the requests that are left or ends. -/
theorem endWrite_orderly {c : Connection ι κ ρ} {ok : Bool} {rest : List ι}
    (htask : c.task = .completing ok rest) (hwrites : Unsubmitted c.pendingWrites) :
    (c.endWrite rest).Orderly ∧ (c.closing = true → (c.endWrite rest).closing = true ∧
      (c.endWrite rest).remaining ≤ rest.length + reports c.pendingWrites) := by
  unfold endWrite
  cases rest with
  | nil =>
      have hidle : ({c with task := .idle} : Connection ι κ ρ).Orderly :=
        ⟨hwrites, by simp, by simp⟩
      obtain ⟨horderly, hclosing⟩ := (flush_defers _).orderly hidle
      refine ⟨horderly, fun hc => ⟨(hclosing hc).1, (hclosing hc).2.trans ?_⟩⟩
      simp [remaining, unread, finishing]
  | cons h rest =>
      refine ⟨⟨hwrites, by simp [htask], by simp [htask]⟩, fun hc => ⟨hc, ?_⟩⟩
      simp [remaining, unread, finishing, htask]

end Connection

/-- The callbacks that go through what the loop has to report. -/
def Event.reporting {ι κ ρ : Type} : Event ι κ ρ → Bool
  | .consume _ | .onWrite _ _ | .finishWrite _ | .onClose => true
  | _ => false

namespace World

open Connection

variable {ι κ ρ : Type} [DecidableEq ι] {answers : κ → ρ → Prop} {w w' : World ι κ ρ}

/-- How often the loop calls back until the connection is closed. -/
def remaining (w : World ι κ ρ) : Nat := w.conn.remaining + (!w.closed).toNat

/-- The step lemma: a report brings a closing connection closer to its end, and
nothing else leads it away. -/
theorem orderly_perform (hw : w.conn.Orderly) {e : Event ι κ ρ} (he : w.Enabled answers e)
    (hperform : w.perform e = some w') :
    w'.conn.Orderly ∧ (w.conn.closing = true → w'.conn.closing = true ∧
      w'.remaining + e.reporting.toNat ≤ w.remaining) := by
  have hdefers : ∀ {c : Connection ι κ ρ}, w.conn.Defers c →
      c.Orderly ∧ (w.conn.closing = true → c.closing = true ∧
        c.remaining + (!w.closed).toNat ≤ w.remaining) := by
    intro c hc
    obtain ⟨horderly, hclosing⟩ := hc.orderly hw
    exact ⟨horderly, fun h => ⟨(hclosing h).1, Nat.add_le_add_right (hclosing h).2 _⟩⟩
  cases e with
  | write h request encodable flushImmediately =>
      obtain ⟨⟨accepted, c⟩, hwrite, rfl⟩ := Option.map_eq_some_iff.mp hperform
      exact hdefers (internalWrite_defers hwrite)
  | flush =>
      obtain rfl := Option.some_inj.mp hperform
      exact hdefers (flush_defers w.conn)
  | close =>
      obtain rfl := Option.some_inj.mp hperform
      exact hdefers ((Keeps.refl w.conn).closeIf true).defers
  | read n =>
      obtain rfl := Option.some_inj.mp hperform
      obtain ⟨-, -, hopen, hpos, hle⟩ := he
      have hlength : (w.inbound.take n).length = n := List.length_take_of_le hle
      refine ⟨⟨hw.writes, ?_, by simp⟩, fun hclosing => ?_⟩
      · intro htask
        injection htask with hnil
        rw [hnil, List.length_nil] at hlength
        omega
      · rw [hopen] at hclosing
        exact Bool.noConfusion hclosing
  | consume d =>
      obtain ⟨m, rest, htask⟩ := he
      simp only [perform, htask] at hperform
      obtain ⟨c, hconsume, rfl⟩ := Option.map_eq_some_iff.mp hperform
      generalize hstart : ({w.conn with
        task := if rest.isEmpty then Task.idle else Task.consuming rest} :
          Connection ι κ ρ) = c₀ at hconsume
      have htaken : c₀.Orderly ∧ c₀.remaining + 1 = w.conn.remaining := by
        subst hstart
        cases rest with
        | nil | cons =>
            refine ⟨⟨hw.writes, by simp, by simp⟩, ?_⟩
            simp [Connection.remaining, unread, finishing, htask]
            omega
      have hkeep : w.conn.closing = true → c₀.closing = true := by
        subst hstart
        exact id
      obtain ⟨horderly, hclosing⟩ := (consume_keeps hconsume).defers.orderly htaken.1
      refine ⟨horderly, fun h => ⟨(hclosing (hkeep h)).1, ?_⟩⟩
      have hle := (hclosing (hkeep h)).2
      have hless := htaken.2
      simp only [remaining, Event.reporting, Bool.toNat_true]
      omega
  | onWrite i ok =>
      obtain ⟨-, htask, p, hi, hsubmitted⟩ := he
      simp only [perform, hi, Option.map_some, Option.some_inj] at hperform
      subst hperform
      have hwrites : Unsubmitted (w.conn.pendingWrites.eraseIdx i) :=
        fun q hq => hw.writes q (List.mem_of_mem_eraseIdx hq)
      obtain ⟨horderly, hclosing⟩ := endWrite_orderly
        (c := {w.conn with
          pendingWrites := w.conn.pendingWrites.eraseIdx i
          task := Task.completing ok p.handlers}) rfl hwrites
      refine ⟨horderly, fun h => ⟨(hclosing h).1, ?_⟩⟩
      have herase := reports_eraseIdx hi hsubmitted
      have hidle : w.conn.remaining = reports w.conn.pendingWrites := by
        simp [Connection.remaining, unread, finishing, htask]
      apply (Nat.add_le_add_right (Nat.add_le_add_right (hclosing h).2 _) _).trans
      show p.handlers.length + reports (w.conn.pendingWrites.eraseIdx i) + (!w.closed).toNat + 1 ≤
        w.conn.remaining + (!w.closed).toNat
      omega
  | finishWrite d =>
      obtain ⟨ok, h, rest, htask⟩ := he
      simp only [perform, htask] at hperform
      obtain ⟨c, hfinish, rfl⟩ := Option.map_eq_some_iff.mp hperform
      have hkeeps := finishWrite_keeps hfinish
      have hwrites : Unsubmitted c.pendingWrites := by
        rw [hkeeps.writes]
        exact hw.writes
      obtain ⟨horderly, hclosing⟩ := endWrite_orderly hkeeps.task hwrites
      refine ⟨horderly, fun h => ⟨(hclosing (hkeeps.closing h)).1, ?_⟩⟩
      have hbusy : w.conn.remaining = rest.length + 1 + reports w.conn.pendingWrites := by
        simp [Connection.remaining, unread, finishing, htask]
      apply (Nat.add_le_add_right (Nat.add_le_add_right
        (hclosing (hkeeps.closing h)).2 _) _).trans
      rw [hkeeps.writes]
      show rest.length + reports w.conn.pendingWrites + (!w.closed).toNat + 1 ≤
        w.conn.remaining + (!w.closed).toNat
      omega
  | timeout h d =>
      obtain ⟨c, htimeout, rfl⟩ := Option.map_eq_some_iff.mp hperform
      exact hdefers (onTimeout_keeps htimeout).defers
  | retry h =>
      obtain ⟨c, hset, rfl⟩ := Option.map_eq_some_iff.mp hperform
      exact hdefers ((Keeps.refl w.conn).setState hset).defers
  | onClose =>
      obtain ⟨c, hclose, rfl⟩ := Option.map_eq_some_iff.mp hperform
      simp only [Connection.onClose, Option.bind_eq_bind, Option.bind_eq_some_iff] at hclose
      obtain ⟨c₁, hreads, hwrites⟩ := hclose
      have h₁ := cleanup_keeps hreads
      have h₂ := cleanup_keeps hwrites
      have htask : c.task = .idle := (h₂.task.trans h₁.task).trans he.2.1
      refine ⟨⟨?_, by simp [htask], by simp [htask]⟩, fun h => ⟨h₂.closing (h₁.closing h), ?_⟩⟩
      · rw [h₂.writes]
        exact fun p hp => absurd hp List.not_mem_nil
      · have hdone : c.remaining = 0 := by
          simp [Connection.remaining, unread, finishing, htask, h₂.writes, reports]
        simp only [remaining, hdone, he.1, Event.reporting]
        simp
  | receive =>
      obtain ⟨f, rest, hout⟩ := List.exists_cons_of_ne_nil he
      simp only [perform, hout, Option.some_inj] at hperform
      subst hperform
      exact hdefers ⟨rfl, id, fun h => ⟨h, fun _ => Nat.le_refl _⟩⟩
  | answer i body =>
      obtain ⟨f, -, rfl⟩ := Option.map_eq_some_iff.mp hperform
      exact hdefers (Keeps.refl w.conn).defers
  | event body =>
      obtain rfl := Option.some_inj.mp hperform
      exact hdefers (Keeps.refl w.conn).defers

theorem orderly {protocolVersion : Nat} (hw : Reachable answers protocolVersion w) :
    w.conn.Orderly := by
  induction hw with
  | refl => exact ⟨fun p hp => absurd hp List.not_mem_nil, by simp [new, Connection.new],
      by simp [new, Connection.new]⟩
  | tail _ hstep ih =>
      obtain ⟨e, he, hperform⟩ := hstep
      exact (orderly_perform ih he hperform).1

omit [DecidableEq ι] in
/-- While a closing connection is not closed there is something to report. -/
theorem report_enabled (answers : κ → ρ → Prop) (hw : w.conn.Orderly)
    (hclosing : w.conn.closing = true) (hopen : w.closed = false) :
    ∃ e : Event ι κ ρ, e.reporting = true ∧ w.Enabled answers e := by
  cases htask : w.conn.task with
  | consuming unread =>
      cases unread with
      | nil => exact absurd htask hw.consuming
      | cons m rest => exact ⟨.consume ⟨false, false⟩, rfl, m, rest, htask⟩
  | completing ok handlers =>
      cases handlers with
      | nil => exact absurd htask (hw.completing ok)
      | cons h rest => exact ⟨.finishWrite ⟨false, false⟩, rfl, ok, h, rest, htask⟩
  | idle =>
      by_cases hwrites : ∀ p ∈ w.conn.pendingWrites, p.submitted = false
      · exact ⟨.onClose, rfl, hopen, htask, hclosing, hwrites⟩
      · push Not at hwrites
        obtain ⟨p, hp, hsubmitted⟩ := hwrites
        obtain ⟨i, hi⟩ := List.mem_iff_getElem?.mp hp
        exact ⟨.onWrite i true, rfl, hopen, htask, p, hi, Bool.eq_true_of_not_eq_false hsubmitted⟩

/-- The events `es` happen one after the other. -/
inductive Run (answers : κ → ρ → Prop) : World ι κ ρ → List (Event ι κ ρ) → World ι κ ρ → Prop
  | nil (w : World ι κ ρ) : Run answers w [] w
  | cons {w₁ w₂ w₃ : World ι κ ρ} {e : Event ι κ ρ} {es : List (Event ι κ ρ)}
      (enabled : w₁.Enabled answers e) (step : w₁.perform e = some w₂)
      (rest : Run answers w₂ es w₃) : Run answers w₁ (e :: es) w₃

theorem Run.remaining {es : List (Event ι κ ρ)} (hrun : Run answers w es w')
    (hw : w.conn.Orderly) (hclosing : w.conn.closing = true) :
    w'.conn.Orderly ∧ w'.conn.closing = true ∧
      w'.remaining + es.countP Event.reporting ≤ w.remaining := by
  induction hrun with
  | nil => exact ⟨hw, hclosing, Nat.le_refl _⟩
  | @cons w₁ w₂ w₃ e es henabled hstep _ ih =>
      obtain ⟨horderly, hclosing'⟩ := orderly_perform hw henabled hstep
      obtain ⟨hclosing₂, hle⟩ := hclosing' hclosing
      obtain ⟨horderly₃, hclosing₃, hle₃⟩ := ih horderly hclosing₂
      refine ⟨horderly₃, hclosing₃, ?_⟩
      rw [List.countP_cons]
      cases hreport : e.reporting with
      | true =>
          rw [hreport, Bool.toNat_true] at hle
          simp only [if_true]
          omega
      | false =>
          rw [hreport, Bool.toNat_false] at hle
          simp only [Bool.false_eq_true, if_false]
          omega

end World

end Img2Web.Driver
