import Mathlib.Logic.Function.Basic
import Img2Web.Driver.RequestRuns

/-!
An `IOWorker` with all its requests. It counts those that it took and that were
not answered, and closes its pools when it is closing and the count is down to
nothing. The null that asks it to close is the last that it takes from its
queue. Its count is a number of any size, where the source has an `int`.
-/

namespace Img2Web.Driver

structure IOWorker (ι η ρ : Type) where
  requests : ι → RequestHandler η ρ
  taken : List ι
  pendingRequestCount : Int
  closing : Bool
  closed : Bool

namespace IOWorker

variable {ι η ρ : Type}

def new (requests : ι → RequestHandler η ρ) : IOWorker ι η ρ := ⟨requests, [], 0, false, false⟩

/-- `maybe_close`. -/
def maybeClose (w : IOWorker ι η ρ) : IOWorker ι η ρ :=
  if w.closing ∧ w.pendingRequestCount ≤ 0 then {w with closed := true} else w

/-- `request_finished`. -/
def requestFinished (w : IOWorker ι η ρ) : IOWorker ι η ρ :=
  {w with pendingRequestCount := w.pendingRequestCount - 1}.maybeClose

/-- `request_finished`, as often as the future was set. -/
def requestsFinished (w : IOWorker ι η ρ) : Nat → IOWorker ι η ρ
  | 0 => w
  | n + 1 => (w.requestsFinished n).requestFinished

variable [DecidableEq ι]

def setRequest (w : IOWorker ι η ρ) (i : ι) (r : RequestHandler η ρ) : IOWorker ι η ρ :=
  {w with requests := Function.update w.requests i r}

/-- A request has gone on to be `r`. -/
def settle (w : IOWorker ι η ρ) (i : ι) (r : RequestHandler η ρ) : IOWorker ι η ρ :=
  (w.setRequest i r).requestsFinished (r.outcomes.length - (w.requests i).outcomes.length)

end IOWorker

/-- What happens to a request before a worker takes it. -/
def RequestHandler.Event.ofSession {η ρ : Type} : RequestHandler.Event η ρ → Bool
  | .rejected _ | .dispatched _ => true
  | _ => false

namespace IOWorker

variable {ι η ρ : Type} [DecidableEq ι]

/-- `on_execute` takes a request from the queue, or the null, or it comes to its
end; or something happens to a request. The label is what happens to which
request, if to any. -/
inductive Step (w : IOWorker ι η ρ) :
    Option (ι × RequestHandler.Event η ρ) → IOWorker ι η ρ → Prop where
  | session {i : ι} {r : RequestHandler η ρ} (e : RequestHandler.Event η ρ) :
      i ∉ w.taken → e.ofSession = true → (w.requests i).Enabled e →
        (w.requests i).perform e = some r → Step w (some (i, e)) (w.setRequest i r)
  | dequeued {i : ι} {r : RequestHandler η ρ} (attempt : η → Attempt) :
      w.closed = false → i ∉ w.taken → (w.requests i).Enabled (.dequeued attempt) →
        (w.requests i).perform (.dequeued attempt) = some r →
          Step w (some (i, .dequeued attempt)) ({w with
            taken := i :: w.taken
            pendingRequestCount := w.pendingRequestCount + 1}.settle i r)
  | dequeuedNull : Step w none {w with closing := true}
  | executed : Step w none w.maybeClose
  | event {i : ι} {r : RequestHandler η ρ} (e : RequestHandler.Event η ρ) :
      i ∈ w.taken → (w.requests i).Enabled e → (w.requests i).perform e = some r →
        Step w (some (i, e)) (w.settle i r)

/-- A run of the worker, with what happens to its requests. -/
inductive Run : IOWorker ι η ρ → List (ι × RequestHandler.Event η ρ) → IOWorker ι η ρ → Prop where
  | nil (w : IOWorker ι η ρ) : Run w [] w
  | snoc {w w' w'' : IOWorker ι η ρ} {es : List (ι × RequestHandler.Event η ρ)}
      {label : Option (ι × RequestHandler.Event η ρ)} :
      Run w es w' → Step w' label w'' → Run w (es ++ label.toList) w''

/-- The requests of a list whose futures are not set. -/
def unanswered (requests : ι → RequestHandler η ρ) (taken : List ι) : Nat :=
  taken.countP fun i => (requests i).outcomes.isEmpty

structure Invariant (kind : ι → RequestKind) (plan : ι → List η) (w : IOWorker ι η ρ) : Prop where
  requests : ∀ i, (w.requests i).Invariant (kind i) (plan i) false
  nodup : w.taken.Nodup
  count : w.pendingRequestCount = unanswered w.requests w.taken
  closed : w.closed = true → unanswered w.requests w.taken = 0

omit [DecidableEq ι] in
theorem requestsFinished_spec (w : IOWorker ι η ρ) (n : Nat) :
    (w.requestsFinished n).requests = w.requests ∧ (w.requestsFinished n).taken = w.taken ∧
      (w.requestsFinished n).pendingRequestCount = w.pendingRequestCount - n ∧
        ((w.requestsFinished n).closed = true →
          w.closed = true ∨ w.pendingRequestCount - n ≤ 0) := by
  induction n with
  | zero => exact ⟨rfl, rfl, (Int.sub_zero _).symm, Or.inl⟩
  | succ n ih =>
      obtain ⟨hrequests, htaken, hcount, hclosed⟩ := ih
      rw [requestsFinished, requestFinished, maybeClose]
      split
      case isTrue h =>
        have hle : (w.requestsFinished n).pendingRequestCount - 1 ≤ 0 := h.2
        rw [hcount] at hle
        refine ⟨hrequests, htaken, ?_, fun _ => Or.inr (by omega)⟩
        change (w.requestsFinished n).pendingRequestCount - 1 = _
        omega
      case isFalse =>
        refine ⟨hrequests, htaken, ?_, fun h => ?_⟩
        · change (w.requestsFinished n).pendingRequestCount - 1 = _
          omega
        · rcases hclosed h with hold | hle
          · exact Or.inl hold
          · exact Or.inr (by omega)

omit [DecidableEq ι] in
theorem unanswered_cons (requests : ι → RequestHandler η ρ) (i : ι) (taken : List ι) :
    unanswered requests (i :: taken) =
      unanswered requests taken + (requests i).outcomes.isEmpty.toNat := by
  rw [unanswered, List.countP_cons]
  cases (requests i).outcomes.isEmpty <;> rfl

theorem unanswered_other {requests : ι → RequestHandler η ρ} {i : ι} {r : RequestHandler η ρ}
    {taken : List ι} (hi : i ∉ taken) :
    unanswered (Function.update requests i r) taken = unanswered requests taken := by
  apply List.countP_congr
  intro j hj
  have hne : j ≠ i := fun h => hi (h ▸ hj)
  rw [Function.update_of_ne hne]

/-- One request of the list has gone on. -/
theorem unanswered_update {requests : ι → RequestHandler η ρ} {i : ι} {r : RequestHandler η ρ}
    {taken : List ι} (hnodup : taken.Nodup) (hi : i ∈ taken) :
    unanswered (Function.update requests i r) taken + (requests i).outcomes.isEmpty.toNat =
      unanswered requests taken + r.outcomes.isEmpty.toNat := by
  induction taken with
  | nil => cases hi
  | cons j taken ih =>
      obtain ⟨hj, hrest⟩ := List.nodup_cons.mp hnodup
      rw [unanswered_cons, unanswered_cons]
      rcases List.mem_cons.mp hi with rfl | hmem
      · rw [Function.update_self, unanswered_other hj]
        omega
      · have hne : j ≠ i := fun h => hj (h ▸ hmem)
        have := ih hrest hmem
        rw [Function.update_of_ne hne]
        omega

variable {kind : ι → RequestKind} {retryPolicy : ι → RetryPolicy} {plan : ι → List η}
  {w w' : IOWorker ι η ρ}

theorem Invariant.updated {i : ι} {r : RequestHandler η ρ} (h : w.Invariant kind plan)
    (hr : r.Invariant (kind i) (plan i) false) (j : ι) :
    (Function.update w.requests i r j).Invariant (kind j) (plan j) false := by
  by_cases hj : j = i
  · rw [hj, Function.update_self]
    exact hr
  · rw [Function.update_of_ne hj]
    exact h.requests j

omit [DecidableEq ι] in
theorem isEmpty_toNat {r : RequestHandler η ρ} (h : r.outcomes.length ≤ 1) :
    r.outcomes.isEmpty.toNat + r.outcomes.length = 1 := by
  cases ho : r.outcomes with
  | nil => rfl
  | cons o rest =>
      rw [ho, List.length_cons] at h
      have hrest : rest.length = 0 := by omega
      rw [List.length_cons, hrest]
      rfl

theorem Invariant.settle {i : ι} {r : RequestHandler η ρ} {e : RequestHandler.Event η ρ}
    (h : w.Invariant kind plan) (hi : i ∈ w.taken) (he : (w.requests i).Enabled e)
    (horderly : e.orderly (kind i) false = true) (hperform : (w.requests i).perform e = some r) :
    (w.settle i r).Invariant kind plan := by
  have hold := h.requests i
  obtain ⟨x, hx, hr⟩ := hold.perform he horderly
  obtain rfl := Option.some.inj (hperform.symm.trans hx)
  have hmono : (w.requests i).outcomes.length ≤ r.outcomes.length := by
    rcases Nat.le_one_iff_eq_zero_or_eq_one.mp hold.outcomes_le with hzero | hone
    · rw [hzero]
      exact Nat.zero_le _
    · exact Nat.le_of_eq (congrArg List.length (hold.answered hone he hperform)).symm
  have hbefore := isEmpty_toNat hold.outcomes_le
  have hafter := isEmpty_toNat hr.outcomes_le
  have hupdate := @unanswered_update ι η ρ _ w.requests i r w.taken h.nodup hi
  have hcount := h.count
  obtain ⟨hrequests, htaken, hpending, hclosed⟩ := requestsFinished_spec (w.setRequest i r)
    (r.outcomes.length - (w.requests i).outcomes.length)
  constructor
  case requests =>
    intro j
    rw [IOWorker.settle, hrequests]
    exact h.updated hr j
  case nodup =>
    rw [IOWorker.settle, htaken]
    exact h.nodup
  case count =>
    rw [IOWorker.settle, hrequests, htaken, hpending]
    change w.pendingRequestCount - _ = (unanswered (Function.update w.requests i r) w.taken : Int)
    omega
  case closed =>
    intro hnow
    rw [IOWorker.settle, hrequests, htaken]
    change unanswered (Function.update w.requests i r) w.taken = 0
    rcases hclosed hnow with hbefore | hle
    · have := h.closed hbefore
      omega
    · change w.pendingRequestCount - _ ≤ 0 at hle
      omega

/-- The step lemma, for a step in which the driver does not go wrong. -/
theorem Invariant.step {label : Option (ι × RequestHandler.Event η ρ)}
    (h : w.Invariant kind plan) (hstep : Step w label w')
    (horderly : ∀ i e, label = some (i, e) → e.orderly (kind i) false = true) :
    w'.Invariant kind plan := by
  cases hstep with
  | @session i r e hi hsession he hperform =>
      obtain ⟨x, hx, hr⟩ := (h.requests i).perform he (horderly i e rfl)
      obtain rfl := Option.some.inj (hperform.symm.trans hx)
      have hsame := @unanswered_other ι η ρ _ w.requests i r w.taken hi
      exact ⟨h.updated hr, h.nodup, h.count.trans (congrArg Nat.cast hsame.symm),
        fun hclosed => hsame.trans (h.closed hclosed)⟩
  | @dequeued i r attempt hopen hi he hperform =>
      have hplace : (w.requests i).place = .assigned := he
      have hempty : (w.requests i).outcomes.isEmpty = true := by
        have hlength := (h.requests i).outcomes
        rw [hplace] at hlength
        rw [List.eq_nil_of_length_eq_zero hlength]
        rfl
      have hcons := unanswered_cons w.requests i w.taken
      rw [hempty, Bool.toNat_true] at hcons
      have hcount := h.count
      have htaken : ({w with
          taken := i :: w.taken
          pendingRequestCount := w.pendingRequestCount + 1} : IOWorker ι η ρ).Invariant
            kind plan := by
        refine ⟨h.requests, List.nodup_cons.mpr ⟨hi, h.nodup⟩, ?_, ?_⟩
        · change w.pendingRequestCount + 1 = (unanswered w.requests (i :: w.taken) : Int)
          omega
        · intro hclosed
          exact absurd hclosed (Bool.eq_false_iff.mp hopen)
      exact htaken.settle List.mem_cons_self he rfl hperform
  | dequeuedNull => exact ⟨h.requests, h.nodup, h.count, h.closed⟩
  | executed =>
      unfold maybeClose
      split
      case isTrue hclose =>
        refine ⟨h.requests, h.nodup, h.count, fun _ => ?_⟩
        change unanswered w.requests w.taken = 0
        have := h.count
        omega
      case isFalse => exact h
  | event e hi he hperform => exact h.settle hi he (horderly _ e rfl) hperform

omit [DecidableEq ι] in
theorem new_invariant (kind : ι → RequestKind) (retryPolicy : ι → RetryPolicy)
    (plan : ι → List η) :
    (new fun i => .new (kind i) (retryPolicy i) (plan i) : IOWorker ι η ρ).Invariant kind plan :=
  ⟨fun i => RequestHandler.new_invariant (kind i) (retryPolicy i) (plan i), List.nodup_nil, rfl,
    fun _ => rfl⟩

/-- The run lemma. -/
theorem Run.invariant {es : List (ι × RequestHandler.Event η ρ)} (hrun : Run w es w')
    (horderly : ∀ i e, (i, e) ∈ es → e.orderly (kind i) false = true)
    (h : w.Invariant kind plan) : w'.Invariant kind plan := by
  induction hrun with
  | nil => exact h
  | @snoc _ _ es label _ hstep ih =>
      refine (ih fun i e he => horderly i e (List.mem_append_left _ he)).step hstep ?_
      rintro i e rfl
      exact horderly i e (List.mem_append_right es (List.mem_singleton_self _))

variable {es : List (ι × RequestHandler.Event η ρ)}

/-- In a run in which the driver does not go wrong, a worker counts the requests
that it took and that are not answered, and its pools are closed only when each
of them is. -/
theorem closes_when_answered
    (hrun : Run (new fun i => .new (kind i) (retryPolicy i) (plan i)) es w)
    (horderly : ∀ i e, (i, e) ∈ es → e.orderly (kind i) false = true) :
    w.pendingRequestCount = unanswered w.requests w.taken ∧
      (w.closed = true → ∀ i ∈ w.taken, (w.requests i).outcomes.length = 1) := by
  have hinv := hrun.invariant horderly (new_invariant kind retryPolicy plan)
  refine ⟨hinv.count, fun hclosed i hi => ?_⟩
  have hnone := List.countP_eq_zero.mp (hinv.closed hclosed) i hi
  have hle := (hinv.requests i).outcomes_le
  rw [List.isEmpty_iff] at hnone
  have := List.length_pos_iff.mpr hnone
  omega

/-- A request times out while the worker is closing. -/
theorem closes_when_answered_late : ∃ w : IOWorker Unit Nat Nat, w.closed = true ∧
    (w.requests ()).outcomes = [.error (some 1) .requestTimedOut] ∧
      w.pendingRequestCount = unanswered w.requests w.taken ∧
        (w.closed = true → ∀ i ∈ w.taken, (w.requests i).outcomes.length = 1) := by
  have hrun := ((((Run.nil (new fun _ : Unit => .new .query .default [1] :
    IOWorker Unit Nat Nat)).snoc
    (.session (i := ()) (.dispatched fun _ => true) List.not_mem_nil rfl rfl rfl)).snoc
    (.dequeued (i := ()) (fun _ => .write .taken) rfl List.not_mem_nil rfl rfl)).snoc
    .dequeuedNull).snoc (.event (i := ()) .timeout List.mem_cons_self rfl rfl)
  refine ⟨_, rfl, rfl, closes_when_answered hrun ?_⟩
  intro i e he
  simp only [Option.toList_some, Option.toList_none, List.nil_append, List.append_nil,
    List.cons_append, List.mem_cons, List.not_mem_nil, or_false, Prod.mk.injEq] at he
  rcases he with ⟨-, rfl⟩ | ⟨-, rfl⟩ | ⟨-, rfl⟩ <;> rfl

/-- A connection that refuses both queries of a schema agreement finishes the
request twice, and the worker counts one request less than there are. -/
example : ∃ (es : List (Unit × RequestHandler.Event Nat Nat)) (w : IOWorker Unit Nat Nat),
    Run (new fun _ => .new .query .default [1]) es w ∧ w.pendingRequestCount = -1 := by
  have hdispatched := (Run.nil (new fun _ : Unit => .new .query .default [1] :
    IOWorker Unit Nat Nat)).snoc
    (.session (i := ()) (.dispatched fun _ => true) List.not_mem_nil rfl rfl rfl)
  have htaken := hdispatched.snoc
    (.dequeued (i := ()) (fun _ => .write .taken) rfl List.not_mem_nil rfl rfl)
  have hrefused := htaken.snoc (.event (i := ())
    (.set (.result .schemaChange 7) false (false, false) fun _ => .unready)
    List.mem_cons_self rfl rfl)
  exact ⟨_, _, hrefused, rfl⟩

end IOWorker

end Img2Web.Driver
