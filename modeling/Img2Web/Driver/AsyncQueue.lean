import Img2Web.Driver.MPMCQueue

/-!
The session's `AsyncQueue`. A thread that has put a request into the queue
wakes the session's loop up, which then takes requests out until it finds none.
`uv_async_send` only notes that the loop is to be woken: however often it is
called meanwhile, the loop calls `on_execute` once.
-/

namespace Img2Web.Driver

namespace Thread

variable {α : Type}

def enqueuing : Thread α → Bool
  | .enqueue _ | .enqueueAt _ _ | .enqueueClaim _ _ | .enqueueStore _ _ | .enqueuePublish _ => true
  | _ => false

def dequeuing : Thread α → Bool
  | .dequeue | .dequeueAt _ | .dequeueClaim _ | .dequeueLoad _ | .dequeueRelease _ _ => true
  | _ => false

theorem enqueuing_of_dequeuing {state : Thread α} (h : state.dequeuing = true) :
    state.enqueuing = false := by
  cases state <;> first | rfl | cases h

end Thread

/-- `sending` has the threads that are still to call `uv_async_send`, and where
their requests are. `pending` says that the loop is to be woken, and `draining`
that it runs `on_execute`. -/
structure AsyncQueue (τ α : Type) where
  queue : MPMCQueue τ α
  sending : τ → Option Nat
  pending : Bool
  draining : Bool

namespace AsyncQueue

variable {τ α : Type}

def new (size : Nat) : AsyncQueue τ α := ⟨.new size, fun _ => none, false, false⟩

variable [DecidableEq τ]

/-- A thread that is done with `enqueue` calls `uv_async_send` next. -/
def enqueued (sending : τ → Option Nat) (t : τ) : Thread α → τ → Option Nat
  | .enqueuePublish pos => Function.update sending t (some pos)
  | _ => sending

/-- A thread goes on with `enqueue`. -/
def advance (q : AsyncQueue τ α) (t : τ) (spurious : Bool) : AsyncQueue τ α :=
  {q with
    queue := q.queue.advance t spurious
    sending := enqueued q.sending t (q.queue.thread t)}

/-- The loop goes on with `on_execute`: it calls `dequeue` again if it got a
request, and is done if it got none. -/
def drain (q : AsyncQueue τ α) (loop : τ) (spurious : Bool) : AsyncQueue τ α :=
  let queue := q.queue.advance loop spurious
  if (queue.thread loop).dequeuing then {q with queue := queue}
  else
    match q.queue.thread loop with
    | .dequeueRelease _ _ => {q with queue := queue.goTo loop .dequeue}
    | _ => {q with queue := queue, draining := false}

inductive Step (loop : τ) (q : AsyncQueue τ α) : AsyncQueue τ α → Prop where
  | enqueue {t : τ} (data : α) : t ≠ loop → q.queue.thread t = .idle → q.sending t = none →
      Step loop q {q with queue := q.queue.goTo t (.enqueue data)}
  | advance {t : τ} (spurious : Bool) : (q.queue.thread t).enqueuing = true →
      Step loop q (q.advance t spurious)
  | send {t : τ} {pos : Nat} : q.sending t = some pos →
      Step loop q {q with sending := Function.update q.sending t none, pending := true}
  | wake : q.pending = true → q.draining = false →
      Step loop q {q with
        queue := q.queue.goTo loop .dequeue
        pending := false
        draining := true}
  | drain (spurious : Bool) : q.draining = true → Step loop q (q.drain loop spurious)

def Reachable (loop : τ) (size : Nat) : AsyncQueue τ α → Prop :=
  Relation.ReflTransGen (Step loop) (new size)

/-- The thread is putting a request at this place, or has done so and is still
to wake the loop up. -/
def Wakes (q : AsyncQueue τ α) (pos : Nat) (t : τ) : Prop :=
  (q.queue.thread t).entering = some pos ∨ q.sending t = some pos

structure Invariant (loop : τ) (size : Nat) (q : AsyncQueue τ α) : Prop where
  queue : q.queue.Reachable size
  loop_idle : q.draining = false → q.queue.thread loop = .idle
  loop_busy : q.draining = true → (q.queue.thread loop).dequeuing = true
  others : ∀ t, t ≠ loop → q.queue.thread t = .idle ∨ (q.queue.thread t).enqueuing = true
  sent : ∀ t, (q.queue.thread t).enqueuing = true → q.sending t = none
  awaited : q.draining = false → q.pending = false →
    q.queue.head = q.queue.tail ∨ ∃ t, q.Wakes q.queue.head t

end AsyncQueue

namespace MPMCQueue

variable {τ α : Type} [DecidableEq τ] {q r : MPMCQueue τ α} {t : τ}

/-- What one step of `enqueue` does. -/
structure Enqueues (t : τ) (q r : MPMCQueue τ α) : Prop where
  head : r.head = q.head
  others : ∀ u, u ≠ t → r.thread u = q.thread u
  own : r.thread t = .idle ∨ (r.thread t).enqueuing = true
  entering : ∀ pos, (q.thread t).entering = some pos →
    (r.thread t).entering = some pos ∨ q.thread t = .enqueuePublish pos
  tail : r.tail = q.tail ∨ (r.thread t).entering = some q.tail

theorem goTo_enqueues {state : Thread α} (hhead : r.head = q.head) (htail : r.tail = q.tail)
    (hthread : r.thread = q.thread) (hstate : state = .idle ∨ state.enqueuing = true)
    (hentering : ∀ pos, (q.thread t).entering = some pos →
      state.entering = some pos ∨ q.thread t = .enqueuePublish pos) :
    Enqueues t q (r.goTo t state) where
  head := hhead
  others u hu := (goTo_thread_of_ne r hu state).trans (congrFun hthread u)
  own := by
    rw [goTo_thread_self]
    exact hstate
  entering pos hpos := by
    rw [goTo_thread_self]
    exact hentering pos hpos
  tail := Or.inl htail

theorem advance_enqueues (spurious : Bool) (ht : (q.thread t).enqueuing = true) :
    Enqueues t q (q.advance t spurious) := by
  have hnone : ∀ {state : Thread α}, q.thread t = state → state.entering = none →
      ∀ {next : Thread α} pos, (q.thread t).entering = some pos →
        next.entering = some pos ∨ q.thread t = .enqueuePublish pos := by
    rintro state rfl hstate next pos hpos
    rw [hstate] at hpos
    cases hpos
  cases hstate : q.thread t with
  | enqueue data =>
      simp only [advance, hstate]
      exact goTo_enqueues rfl rfl rfl (Or.inr rfl) (hnone hstate rfl)
  | enqueueAt data pos =>
      simp only [advance, hstate]
      split
      · exact goTo_enqueues rfl rfl rfl (Or.inr rfl) (hnone hstate rfl)
      · split
        · exact goTo_enqueues rfl rfl rfl (Or.inl rfl) (hnone hstate rfl)
        · exact goTo_enqueues rfl rfl rfl (Or.inr rfl) (hnone hstate rfl)
  | enqueueClaim data pos =>
      simp only [advance, hstate]
      split
      case isTrue hclaim =>
        refine ⟨rfl, fun u hu => goTo_thread_of_ne _ hu _, Or.inr ?_, hnone hstate rfl, Or.inr ?_⟩
        · rw [goTo_thread_self]
          rfl
        · rw [goTo_thread_self, hclaim.1]
          rfl
      case isFalse => exact goTo_enqueues rfl rfl rfl (Or.inr rfl) (hnone hstate rfl)
  | enqueueStore data pos =>
      simp only [advance, hstate]
      refine goTo_enqueues rfl rfl rfl (Or.inr rfl) fun p hp => ?_
      rw [hstate] at hp
      exact Or.inl hp
  | enqueuePublish pos =>
      simp only [advance, hstate]
      refine goTo_enqueues rfl rfl rfl (Or.inl rfl) fun p hp => ?_
      rw [hstate] at hp
      exact Or.inr (hstate.trans (congrArg Thread.enqueuePublish (Option.some.inj hp)))
  | _ =>
      rw [hstate] at ht
      cases ht

/-- What one step of `dequeue` does: it goes on, or it is done, with a value or
without. -/
structure Dequeues (t : τ) (q r : MPMCQueue τ α) : Prop where
  others : ∀ u, u ≠ t → r.thread u = q.thread u
  own : (r.thread t).dequeuing = true ∨ r.thread t = .idle ∧
    ((∃ pos data, q.thread t = .dequeueRelease pos data) ∨
      r = q.goTo t .idle ∧ ∃ pos, q.thread t = .dequeueAt pos ∧ q.seq (q.slot pos) < pos + 1)

theorem goTo_dequeues {state : Thread α} (hthread : r.thread = q.thread)
    (hstate : state.dequeuing = true) : Dequeues t q (r.goTo t state) where
  others u hu := (goTo_thread_of_ne r hu state).trans (congrFun hthread u)
  own := by
    rw [goTo_thread_self]
    exact Or.inl hstate

theorem advance_dequeues (spurious : Bool) (ht : (q.thread t).dequeuing = true) :
    Dequeues t q (q.advance t spurious) := by
  cases hstate : q.thread t with
  | dequeue =>
      simp only [advance, hstate]
      exact goTo_dequeues rfl rfl
  | dequeueAt pos =>
      simp only [advance, hstate]
      split
      · exact goTo_dequeues rfl rfl
      · split
        case isTrue hseq =>
          refine ⟨fun u hu => goTo_thread_of_ne _ hu _, Or.inr ⟨goTo_thread_self .., Or.inr ?_⟩⟩
          exact ⟨rfl, pos, hstate, hseq⟩
        case isFalse => exact goTo_dequeues rfl rfl
  | dequeueClaim pos =>
      simp only [advance, hstate]
      split
      · exact goTo_dequeues rfl rfl
      · exact goTo_dequeues rfl rfl
  | dequeueLoad pos =>
      simp only [advance, hstate]
      exact goTo_dequeues rfl rfl
  | dequeueRelease pos data =>
      simp only [advance, hstate]
      exact ⟨fun u hu => goTo_thread_of_ne _ hu _,
        Or.inr ⟨goTo_thread_self .., Or.inl ⟨pos, data, hstate⟩⟩⟩
  | _ =>
      rw [hstate] at ht
      cases ht

end MPMCQueue

namespace AsyncQueue

variable {τ α : Type} [DecidableEq τ] {loop : τ} {size : Nat} {q q' : AsyncQueue τ α}

theorem enqueued_other {sending : τ → Option Nat} {t u : τ} (hu : u ≠ t) (state : Thread α) :
    enqueued sending t state u = sending u := by
  cases state <;> first | rfl | exact Function.update_of_ne hu ..

theorem new_invariant : (new size : AsyncQueue τ α).Invariant loop size where
  queue := .refl
  loop_idle _ := rfl
  loop_busy := Bool.noConfusion
  others _ _ := Or.inl rfl
  sent _ _ := rfl
  awaited _ _ := Or.inl rfl

theorem Invariant.enqueue {t : τ} {data : α} (h : q.Invariant loop size) (ht : t ≠ loop)
    (hidle : q.queue.thread t = .idle) (hsent : q.sending t = none) :
    {q with queue := q.queue.goTo t (.enqueue data)}.Invariant loop size where
  queue := h.queue.tail (.enqueue data hidle)
  loop_idle hdraining :=
    (MPMCQueue.goTo_thread_of_ne q.queue ht.symm _).trans (h.loop_idle hdraining)
  loop_busy hdraining := by
    rw [MPMCQueue.goTo_thread_of_ne q.queue ht.symm]
    exact h.loop_busy hdraining
  others u hu := by
    by_cases hut : u = t
    · rw [hut, MPMCQueue.goTo_thread_self]
      exact Or.inr rfl
    · rw [MPMCQueue.goTo_thread_of_ne q.queue hut]
      exact h.others u hu
  sent u hu := by
    by_cases hut : u = t
    · exact hut ▸ hsent
    · rw [MPMCQueue.goTo_thread_of_ne q.queue hut] at hu
      exact h.sent u hu
  awaited hdraining hpending := by
    rcases h.awaited hdraining hpending with hempty | ⟨u, hentering | hsending⟩
    · exact Or.inl hempty
    · have hut : u ≠ t := by
        rintro rfl
        rw [hidle] at hentering
        cases hentering
      refine Or.inr ⟨u, Or.inl ?_⟩
      rw [MPMCQueue.goTo_thread_of_ne q.queue hut]
      exact hentering
    · exact Or.inr ⟨u, Or.inr hsending⟩

theorem Invariant.not_loop {t : τ} (h : q.Invariant loop size)
    (ht : (q.queue.thread t).enqueuing = true) : t ≠ loop := by
  rintro rfl
  cases hdraining : q.draining with
  | false =>
      rw [h.loop_idle hdraining] at ht
      cases ht
  | true =>
      rw [Thread.enqueuing_of_dequeuing (h.loop_busy hdraining)] at ht
      cases ht

/-- A step of `enqueue` leaves it to the same thread to wake the loop. -/
theorem Invariant.wakes_advance {t u : τ} {pos : Nat} {spurious : Bool} (h : q.Invariant loop size)
    (ht : (q.queue.thread t).enqueuing = true) (hu : q.Wakes pos u) :
    (q.advance t spurious).Wakes pos u := by
  have hstep := MPMCQueue.advance_enqueues spurious ht
  by_cases hut : u = t
  · subst hut
    rcases hu with hentering | hsent
    · rcases hstep.entering _ hentering with hstill | hpublish
      · exact Or.inl hstill
      · refine Or.inr ?_
        change enqueued q.sending u (q.queue.thread u) u = _
        rw [hpublish]
        exact Function.update_self ..
    · rw [h.sent u ht] at hsent
      cases hsent
  · rcases hu with hentering | hsent
    · refine Or.inl ?_
      change ((q.queue.advance t spurious).thread u).entering = _
      rw [hstep.others u hut]
      exact hentering
    · exact Or.inr ((enqueued_other hut _).trans hsent)

theorem Invariant.advance {t : τ} {spurious : Bool} (h : q.Invariant loop size)
    (ht : (q.queue.thread t).enqueuing = true) : (q.advance t spurious).Invariant loop size := by
  have hloop := h.not_loop ht
  have hstep := MPMCQueue.advance_enqueues spurious ht
  constructor
  case queue => exact h.queue.tail (.advance t spurious)
  case loop_idle =>
    exact fun hdraining => (hstep.others loop hloop.symm).trans (h.loop_idle hdraining)
  case loop_busy =>
    intro hdraining
    change ((q.queue.advance t spurious).thread loop).dequeuing = true
    rw [hstep.others loop hloop.symm]
    exact h.loop_busy hdraining
  case others =>
    intro u hu
    by_cases hut : u = t
    · subst hut
      exact hstep.own
    · change (q.queue.advance t spurious).thread u = .idle ∨
        ((q.queue.advance t spurious).thread u).enqueuing = true
      rw [hstep.others u hut]
      exact h.others u hu
  case sent =>
    intro u hu
    by_cases hut : u = t
    · subst hut
      have hnone := h.sent u ht
      cases hstate : q.queue.thread u with
      | enqueuePublish pos =>
          change ((q.queue.advance u spurious).thread u).enqueuing = true at hu
          simp only [MPMCQueue.advance, hstate, MPMCQueue.goTo_thread_self] at hu
          cases hu
      | _ =>
          change enqueued q.sending u (q.queue.thread u) u = none
          rw [hstate]
          exact hnone
    · change enqueued q.sending t (q.queue.thread t) u = none
      rw [enqueued_other hut]
      apply h.sent u
      rwa [← hstep.others u hut]
  case awaited =>
    intro hdraining hpending
    rcases h.awaited hdraining hpending with hempty | ⟨u, hu⟩
    · rcases hstep.tail with hsame | hclaimed
      · exact Or.inl (hstep.head.trans (hempty.trans hsame.symm))
      · refine Or.inr ⟨t, Or.inl ?_⟩
        change _ = some (q.queue.advance t spurious).head
        rw [hstep.head, hempty]
        exact hclaimed
    · have hwakes : (q.advance t spurious).Wakes q.queue.head u := h.wakes_advance ht hu
      rw [← hstep.head] at hwakes
      exact Or.inr ⟨u, hwakes⟩

theorem Invariant.send {t : τ} (h : q.Invariant loop size) :
    {q with sending := Function.update q.sending t none, pending := true}.Invariant loop size where
  queue := h.queue
  loop_idle := h.loop_idle
  loop_busy := h.loop_busy
  others := h.others
  sent u hu := by
    change Function.update q.sending t none u = none
    by_cases hut : u = t
    · rw [hut]
      exact Function.update_self ..
    · rw [Function.update_of_ne hut]
      exact h.sent u hu
  awaited _ hpending := Bool.noConfusion hpending

theorem Invariant.wake (h : q.Invariant loop size) (hdraining : q.draining = false) :
    {q with
      queue := q.queue.goTo loop .dequeue
      pending := false
      draining := true}.Invariant loop size where
  queue := h.queue.tail (.dequeue (h.loop_idle hdraining))
  loop_idle := Bool.noConfusion
  loop_busy _ := by
    rw [MPMCQueue.goTo_thread_self]
    rfl
  others u hu := by
    rw [MPMCQueue.goTo_thread_of_ne q.queue hu]
    exact h.others u hu
  sent u hu := by
    by_cases hloop : u = loop
    · rw [hloop, MPMCQueue.goTo_thread_self] at hu
      cases hu
    · rw [MPMCQueue.goTo_thread_of_ne q.queue hloop] at hu
      exact h.sent u hu
  awaited hbusy := Bool.noConfusion hbusy

/-- While the loop drains the queue, nobody has to wake it. -/
theorem Invariant.busy {queue : MPMCQueue τ α} (h : q.Invariant loop size)
    (hdraining : q.draining = true) (hreach : queue.Reachable size)
    (hbusy : (queue.thread loop).dequeuing = true)
    (hothers : ∀ u, u ≠ loop → queue.thread u = q.queue.thread u) :
    {q with queue := queue}.Invariant loop size where
  queue := hreach
  loop_idle hdone := Bool.noConfusion (hdraining.symm.trans hdone)
  loop_busy _ := hbusy
  others u hu := by
    rw [hothers u hu]
    exact h.others u hu
  sent u hu := by
    by_cases hloop : u = loop
    · subst hloop
      rw [Thread.enqueuing_of_dequeuing hbusy] at hu
      cases hu
    · rw [hothers u hloop] at hu
      exact h.sent u hu
  awaited hdone := Bool.noConfusion (hdraining.symm.trans hdone)

theorem Invariant.drain {spurious : Bool} (hsize : size ≤ 2 ^ 63) (h : q.Invariant loop size)
    (hdraining : q.draining = true) : (q.drain loop spurious).Invariant loop size := by
  have hstep := MPMCQueue.advance_dequeues spurious (h.loop_busy hdraining)
  have hreach := h.queue.tail (.advance loop spurious)
  rcases hstep.own with hown | ⟨hidle, hend⟩
  · rw [AsyncQueue.drain, if_pos hown]
    exact h.busy hdraining hreach hown hstep.others
  · have hnot : ¬ ((q.queue.advance loop spurious).thread loop).dequeuing = true := by
      rw [hidle]
      exact Bool.false_ne_true
    rw [AsyncQueue.drain, if_neg hnot]
    rcases hend with ⟨pos, data, hrelease⟩ | ⟨hnone, pos, hat, hseq⟩
    · -- With a value, the loop calls `dequeue` again.
      rw [hrelease]
      refine h.busy hdraining (hreach.tail (.dequeue hidle)) ?_ fun u hu => ?_
      · rw [MPMCQueue.goTo_thread_self]
        rfl
      · exact (MPMCQueue.goTo_thread_of_ne _ hu _).trans (hstep.others u hu)
    · rw [hat]
      refine ⟨hreach, fun _ => hidle, Bool.noConfusion, fun u hu => ?_, fun u hu => ?_,
        fun _ _ => ?_⟩
      · rw [hstep.others u hu]
        exact h.others u hu
      · by_cases hloop : u = loop
        · rw [hloop, hidle] at hu
          cases hu
        · rw [hstep.others u hloop] at hu
          exact h.sent u hu
      · -- Nothing was found at the head, so nothing is there or someone puts it there.
        obtain ⟨-, hempty | ⟨u, hentering⟩⟩ := (h.queue.invariant hsize).nothing_at_head hat hseq
        · refine Or.inl ?_
          rw [hnone]
          exact hempty
        · have hu : u ≠ loop := by
            rintro rfl
            rw [hat] at hentering
            cases hentering
          refine Or.inr ⟨u, Or.inl ?_⟩
          change ((q.queue.advance loop spurious).thread u).entering =
            some (q.queue.advance loop spurious).head
          rw [hstep.others u hu, hnone]
          exact hentering

theorem Reachable.invariant (hsize : size ≤ 2 ^ 63) (hq : Reachable loop size q) :
    q.Invariant loop size := by
  induction hq with
  | refl => exact new_invariant
  | tail _ hstep ih =>
      cases hstep with
      | enqueue data ht hidle hsent => exact ih.enqueue ht hidle hsent
      | advance spurious ht => exact ih.advance ht
      | send => exact ih.send
      | wake _ hdraining => exact ih.wake hdraining
      | drain spurious hdraining => exact ih.drain hsize hdraining

/-- No wake-up is lost. When the loop waits and is not to be woken, the queue is
empty or a thread that is putting in the very next request has yet to wake the
loop; so when no thread is busy, every request has been taken out, once. -/
theorem no_request_stuck (hsize : size ≤ 2 ^ 63) (hq : Reachable loop size q)
    (hdraining : q.draining = false) (hpending : q.pending = false) :
    (q.queue.head = q.queue.tail ∨ ∃ t, q.Wakes q.queue.head t) ∧
      ((∀ t, q.queue.thread t = .idle ∧ q.sending t = none) →
        (q.queue.left.map (·.1)).Nodup ∧
          ∀ p < q.queue.entered.length, (p, q.queue.entered[p]?) ∈ q.queue.left) := by
  have h := hq.invariant hsize
  have hqueue := h.queue.invariant hsize
  refine ⟨h.awaited hdraining hpending, fun hquiet => ⟨hqueue.once, fun p hp => ?_⟩⟩
  have hempty : q.queue.head = q.queue.tail := by
    rcases h.awaited hdraining hpending with hempty | ⟨t, hentering | hsending⟩
    · exact hempty
    · rw [(hquiet t).1] at hentering
      cases hentering
    · rw [(hquiet t).2] at hsending
      cases hsending
  have htaken : p ∈ q.queue.left.map (·.1) := by
    refine (hqueue.taken p).mpr ⟨?_, fun t ht => ?_⟩
    · rw [hempty, ← hqueue.entered]
      exact hp
    · rw [(hquiet t).1] at ht
      cases ht
  obtain ⟨⟨r, value⟩, hmem, rfl⟩ := List.mem_map.mp htaken
  have hvalue := hqueue.left _ hmem
  dsimp only at hvalue ⊢
  rwa [← hvalue]

/-- A thread puts 7 in, wakes the loop, and the loop takes it out. -/
theorem no_request_stuck_seven : ∃ q : AsyncQueue Bool Nat, q.queue.entered = [7] ∧
    ((q.queue.head = q.queue.tail ∨ ∃ t, q.Wakes q.queue.head t) ∧
      ((∀ t, q.queue.thread t = .idle ∧ q.sending t = none) →
        (q.queue.left.map (·.1)).Nodup ∧
          ∀ p < q.queue.entered.length, (p, q.queue.entered[p]?) ∈ q.queue.left)) := by
  have hput : Reachable false 2 (_ : AsyncQueue Bool Nat) :=
    (((((Relation.ReflTransGen.refl.tail (.enqueue (t := true) 7 Bool.noConfusion rfl rfl)).tail
      (.advance (t := true) false rfl)).tail (.advance (t := true) false rfl)).tail
        (.advance (t := true) false rfl)).tail (.advance (t := true) false rfl)).tail
          (.advance (t := true) false rfl)
  have hsent := hput.tail (.send (t := true) rfl)
  have hwoken := hsent.tail (.wake rfl rfl)
  have htaken := (((hwoken.tail (.drain false rfl)).tail (.drain false rfl)).tail
    (.drain false rfl)).tail (.drain false rfl)
  have hdone := ((htaken.tail (.drain false rfl)).tail (.drain false rfl)).tail (.drain false rfl)
  exact ⟨_, rfl, no_request_stuck (by decide) hdone rfl rfl⟩

end AsyncQueue

end Img2Web.Driver
