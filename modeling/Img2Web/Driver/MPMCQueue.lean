import Mathlib.Data.List.Nodup
import Mathlib.Logic.Function.Basic
import Mathlib.Logic.Relation
import Img2Web.Driver.Utils

/-!
`MPMCQueue`, through which the threads of the application hand their requests
to the session. A load, a store and a compare-and-swap are one step each, in
any order among the threads. The counters are numbers that do not wrap, as those
of the source do not before 2 ^ 64 values went in. `entered` and `left` record
what went in and what came out, and are read by nothing.
-/

namespace Img2Web.Driver

/-- Where a thread is in `enqueue` or `dequeue`. -/
inductive Thread (α : Type) where
  | idle
  | enqueue (data : α)
  | enqueueAt (data : α) (pos : Nat)
  | enqueueClaim (data : α) (pos : Nat)
  | enqueueStore (data : α) (pos : Nat)
  | enqueuePublish (pos : Nat)
  | dequeue
  | dequeueAt (pos : Nat)
  | dequeueClaim (pos : Nat)
  | dequeueLoad (pos : Nat)
  | dequeueRelease (pos : Nat) (data : Option α)

structure MPMCQueue (τ α : Type) where
  size : Nat
  seq : Nat → Nat
  data : Nat → Option α
  tail : Nat
  head : Nat
  thread : τ → Thread α
  entered : List α
  left : List (Nat × Option α)

namespace MPMCQueue

variable {τ α : Type}

def new (size : Nat) : MPMCQueue τ α :=
  ⟨nextPow2 size, id, fun _ => none, 0, 0, fun _ => .idle, [], []⟩

/-- `pos & mask_`. -/
def slot (q : MPMCQueue τ α) (pos : Nat) : Nat := pos &&& (q.size - 1)

section

variable [DecidableEq τ]

def goTo (q : MPMCQueue τ α) (t : τ) (state : Thread α) : MPMCQueue τ α :=
  {q with thread := Function.update q.thread t state}

/-- The next step of a thread. A weak compare-and-swap may fail for no reason. -/
def advance (q : MPMCQueue τ α) (t : τ) (spurious : Bool) : MPMCQueue τ α :=
  match q.thread t with
  | .idle => q
  | .enqueue data => q.goTo t (.enqueueAt data q.tail)
  | .enqueueAt data pos =>
      let nodeSeq := q.seq (q.slot pos)
      if nodeSeq = pos then q.goTo t (.enqueueClaim data pos)
      else if nodeSeq < pos then q.goTo t .idle
      else q.goTo t (.enqueue data)
  | .enqueueClaim data pos =>
      if q.tail = pos ∧ spurious = false then
        {q with tail := pos + 1, entered := q.entered ++ [data]}.goTo t (.enqueueStore data pos)
      else q.goTo t (.enqueueAt data q.tail)
  | .enqueueStore data pos =>
      {q with data := Function.update q.data (q.slot pos) (some data)}.goTo t (.enqueuePublish pos)
  | .enqueuePublish pos =>
      {q with seq := Function.update q.seq (q.slot pos) (pos + 1)}.goTo t .idle
  | .dequeue => q.goTo t (.dequeueAt q.head)
  | .dequeueAt pos =>
      let nodeSeq := q.seq (q.slot pos)
      if nodeSeq = pos + 1 then q.goTo t (.dequeueClaim pos)
      else if nodeSeq < pos + 1 then q.goTo t .idle
      else q.goTo t .dequeue
  | .dequeueClaim pos =>
      if q.head = pos ∧ spurious = false then
        {q with head := pos + 1}.goTo t (.dequeueLoad pos)
      else q.goTo t (.dequeueAt q.head)
  | .dequeueLoad pos => q.goTo t (.dequeueRelease pos (q.data (q.slot pos)))
  | .dequeueRelease pos data =>
      {q with
        seq := Function.update q.seq (q.slot pos) (pos + (q.size - 1) + 1)
        left := q.left ++ [(pos, data)]}.goTo t .idle

/-- A thread calls `enqueue` or `dequeue`, or goes on. -/
inductive Step (q : MPMCQueue τ α) : MPMCQueue τ α → Prop where
  | enqueue {t : τ} (data : α) : q.thread t = .idle → Step q (q.goTo t (.enqueue data))
  | dequeue {t : τ} : q.thread t = .idle → Step q (q.goTo t .dequeue)
  | advance (t : τ) (spurious : Bool) : Step q (q.advance t spurious)

def Reachable (size : Nat) : MPMCQueue τ α → Prop := Relation.ReflTransGen Step (new size)

end

end MPMCQueue

namespace Thread

variable {α : Type}

/-- The place that the thread fills. -/
def entering : Thread α → Option Nat
  | .enqueueStore _ pos | .enqueuePublish pos => some pos
  | _ => none

/-- The place that the thread empties. -/
def leaving : Thread α → Option Nat
  | .dequeueLoad pos | .dequeueRelease pos _ => some pos
  | _ => none

end Thread

namespace MPMCQueue

variable {τ α : Type}

/-- A place is free for the next round. -/
def Free (q : MPMCQueue τ α) (p : Nat) : Prop :=
  q.seq (q.slot p) = p ∧ q.tail ≤ p ∧ p < q.head + q.size

def Entering (q : MPMCQueue τ α) (p : Nat) : Prop :=
  q.seq (q.slot p) = p ∧ q.head ≤ p ∧ p < q.tail

def Filled (q : MPMCQueue τ α) (p : Nat) : Prop :=
  q.seq (q.slot p) = p + 1 ∧ q.head ≤ p ∧ p < q.tail ∧ q.data (q.slot p) = q.entered[p]?

def Leaving (q : MPMCQueue τ α) (p : Nat) : Prop :=
  q.seq (q.slot p) = p + 1 ∧ p < q.head ∧ q.tail ≤ p + q.size ∧
    q.data (q.slot p) = q.entered[p]?

/-- What a thread knows of the queue where it is. -/
def Knows (q : MPMCQueue τ α) : Thread α → Prop
  | .idle | .enqueue _ | .dequeue => True
  | .enqueueAt _ pos => pos ≤ q.tail
  | .enqueueClaim _ pos => pos ≤ q.tail ∧ pos ≤ q.seq (q.slot pos)
  | .enqueueStore data pos => q.Entering pos ∧ q.entered[pos]? = some data
  | .enqueuePublish pos => q.Entering pos ∧ q.data (q.slot pos) = q.entered[pos]?
  | .dequeueAt pos => pos ≤ q.head
  | .dequeueClaim pos => pos ≤ q.head ∧ pos + 1 ≤ q.seq (q.slot pos)
  | .dequeueLoad pos => q.Leaving pos
  | .dequeueRelease pos data => q.Leaving pos ∧ data = q.entered[pos]?

structure Invariant (q : MPMCQueue τ α) : Prop where
  sized : ∃ k, q.size = 2 ^ k
  two : 2 ≤ q.size
  head_le : q.head ≤ q.tail
  tail_le : q.tail ≤ q.head + q.size
  entered : q.entered.length = q.tail
  phases : ∀ i < q.size, ∃ p, q.slot p = i ∧ (q.Free p ∨ q.Entering p ∨ q.Filled p ∨ q.Leaving p)
  threads : ∀ t, q.Knows (q.thread t)
  oneEntering : ∀ t u p, (q.thread t).entering = some p → (q.thread u).entering = some p → t = u
  oneLeaving : ∀ t u p, (q.thread t).leaving = some p → (q.thread u).leaving = some p → t = u
  enters : ∀ p, q.Entering p → ∃ t, (q.thread t).entering = some p
  leaves : ∀ p, q.Leaving p → ∃ t, (q.thread t).leaving = some p
  left : ∀ e ∈ q.left, e.2 = q.entered[e.1]?
  once : (q.left.map (·.1)).Nodup
  taken : ∀ p, p ∈ q.left.map (·.1) ↔ p < q.head ∧ ∀ t, (q.thread t).leaving ≠ some p

theorem Invariant.slot_eq {q : MPMCQueue τ α} (hq : q.Invariant) (p : Nat) :
    q.slot p = p % q.size := by
  obtain ⟨k, hk⟩ := hq.sized
  rw [slot, hk, Nat.and_two_pow_sub_one_eq_mod]

theorem Invariant.slot_lt {q : MPMCQueue τ α} (hq : q.Invariant) (p : Nat) :
    q.slot p < q.size := by
  have htwo := hq.two
  rw [hq.slot_eq]
  exact Nat.mod_lt p (by omega)

/-- No counter is ahead of the values that went in by more than the slots, so
the 64 bits of the source are enough for all but 2 ^ 64 of them. -/
theorem Invariant.seq_le {q : MPMCQueue τ α} (hq : q.Invariant) {i : Nat} (hi : i < q.size) :
    q.seq i ≤ q.entered.length + q.size := by
  have hhead := hq.head_le
  have hlength := hq.entered
  obtain ⟨p, rfl, hfree | hentering | hfilled | hleaving⟩ := hq.phases i hi
  · have := hfree.2.2
    rw [hfree.1]
    omega
  · have := hentering.2.2
    rw [hentering.1]
    omega
  · have := hfilled.2.2.1
    rw [hfilled.1]
    omega
  · have := hleaving.2.1
    rw [hleaving.1]
    omega

theorem Invariant.gap {q : MPMCQueue τ α} (hq : q.Invariant) {p r : Nat}
    (hslot : q.slot p = q.slot r) (hlt : p < r) : p + q.size ≤ r := by
  rw [hq.slot_eq, hq.slot_eq] at hslot
  exact mod_gap hslot hlt

/-- The place after one is in another slot. -/
theorem Invariant.slot_succ {q : MPMCQueue τ α} (hq : q.Invariant) {p r : Nat} (hr : r = p + 1) :
    q.slot p ≠ q.slot r := by
  intro hslot
  have := hq.gap hslot (by omega)
  have := hq.two
  omega

/-- Counters only grow, and what a thread owns is left alone by the others. -/
theorem Knows.mono {q r : MPMCQueue τ α} {state : Thread α} (h : q.Knows state)
    (hsize : r.size = q.size) (htail : q.tail ≤ r.tail) (hhead : q.head ≤ r.head)
    (hseq : ∀ i, q.seq i ≤ r.seq i) (hentered : ∀ p < q.tail, r.entered[p]? = q.entered[p]?)
    (hentering : ∀ p, state.entering = some p → q.Entering p →
      r.Entering p ∧ r.data (q.slot p) = q.data (q.slot p))
    (hleaving : ∀ p, state.leaving = some p → q.Leaving p → r.Leaving p)
    (hle : q.head ≤ q.tail) : r.Knows state := by
  have hslot (p : Nat) : r.slot p = q.slot p := by rw [slot, slot, hsize]
  cases state with
  | idle | enqueue | dequeue => trivial
  | enqueueAt data pos => exact Nat.le_trans h htail
  | enqueueClaim data pos =>
      refine ⟨Nat.le_trans h.1 htail, ?_⟩
      rw [hslot]
      exact Nat.le_trans h.2 (hseq _)
  | enqueueStore data pos =>
      refine ⟨(hentering pos rfl h.1).1, ?_⟩
      rw [hentered pos h.1.2.2]
      exact h.2
  | enqueuePublish pos =>
      obtain ⟨hown, hdata⟩ := hentering pos rfl h.1
      refine ⟨hown, ?_⟩
      rw [hslot, hdata, hentered pos h.1.2.2]
      exact h.2
  | dequeueAt pos => exact Nat.le_trans h hhead
  | dequeueClaim pos =>
      refine ⟨Nat.le_trans h.1 hhead, ?_⟩
      rw [hslot]
      exact Nat.le_trans h.2 (hseq _)
  | dequeueLoad pos => exact hleaving pos rfl h
  | dequeueRelease pos data =>
      refine ⟨hleaving pos rfl h.1, ?_⟩
      rw [hentered pos (Nat.lt_of_lt_of_le h.1.2.1 hle)]
      exact h.2

theorem Invariant.entering_spec {q : MPMCQueue τ α} (hq : q.Invariant) {t : τ} {p : Nat}
    (ht : (q.thread t).entering = some p) : q.Entering p := by
  have hknows := hq.threads t
  cases hstate : q.thread t with
  | enqueueStore data pos | enqueuePublish pos =>
      rw [hstate] at ht hknows
      obtain rfl := Option.some.inj ht
      exact hknows.1
  | _ =>
      rw [hstate] at ht
      cases ht

theorem Invariant.leaving_spec {q : MPMCQueue τ α} (hq : q.Invariant) {t : τ} {p : Nat}
    (ht : (q.thread t).leaving = some p) : q.Leaving p := by
  have hknows := hq.threads t
  cases hstate : q.thread t with
  | dequeueLoad pos =>
      rw [hstate] at ht hknows
      obtain rfl := Option.some.inj ht
      exact hknows
  | dequeueRelease pos data =>
      rw [hstate] at ht hknows
      obtain rfl := Option.some.inj ht
      exact hknows.1
  | _ =>
      rw [hstate] at ht
      cases ht

/-- At the tail a slot whose sequence number has come up is free. -/
theorem Invariant.free_tail {q : MPMCQueue τ α} (hq : q.Invariant)
    (hseq : q.tail ≤ q.seq (q.slot q.tail)) : q.Free q.tail := by
  obtain ⟨p, hslot, hphase⟩ := hq.phases _ (hq.slot_lt q.tail)
  have hhead := hq.head_le
  have htail := hq.tail_le
  have htwo := hq.two
  rw [← hslot] at hseq
  have hbelow : p < q.tail → q.seq (q.slot p) ≤ p + 1 → False := by
    intro hlt hle
    have := hq.gap hslot hlt
    omega
  rcases hphase with hfree | hentering | hfilled | hleaving
  · obtain ⟨hown, hle, hlt⟩ := hfree
    have heq : p = q.tail := by
      by_contra hne
      have := hq.gap hslot.symm (by omega)
      omega
    rw [← heq] at htail ⊢
    exact ⟨hown, heq ▸ hle, hlt⟩
  · exact (hbelow hentering.2.2 (by rw [hentering.1]; omega)).elim
  · exact (hbelow hfilled.2.2.1 (Nat.le_of_eq hfilled.1)).elim
  · exact (hbelow (Nat.lt_of_lt_of_le hleaving.2.1 hq.head_le) (Nat.le_of_eq hleaving.1)).elim

/-- At the head a slot whose sequence number has come up is filled. -/
theorem Invariant.filled_head {q : MPMCQueue τ α} (hq : q.Invariant)
    (hseq : q.head + 1 ≤ q.seq (q.slot q.head)) : q.Filled q.head := by
  obtain ⟨p, hslot, hphase⟩ := hq.phases _ (hq.slot_lt q.head)
  have htail := hq.tail_le
  have htwo := hq.two
  rw [← hslot] at hseq
  rcases hphase with hfree | hentering | hfilled | hleaving
  · obtain ⟨hown, -, hlt⟩ := hfree
    have := hq.gap hslot.symm (by omega)
    omega
  · obtain ⟨hown, -, hlt⟩ := hentering
    have := hq.gap hslot.symm (by omega)
    omega
  · obtain ⟨hown, hle, hlt, hdata⟩ := hfilled
    have heq : p = q.head := by
      by_contra hne
      have := hq.gap hslot.symm (by omega)
      omega
    rw [← heq]
    exact ⟨hown, heq ▸ Nat.le_refl p, hlt, hdata⟩
  · obtain ⟨hown, hlt, -⟩ := hleaving
    have := hq.gap hslot hlt
    omega

theorem new_invariant {size : Nat} (hsize : size ≤ 2 ^ 63) :
    (new size : MPMCQueue τ α).Invariant := by
  obtain ⟨k, hk, -⟩ := nextPow2_spec hsize
  have htwo := two_le_nextPow2 hsize
  constructor
  case sized => exact ⟨k, hk⟩
  case two => exact htwo
  case head_le => exact Nat.le_refl 0
  case tail_le => exact Nat.zero_le _
  case entered => rfl
  case phases =>
    intro i hi
    have hslot : (new size : MPMCQueue τ α).slot i = i := by
      change i &&& (nextPow2 size - 1) = i
      rw [hk, Nat.and_two_pow_sub_one_eq_mod, ← hk]
      exact Nat.mod_eq_of_lt hi
    exact ⟨i, hslot, Or.inl ⟨hslot, Nat.zero_le i, (Nat.zero_add (nextPow2 size)).symm ▸ hi⟩⟩
  case threads => exact fun _ => trivial
  case oneEntering =>
    intro t u p ht
    cases ht
  case oneLeaving =>
    intro t u p ht
    cases ht
  case enters =>
    rintro p ⟨-, -, hlt⟩
    exact (Nat.not_lt_zero p hlt).elim
  case leaves =>
    rintro p ⟨-, hlt, -⟩
    exact (Nat.not_lt_zero p hlt).elim
  case left =>
    intro e he
    cases he
  case once => exact List.nodup_nil
  case taken =>
    intro p
    exact iff_of_false List.not_mem_nil fun h => Nat.not_lt_zero p h.1

theorem Invariant.filled_or_entering {q : MPMCQueue τ α} (hq : q.Invariant) {p : Nat}
    (hle : q.head ≤ p) (hlt : p < q.tail) : q.Filled p ∨ q.Entering p := by
  obtain ⟨r, hslot, hphase⟩ := hq.phases _ (hq.slot_lt p)
  have hhead := hq.head_le
  have htail := hq.tail_le
  have hbelow : r < p → q.tail ≤ r + q.size → False := by
    intro hrp hround
    have := hq.gap hslot hrp
    omega
  have habove : p < r → r < q.tail → False := by
    intro hpr hr
    have := hq.gap hslot.symm hpr
    omega
  rcases hphase with hfree | hentering | hfilled | hleaving
  · obtain ⟨-, hbehind, hround⟩ := hfree
    have := hq.gap hslot.symm (by omega)
    omega
  · obtain ⟨hown, hat, hr⟩ := hentering
    rcases Nat.lt_trichotomy r p with hrp | rfl | hpr
    · exact (hbelow hrp (by omega)).elim
    · exact Or.inr ⟨hown, hat, hr⟩
    · exact (habove hpr hr).elim
  · obtain ⟨hown, hat, hr, hdata⟩ := hfilled
    rcases Nat.lt_trichotomy r p with hrp | rfl | hpr
    · exact (hbelow hrp (by omega)).elim
    · exact Or.inl ⟨hown, hat, hr, hdata⟩
    · exact (habove hpr hr).elim
  · obtain ⟨-, hr, hround, -⟩ := hleaving
    exact (hbelow (by omega) hround).elim

/-- What a thread knows that finds no value at the place it was told. -/
theorem Invariant.nothing_at_head {q : MPMCQueue τ α} (hq : q.Invariant) {t : τ} {pos : Nat}
    (ht : q.thread t = .dequeueAt pos) (hseq : q.seq (q.slot pos) < pos + 1) :
    pos = q.head ∧ (q.head = q.tail ∨ ∃ u, (q.thread u).entering = some q.head) := by
  have hle : pos ≤ q.head := by
    have hknows := hq.threads t
    rwa [ht] at hknows
  have hhead := hq.head_le
  obtain ⟨p, hslot, hphase⟩ := hq.phases _ (hq.slot_lt pos)
  rw [← hslot] at hseq
  rcases hphase with ⟨hown, hat, -⟩ | hentering | ⟨hown, hat, -⟩ | ⟨hown, -, hround, -⟩
  · exact ⟨by omega, Or.inl (by omega)⟩
  · have hown := hentering.1
    have hat := hentering.2.1
    have heq : p = q.head := by omega
    rw [heq] at hentering
    exact ⟨by omega, Or.inr (hq.enters q.head hentering)⟩
  · omega
  · have := hq.gap hslot (by omega)
    exact ⟨by omega, Or.inl (by omega)⟩

variable [DecidableEq τ]

@[simp] theorem goTo_thread_self (q : MPMCQueue τ α) (t : τ) (state : Thread α) :
    (q.goTo t state).thread t = state := Function.update_self ..

theorem goTo_thread_of_ne (q : MPMCQueue τ α) {t u : τ} (hu : u ≠ t) (state : Thread α) :
    (q.goTo t state).thread u = q.thread u := Function.update_of_ne hu ..

@[simp] theorem goTo_knows (q : MPMCQueue τ α) (t : τ) (state other : Thread α) :
    (q.goTo t state).Knows other ↔ q.Knows other := by
  cases other <;> rfl

/-- No two threads own one place, also after one of them has moved. -/
theorem goTo_unique (f : Thread α → Option Nat) {q : MPMCQueue τ α}
    (hq : ∀ t u p, f (q.thread t) = some p → f (q.thread u) = some p → t = u) {t : τ}
    {state : Thread α}
    (hnew : ∀ p, f state = some p → ∀ u, u ≠ t → f (q.thread u) ≠ some p) (u v : τ) (p : Nat)
    (hu : f ((q.goTo t state).thread u) = some p)
    (hv : f ((q.goTo t state).thread v) = some p) : u = v := by
  by_cases hut : u = t
  · subst hut
    rw [goTo_thread_self] at hu
    by_contra hne
    rw [goTo_thread_of_ne q (Ne.symm hne)] at hv
    exact hnew p hu v (Ne.symm hne) hv
  · rw [goTo_thread_of_ne q hut] at hu
    by_cases hvt : v = t
    · subst hvt
      rw [goTo_thread_self] at hv
      exact (hnew p hv u hut hu).elim
    · rw [goTo_thread_of_ne q hvt] at hv
      exact hq u v p hu hv

theorem goTo_owner (f : Thread α → Option Nat) {q : MPMCQueue τ α} {t : τ} {state : Thread α}
    {p : Nat} (hq : ∃ u, f (q.thread u) = some p)
    (ht : f (q.thread t) = some p → f state = some p) :
    ∃ u, f ((q.goTo t state).thread u) = some p := by
  obtain ⟨u, hu⟩ := hq
  by_cases hut : u = t
  · exact ⟨t, by rw [goTo_thread_self]; exact ht (hut ▸ hu)⟩
  · exact ⟨u, by rwa [goTo_thread_of_ne q hut]⟩

/-- What the threads own is what they owned but for the one that moved. -/
theorem forall_leaving_goTo {q : MPMCQueue τ α} {t : τ} {state : Thread α} {p : Nat}
    (hsame : state.leaving = some p ↔ (q.thread t).leaving = some p) :
    (∀ u, ((q.goTo t state).thread u).leaving ≠ some p) ↔ ∀ u, (q.thread u).leaving ≠ some p := by
  apply forall_congr'
  intro u
  by_cases hu : u = t
  · rw [hu, goTo_thread_self]
    exact not_congr hsame
  · rw [goTo_thread_of_ne q hu]

/-- A step that changes nothing but where a thread is. -/
theorem Invariant.goTo {q : MPMCQueue τ α} (hq : q.Invariant) {t : τ} {state : Thread α}
    (hknows : q.Knows state) (hentering : state.entering = (q.thread t).entering)
    (hleaving : state.leaving = (q.thread t).leaving) : (q.goTo t state).Invariant := by
  have hentering' (u : τ) : ((q.goTo t state).thread u).entering = (q.thread u).entering := by
    by_cases hu : u = t
    · rw [hu, goTo_thread_self, hentering]
    · rw [goTo_thread_of_ne q hu]
  have hleaving' (u : τ) : ((q.goTo t state).thread u).leaving = (q.thread u).leaving := by
    by_cases hu : u = t
    · rw [hu, goTo_thread_self, hleaving]
    · rw [goTo_thread_of_ne q hu]
  constructor
  case sized => exact hq.sized
  case two => exact hq.two
  case head_le => exact hq.head_le
  case tail_le => exact hq.tail_le
  case entered => exact hq.entered
  case phases => exact hq.phases
  case threads =>
    intro u
    rw [goTo_knows]
    by_cases hu : u = t
    · rwa [hu, goTo_thread_self]
    · rw [goTo_thread_of_ne q hu]
      exact hq.threads u
  case oneEntering =>
    intro u v p
    rw [hentering', hentering']
    exact hq.oneEntering u v p
  case oneLeaving =>
    intro u v p
    rw [hleaving', hleaving']
    exact hq.oneLeaving u v p
  case enters =>
    intro p hp
    exact goTo_owner Thread.entering (hq.enters p hp) hentering.trans
  case leaves =>
    intro p hp
    exact goTo_owner Thread.leaving (hq.leaves p hp) hleaving.trans
  case left => exact hq.left
  case once => exact hq.once
  case taken =>
    intro p
    simp only [hleaving']
    exact hq.taken p

theorem Invariant.claimEnqueue {q : MPMCQueue τ α} (hq : q.Invariant) {t : τ} {data : α}
    (ht : q.thread t = .enqueueClaim data q.tail) :
    ({q with tail := q.tail + 1, entered := q.entered ++ [data]}.goTo t
      (.enqueueStore data q.tail)).Invariant := by
  have hknows := hq.threads t
  rw [ht] at hknows
  obtain ⟨hseq, -, hroom⟩ := hq.free_tail hknows.2
  have hhead := hq.head_le
  have htwo := hq.two
  have hentered (p : Nat) (hp : p < q.tail) : (q.entered ++ [data])[p]? = q.entered[p]? :=
    List.getElem?_append_left (by rw [hq.entered]; exact hp)
  have hleft (p : Nat) (h : q.Leaving p) : q.tail + 1 ≤ p + q.size := by
    obtain ⟨hown, hlt, hle, -⟩ := h
    by_contra hlast
    have heq : q.tail = p + q.size := by omega
    have hslot : q.slot q.tail = q.slot p := by
      rw [hq.slot_eq, hq.slot_eq, heq, Nat.add_mod_right]
    rw [hslot] at hseq
    omega
  have hknown {state : Thread α} (h : q.Knows state) :
      {q with tail := q.tail + 1, entered := q.entered ++ [data]}.Knows state := by
    apply Knows.mono (r := {q with tail := q.tail + 1, entered := q.entered ++ [data]}) h rfl
      (Nat.le_succ _) (Nat.le_refl _) (fun _ => Nat.le_refl _) hentered
    · rintro p - ⟨hown, hle, hlt⟩
      exact ⟨⟨hown, hle, Nat.lt_succ_of_lt hlt⟩, rfl⟩
    · intro p _ h
      refine ⟨h.1, h.2.1, hleft p h, ?_⟩
      exact h.2.2.2.trans (hentered p (Nat.lt_of_lt_of_le h.2.1 hhead)).symm
    · exact hhead
  constructor
  case sized => exact hq.sized
  case two => exact hq.two
  case head_le => exact Nat.le_succ_of_le hhead
  case tail_le => exact hroom
  case entered =>
    change (q.entered ++ [data]).length = q.tail + 1
    rw [List.length_append, hq.entered, List.length_singleton]
  case phases =>
    intro i hi
    obtain ⟨p, hslot, hphase⟩ := hq.phases i hi
    refine ⟨p, hslot, ?_⟩
    rcases hphase with hfree | hentering | hfilled | hleaving
    · obtain ⟨hown, hle, hlt⟩ := hfree
      rcases Nat.eq_or_lt_of_le hle with heq | hgt
      · exact Or.inr (Or.inl ⟨hown, heq ▸ hhead, heq ▸ Nat.lt_succ_self _⟩)
      · exact Or.inl ⟨hown, hgt, hlt⟩
    · obtain ⟨hown, hle, hlt⟩ := hentering
      exact Or.inr (Or.inl ⟨hown, hle, Nat.lt_succ_of_lt hlt⟩)
    · obtain ⟨hown, hle, hlt, hdata⟩ := hfilled
      exact Or.inr (Or.inr (Or.inl ⟨hown, hle, Nat.lt_succ_of_lt hlt,
        hdata.trans (hentered p hlt).symm⟩))
    · exact Or.inr (Or.inr (Or.inr ⟨hleaving.1, hleaving.2.1, hleft p hleaving,
        hleaving.2.2.2.trans (hentered p (Nat.lt_of_lt_of_le hleaving.2.1 hhead)).symm⟩))
  case threads =>
    intro u
    rw [goTo_knows]
    by_cases hu : u = t
    · rw [hu, goTo_thread_self]
      refine ⟨⟨hseq, hhead, Nat.lt_succ_self _⟩, ?_⟩
      change (q.entered ++ [data])[q.tail]? = some data
      rw [← hq.entered, List.getElem?_concat_length]
    · rw [goTo_thread_of_ne _ hu]
      exact hknown (hq.threads u)
  case oneEntering =>
    apply goTo_unique Thread.entering hq.oneEntering
    intro p hp u _ hu
    obtain rfl := Option.some.inj hp
    exact Nat.lt_irrefl _ (hq.entering_spec hu).2.2
  case oneLeaving =>
    apply goTo_unique Thread.leaving hq.oneLeaving
    intro p hp
    cases hp
  case enters =>
    rintro p ⟨hown, hle, hlt⟩
    rcases Nat.eq_or_lt_of_le (Nat.le_of_lt_succ hlt) with heq | hbefore
    · exact ⟨t, by rw [goTo_thread_self, heq]; rfl⟩
    · apply goTo_owner Thread.entering (hq.enters p ⟨hown, hle, hbefore⟩)
      rw [ht]
      exact False.elim ∘ (Option.some_ne_none p).symm
  case leaves =>
    rintro p ⟨hown, hlt, hle, hdata⟩
    have hbefore : q.Leaving p :=
      ⟨hown, hlt, Nat.le_of_succ_le hle, hdata.trans (hentered p (Nat.lt_of_lt_of_le hlt hhead))⟩
    apply goTo_owner Thread.leaving (hq.leaves p hbefore)
    rw [ht]
    exact False.elim ∘ (Option.some_ne_none p).symm
  case left =>
    intro e he
    refine (hq.left e he).trans (hentered e.1 ?_).symm
    exact Nat.lt_of_lt_of_le ((hq.taken e.1).mp (List.mem_map_of_mem he)).1 hhead
  case once => exact hq.once
  case taken =>
    intro p
    rw [forall_leaving_goTo]
    · exact hq.taken p
    · change none = some p ↔ (q.thread t).leaving = some p
      rw [ht]
      rfl

theorem Invariant.store {q : MPMCQueue τ α} (hq : q.Invariant) {t : τ} {data : α} {pos : Nat}
    (ht : q.thread t = .enqueueStore data pos) :
    ({q with data := Function.update q.data (q.slot pos) (some data)}.goTo t
      (.enqueuePublish pos)).Invariant := by
  have hknows := hq.threads t
  rw [ht] at hknows
  obtain ⟨hown, hdata⟩ := hknows
  have hentering : (q.thread t).entering = some pos := by
    rw [ht]
    rfl
  have hother (p : Nat) (hseq : q.seq (q.slot p) = p + 1) : q.slot p ≠ q.slot pos := by
    intro hslot
    rw [hslot, hown.1] at hseq
    exact hq.slot_succ hseq hslot
  have hsame (p : Nat) (hseq : q.seq (q.slot p) = p + 1) :
      Function.update q.data (q.slot pos) (some data) (q.slot p) = q.data (q.slot p) :=
    Function.update_of_ne (hother p hseq) ..
  constructor
  case sized => exact hq.sized
  case two => exact hq.two
  case head_le => exact hq.head_le
  case tail_le => exact hq.tail_le
  case entered => exact hq.entered
  case phases =>
    intro i hi
    obtain ⟨p, hslot, hphase⟩ := hq.phases i hi
    refine ⟨p, hslot, ?_⟩
    rcases hphase with hfree | hin | hfilled | hout
    · exact Or.inl hfree
    · exact Or.inr (Or.inl hin)
    · exact Or.inr (Or.inr (Or.inl ⟨hfilled.1, hfilled.2.1, hfilled.2.2.1,
        (hsame p hfilled.1).trans hfilled.2.2.2⟩))
    · exact Or.inr (Or.inr (Or.inr ⟨hout.1, hout.2.1, hout.2.2.1,
        (hsame p hout.1).trans hout.2.2.2⟩))
  case threads =>
    intro u
    rw [goTo_knows]
    by_cases hu : u = t
    · rw [hu, goTo_thread_self]
      refine ⟨hown, ?_⟩
      change Function.update q.data (q.slot pos) (some data) (q.slot pos) = q.entered[pos]?
      rw [Function.update_self, hdata]
    · rw [goTo_thread_of_ne _ hu]
      apply Knows.mono (r := {q with data := Function.update q.data (q.slot pos) (some data)})
        (hq.threads u) rfl (Nat.le_refl _) (Nat.le_refl _) (fun _ => Nat.le_refl _) fun _ _ => rfl
      · intro p hp hin
        refine ⟨hin, Function.update_of_ne ?_ ..⟩
        intro hslot
        have heq : p = pos := by
          rw [← hin.1, hslot, hown.1]
        rw [heq] at hp
        exact hu (hq.oneEntering u t pos hp hentering)
      · rintro p - hout
        exact ⟨hout.1, hout.2.1, hout.2.2.1, (hsame p hout.1).trans hout.2.2.2⟩
      · exact hq.head_le
  case oneEntering =>
    apply goTo_unique Thread.entering hq.oneEntering
    intro p hp u hu hup
    obtain rfl := Option.some.inj hp
    exact hu (hq.oneEntering u t _ hup hentering)
  case oneLeaving =>
    apply goTo_unique Thread.leaving hq.oneLeaving
    intro p hp
    cases hp
  case enters =>
    intro p hp
    apply goTo_owner Thread.entering (hq.enters p hp)
    rw [ht]
    exact id
  case leaves =>
    rintro p ⟨hseq, hlt, hle, hdata⟩
    have hbefore : q.Leaving p := ⟨hseq, hlt, hle, (hsame p hseq).symm.trans hdata⟩
    apply goTo_owner Thread.leaving (hq.leaves p hbefore)
    rw [ht]
    exact False.elim ∘ (Option.some_ne_none p).symm
  case left => exact hq.left
  case once => exact hq.once
  case taken =>
    intro p
    rw [forall_leaving_goTo]
    · exact hq.taken p
    · change none = some p ↔ (q.thread t).leaving = some p
      rw [ht]
      rfl

theorem Invariant.publish {q : MPMCQueue τ α} (hq : q.Invariant) {t : τ} {pos : Nat}
    (ht : q.thread t = .enqueuePublish pos) :
    ({q with seq := Function.update q.seq (q.slot pos) (pos + 1)}.goTo t .idle).Invariant := by
  have hknows := hq.threads t
  rw [ht] at hknows
  obtain ⟨hown, hdata⟩ := hknows
  have hentering : (q.thread t).entering = some pos := by
    rw [ht]
    rfl
  have hout (p : Nat) (hseq : q.seq (q.slot p) = p + 1) : q.slot p ≠ q.slot pos := by
    intro hslot
    rw [hslot, hown.1] at hseq
    exact hq.slot_succ hseq hslot
  have hsame {p : Nat} (hslot : q.slot p ≠ q.slot pos) :
      Function.update q.seq (q.slot pos) (pos + 1) (q.slot p) = q.seq (q.slot p) :=
    Function.update_of_ne hslot ..
  constructor
  case sized => exact hq.sized
  case two => exact hq.two
  case head_le => exact hq.head_le
  case tail_le => exact hq.tail_le
  case entered => exact hq.entered
  case phases =>
    intro i hi
    by_cases hslot : i = q.slot pos
    · refine ⟨pos, hslot.symm, Or.inr (Or.inr (Or.inl ⟨?_, hown.2.1, hown.2.2, hdata⟩))⟩
      exact Function.update_self ..
    · obtain ⟨p, rfl, hphase⟩ := hq.phases i hi
      refine ⟨p, rfl, ?_⟩
      rcases hphase with hfree | hin | hfilled | hleaving
      · exact Or.inl ⟨(hsame hslot).trans hfree.1, hfree.2⟩
      · exact Or.inr (Or.inl ⟨(hsame hslot).trans hin.1, hin.2⟩)
      · exact Or.inr (Or.inr (Or.inl ⟨(hsame hslot).trans hfilled.1, hfilled.2⟩))
      · exact Or.inr (Or.inr (Or.inr ⟨(hsame hslot).trans hleaving.1, hleaving.2⟩))
  case threads =>
    intro u
    rw [goTo_knows]
    by_cases hu : u = t
    · rw [hu, goTo_thread_self]
      trivial
    · rw [goTo_thread_of_ne _ hu]
      apply Knows.mono (r := {q with seq := Function.update q.seq (q.slot pos) (pos + 1)})
        (hq.threads u) rfl (Nat.le_refl _) (Nat.le_refl _)
      · intro i
        by_cases hi : i = q.slot pos
        · subst hi
          change _ ≤ Function.update q.seq (q.slot pos) (pos + 1) (q.slot pos)
          rw [Function.update_self, hown.1]
          exact Nat.le_succ pos
        · exact Nat.le_of_eq (Function.update_of_ne hi ..).symm
      · exact fun _ _ => rfl
      · intro p hp hin
        refine ⟨⟨(hsame ?_).trans hin.1, hin.2⟩, rfl⟩
        intro hslot
        have heq : p = pos := by
          rw [← hin.1, hslot, hown.1]
        rw [heq] at hp
        exact hu (hq.oneEntering u t pos hp hentering)
      · rintro p - hleaving
        exact ⟨(hsame (hout p hleaving.1)).trans hleaving.1, hleaving.2⟩
      · exact hq.head_le
  case oneEntering =>
    apply goTo_unique Thread.entering hq.oneEntering
    intro p hp
    cases hp
  case oneLeaving =>
    apply goTo_unique Thread.leaving hq.oneLeaving
    intro p hp
    cases hp
  case enters =>
    rintro p ⟨hseq, hle, hlt⟩
    have hslot : q.slot p ≠ q.slot pos := by
      intro hslot
      change Function.update q.seq (q.slot pos) (pos + 1) (q.slot p) = p at hseq
      rw [hslot, Function.update_self] at hseq
      exact hq.slot_succ hseq.symm hslot.symm
    apply goTo_owner Thread.entering (hq.enters p ⟨(hsame hslot).symm.trans hseq, hle, hlt⟩)
    rw [hentering, Option.some_inj]
    rintro rfl
    exact (hslot rfl).elim
  case leaves =>
    rintro p ⟨hseq, hlt, hrest⟩
    have hslot : q.slot p ≠ q.slot pos := by
      intro hslot
      change Function.update q.seq (q.slot pos) (pos + 1) (q.slot p) = p + 1 at hseq
      rw [hslot, Function.update_self] at hseq
      change p < q.head at hlt
      have := hown.2.1
      omega
    apply goTo_owner Thread.leaving (hq.leaves p ⟨(hsame hslot).symm.trans hseq, hlt, hrest⟩)
    rw [ht]
    exact False.elim ∘ (Option.some_ne_none p).symm
  case left => exact hq.left
  case once => exact hq.once
  case taken =>
    intro p
    rw [forall_leaving_goTo]
    · exact hq.taken p
    · change none = some p ↔ (q.thread t).leaving = some p
      rw [ht]
      rfl

theorem Invariant.claimDequeue {q : MPMCQueue τ α} (hq : q.Invariant) {t : τ}
    (ht : q.thread t = .dequeueClaim q.head) :
    ({q with head := q.head + 1}.goTo t (.dequeueLoad q.head)).Invariant := by
  have hknows := hq.threads t
  rw [ht] at hknows
  obtain ⟨hseq, -, hlt, hdata⟩ := hq.filled_head hknows.2
  have htail := hq.tail_le
  have hleaving : q.Leaving q.head → False := fun h => Nat.lt_irrefl _ h.2.1
  have hin {p : Nat} (h : q.Entering p) : q.head + 1 ≤ p := by
    obtain ⟨hown, hle, -⟩ := h
    rcases Nat.eq_or_lt_of_le hle with heq | hgt
    · rw [← heq] at hown
      omega
    · exact hgt
  constructor
  case sized => exact hq.sized
  case two => exact hq.two
  case head_le => exact hlt
  case tail_le =>
    change q.tail ≤ q.head + 1 + q.size
    omega
  case entered => exact hq.entered
  case phases =>
    intro i hi
    obtain ⟨p, hslot, hphase⟩ := hq.phases i hi
    refine ⟨p, hslot, ?_⟩
    rcases hphase with hfree | hentering | hfilled | hout
    · refine Or.inl ⟨hfree.1, hfree.2.1, ?_⟩
      have := hfree.2.2
      change p < q.head + 1 + q.size
      omega
    · exact Or.inr (Or.inl ⟨hentering.1, hin hentering, hentering.2.2⟩)
    · obtain ⟨hown, hle, hbelow, hsame⟩ := hfilled
      rcases Nat.eq_or_lt_of_le hle with heq | hgt
      · subst heq
        exact Or.inr (Or.inr (Or.inr ⟨hown, Nat.lt_succ_self _, htail, hsame⟩))
      · exact Or.inr (Or.inr (Or.inl ⟨hown, hgt, hbelow, hsame⟩))
    · exact Or.inr (Or.inr (Or.inr ⟨hout.1, Nat.lt_succ_of_lt hout.2.1, hout.2.2⟩))
  case threads =>
    intro u
    rw [goTo_knows]
    by_cases hu : u = t
    · rw [hu, goTo_thread_self]
      exact ⟨hseq, Nat.lt_succ_self _, htail, hdata⟩
    · rw [goTo_thread_of_ne _ hu]
      apply Knows.mono (r := {q with head := q.head + 1}) (hq.threads u) rfl (Nat.le_refl _)
        (Nat.le_succ _) (fun _ => Nat.le_refl _) (fun _ _ => rfl)
      · rintro p - hentering
        exact ⟨⟨hentering.1, hin hentering, hentering.2.2⟩, rfl⟩
      · rintro p - hout
        exact ⟨hout.1, Nat.lt_succ_of_lt hout.2.1, hout.2.2⟩
      · exact hq.head_le
  case oneEntering =>
    apply goTo_unique Thread.entering hq.oneEntering
    intro p hp
    cases hp
  case oneLeaving =>
    apply goTo_unique Thread.leaving hq.oneLeaving
    intro p hp u _ hu
    obtain rfl := Option.some.inj hp
    exact hleaving (hq.leaving_spec hu)
  case enters =>
    rintro p ⟨hown, hle, hbelow⟩
    apply goTo_owner Thread.entering (hq.enters p ⟨hown, Nat.le_of_succ_le hle, hbelow⟩)
    rw [ht]
    exact False.elim ∘ (Option.some_ne_none p).symm
  case leaves =>
    rintro p ⟨hown, hbelow, hrest⟩
    rcases Nat.eq_or_lt_of_le (Nat.le_of_lt_succ hbelow) with heq | hbefore
    · exact ⟨t, by rw [goTo_thread_self, heq]; rfl⟩
    · apply goTo_owner Thread.leaving (hq.leaves p ⟨hown, hbefore, hrest⟩)
      rw [ht]
      exact False.elim ∘ (Option.some_ne_none p).symm
  case left => exact hq.left
  case once => exact hq.once
  case taken =>
    intro p
    change p ∈ q.left.map (·.1) ↔ p < q.head + 1 ∧ _
    rw [hq.taken]
    by_cases hp : p = q.head
    · subst hp
      constructor
      · rintro ⟨hlt, -⟩
        exact (Nat.lt_irrefl _ hlt).elim
      · rintro ⟨-, hnone⟩
        refine (hnone t ?_).elim
        rw [goTo_thread_self]
        rfl
    · rw [forall_leaving_goTo]
      · apply and_congr_left'
        omega
      · change some q.head = some p ↔ (q.thread t).leaving = some p
        rw [ht, Option.some_inj]
        exact iff_of_false (fun h => hp h.symm) (by simp [Thread.leaving])

theorem Invariant.release {q : MPMCQueue τ α} (hq : q.Invariant) {t : τ} {pos : Nat}
    {data : Option α} (ht : q.thread t = .dequeueRelease pos data) :
    ({q with
      seq := Function.update q.seq (q.slot pos) (pos + (q.size - 1) + 1)
      left := q.left ++ [(pos, data)]}.goTo t .idle).Invariant := by
  have hknows := hq.threads t
  rw [ht] at hknows
  obtain ⟨hown, hdata⟩ := hknows
  have htwo := hq.two
  have hround : pos + (q.size - 1) + 1 = pos + q.size := by omega
  rw [hround]
  have hleaving : (q.thread t).leaving = some pos := by
    rw [ht]
    rfl
  have hin {p : Nat} (hentering : q.Entering p) : q.slot p ≠ q.slot pos := by
    intro hslot
    have := hentering.1
    rw [hslot, hown.1] at this
    exact hq.slot_succ this.symm hslot.symm
  have hsame {p : Nat} (hslot : q.slot p ≠ q.slot pos) :
      Function.update q.seq (q.slot pos) (pos + q.size) (q.slot p) = q.seq (q.slot p) :=
    Function.update_of_ne hslot ..
  have hnew : pos ∉ q.left.map (·.1) := fun h => ((hq.taken pos).mp h).2 t hleaving
  constructor
  case sized => exact hq.sized
  case two => exact hq.two
  case head_le => exact hq.head_le
  case tail_le => exact hq.tail_le
  case entered => exact hq.entered
  case phases =>
    intro i hi
    by_cases hslot : i = q.slot pos
    · have hnext : q.slot (pos + q.size) = q.slot pos := by
        rw [hq.slot_eq, hq.slot_eq, Nat.add_mod_right]
      refine ⟨pos + q.size, hnext.trans hslot.symm,
        Or.inl ⟨?_, hown.2.2.1, Nat.add_lt_add_right hown.2.1 _⟩⟩
      change Function.update q.seq (q.slot pos) (pos + q.size) (q.slot (pos + q.size)) = _
      rw [hnext, Function.update_self]
    · obtain ⟨p, rfl, hphase⟩ := hq.phases i hi
      refine ⟨p, rfl, ?_⟩
      rcases hphase with hfree | hentering | hfilled | hout
      · exact Or.inl ⟨(hsame hslot).trans hfree.1, hfree.2⟩
      · exact Or.inr (Or.inl ⟨(hsame hslot).trans hentering.1, hentering.2⟩)
      · exact Or.inr (Or.inr (Or.inl ⟨(hsame hslot).trans hfilled.1, hfilled.2⟩))
      · exact Or.inr (Or.inr (Or.inr ⟨(hsame hslot).trans hout.1, hout.2⟩))
  case threads =>
    intro u
    rw [goTo_knows]
    by_cases hu : u = t
    · rw [hu, goTo_thread_self]
      trivial
    · rw [goTo_thread_of_ne _ hu]
      apply Knows.mono (r := {q with
          seq := Function.update q.seq (q.slot pos) (pos + q.size)
          left := q.left ++ [(pos, data)]})
        (hq.threads u) rfl (Nat.le_refl _) (Nat.le_refl _)
      · intro i
        by_cases hi : i = q.slot pos
        · subst hi
          change _ ≤ Function.update q.seq (q.slot pos) (pos + q.size) (q.slot pos)
          rw [Function.update_self, hown.1]
          omega
        · exact Nat.le_of_eq (Function.update_of_ne hi ..).symm
      · exact fun _ _ => rfl
      · rintro p - hentering
        exact ⟨⟨(hsame (hin hentering)).trans hentering.1, hentering.2⟩, rfl⟩
      · intro p hp hout
        refine ⟨(hsame ?_).trans hout.1, hout.2⟩
        intro hslot
        have heq : p = pos := by
          have := hout.1
          rw [hslot, hown.1] at this
          omega
        rw [heq] at hp
        exact hu (hq.oneLeaving u t pos hp hleaving)
      · exact hq.head_le
  case oneEntering =>
    apply goTo_unique Thread.entering hq.oneEntering
    intro p hp
    cases hp
  case oneLeaving =>
    apply goTo_unique Thread.leaving hq.oneLeaving
    intro p hp
    cases hp
  case enters =>
    rintro p ⟨hseq, hle, hlt⟩
    have hslot : q.slot p ≠ q.slot pos := by
      intro hslot
      change Function.update q.seq (q.slot pos) (pos + q.size) (q.slot p) = p at hseq
      rw [hslot, Function.update_self] at hseq
      change p < q.tail at hlt
      have := hown.2.2.1
      omega
    apply goTo_owner Thread.entering (hq.enters p ⟨(hsame hslot).symm.trans hseq, hle, hlt⟩)
    rw [ht]
    exact False.elim ∘ (Option.some_ne_none p).symm
  case leaves =>
    rintro p ⟨hseq, hlt, hrest⟩
    have hslot : q.slot p ≠ q.slot pos := by
      intro hslot
      change Function.update q.seq (q.slot pos) (pos + q.size) (q.slot p) = p + 1 at hseq
      rw [hslot, Function.update_self] at hseq
      have := hq.gap hslot.symm (by omega)
      omega
    apply goTo_owner Thread.leaving (hq.leaves p ⟨(hsame hslot).symm.trans hseq, hlt, hrest⟩)
    rw [hleaving, Option.some_inj]
    rintro rfl
    exact (hslot rfl).elim
  case left =>
    intro e he
    rcases List.mem_append.mp he with hold | hlast
    · exact hq.left e hold
    · obtain rfl := List.mem_singleton.mp hlast
      exact hdata
  case once =>
    change ((q.left ++ [(pos, data)]).map (·.1)).Nodup
    rw [List.map_append, List.nodup_append]
    refine ⟨hq.once, List.nodup_singleton _, ?_⟩
    rintro a ha b hb rfl
    obtain rfl := List.mem_singleton.mp hb
    exact hnew ha
  case taken =>
    intro p
    change p ∈ (q.left ++ [(pos, data)]).map (·.1) ↔ p < q.head ∧ _
    rw [List.map_append, List.mem_append, hq.taken, List.map_singleton, List.mem_singleton]
    by_cases hp : p = pos
    · subst hp
      refine iff_of_true (Or.inr rfl) ⟨hown.2.1, fun u => ?_⟩
      by_cases hu : u = t
      · rw [hu, goTo_thread_self]
        exact (Option.some_ne_none p).symm
      · rw [goTo_thread_of_ne _ hu]
        intro hup
        exact hu (hq.oneLeaving u t _ hup hleaving)
    · rw [forall_leaving_goTo]
      · exact or_iff_left hp
      · change none = some p ↔ (q.thread t).leaving = some p
        rw [hleaving, Option.some_inj]
        exact iff_of_false (Option.some_ne_none p).symm fun h => hp h.symm

theorem Invariant.advance {q : MPMCQueue τ α} (hq : q.Invariant) (t : τ) (spurious : Bool) :
    (q.advance t spurious).Invariant := by
  have hknows := hq.threads t
  cases ht : q.thread t with
  | idle =>
      simp only [MPMCQueue.advance, ht]
      exact hq
  | enqueue data =>
      simp only [MPMCQueue.advance, ht]
      exact hq.goTo (Nat.le_refl q.tail) (by rw [ht]; rfl) (by rw [ht]; rfl)
  | enqueueAt data pos =>
      rw [ht] at hknows
      simp only [MPMCQueue.advance, ht]
      split
      case isTrue hseq =>
        exact hq.goTo ⟨hknows, Nat.le_of_eq hseq.symm⟩ (by rw [ht]; rfl) (by rw [ht]; rfl)
      case isFalse =>
        split
        · exact hq.goTo trivial (by rw [ht]; rfl) (by rw [ht]; rfl)
        · exact hq.goTo trivial (by rw [ht]; rfl) (by rw [ht]; rfl)
  | enqueueClaim data pos =>
      simp only [MPMCQueue.advance, ht]
      split
      case isTrue hclaim =>
        obtain ⟨rfl, -⟩ := hclaim
        exact hq.claimEnqueue ht
      case isFalse => exact hq.goTo (Nat.le_refl q.tail) (by rw [ht]; rfl) (by rw [ht]; rfl)
  | enqueueStore data pos =>
      simp only [MPMCQueue.advance, ht]
      exact hq.store ht
  | enqueuePublish pos =>
      simp only [MPMCQueue.advance, ht]
      exact hq.publish ht
  | dequeue =>
      simp only [MPMCQueue.advance, ht]
      exact hq.goTo (Nat.le_refl q.head) (by rw [ht]; rfl) (by rw [ht]; rfl)
  | dequeueAt pos =>
      rw [ht] at hknows
      simp only [MPMCQueue.advance, ht]
      split
      case isTrue hseq =>
        exact hq.goTo ⟨hknows, Nat.le_of_eq hseq.symm⟩ (by rw [ht]; rfl) (by rw [ht]; rfl)
      case isFalse =>
        split
        · exact hq.goTo trivial (by rw [ht]; rfl) (by rw [ht]; rfl)
        · exact hq.goTo trivial (by rw [ht]; rfl) (by rw [ht]; rfl)
  | dequeueClaim pos =>
      simp only [MPMCQueue.advance, ht]
      split
      case isTrue hclaim =>
        obtain ⟨rfl, -⟩ := hclaim
        exact hq.claimDequeue ht
      case isFalse => exact hq.goTo (Nat.le_refl q.head) (by rw [ht]; rfl) (by rw [ht]; rfl)
  | dequeueLoad pos =>
      rw [ht] at hknows
      simp only [MPMCQueue.advance, ht]
      exact hq.goTo ⟨hknows, hknows.2.2.2⟩ (by rw [ht]; rfl) (by rw [ht]; rfl)
  | dequeueRelease pos data =>
      simp only [MPMCQueue.advance, ht]
      exact hq.release ht

theorem Reachable.invariant {size : Nat} (hsize : size ≤ 2 ^ 63) {q : MPMCQueue τ α}
    (hq : Reachable size q) : q.Invariant := by
  induction hq with
  | refl => exact new_invariant hsize
  | tail _ hstep ih =>
      cases hstep with
      | enqueue data ht => exact ih.goTo trivial (by rw [ht]; rfl) (by rw [ht]; rfl)
      | dequeue ht => exact ih.goTo trivial (by rw [ht]; rfl) (by rw [ht]; rfl)
      | advance t spurious => exact ih.advance t spurious

/-- A thread takes 7 out while another is about to write 8 next to it. -/
theorem reachable_both : ∃ q : MPMCQueue Bool Nat, Reachable 2 q ∧
    q.thread true = .dequeueLoad 0 ∧ q.thread false = .enqueueStore 8 1 ∧
      q.entered = [7, 8] ∧ q.head = 1 ∧ q.tail = 2 ∧ q.size = 2 ∧ q.seq 0 = 1 := by
  have hentered : Reachable 2 (_ : MPMCQueue Bool Nat) :=
    (((((Relation.ReflTransGen.refl.tail (.enqueue (t := false) 7 rfl)).tail
      (.advance false false)).tail (.advance false false)).tail (.advance false false)).tail
        (.advance false false)).tail (.advance false false)
  have htaken := (((hentered.tail (.dequeue (t := true) rfl)).tail (.advance true false)).tail
    (.advance true false)).tail (.advance true false)
  have hclaimed := (((htaken.tail (.enqueue (t := false) 8 rfl)).tail (.advance false false)).tail
    (.advance false false)).tail (.advance false false)
  exact ⟨_, hclaimed, rfl, rfl, rfl, rfl, rfl, rfl, rfl⟩

/-- Whatever the threads do and in whatever order, each value that went in has
one place: one thread is putting it there, or it waits there, or one thread is
taking it, or it came out, once and as it went in. The values come out by their
places, of which no more than there are slots wait or are being filled, and no
counter goes beyond the number of values and slots. -/
theorem nothing_lost {size : Nat} (hsize : size ≤ 2 ^ 63) {q : MPMCQueue τ α}
    (hq : Reachable size q) :
    (q.left.map (·.1)).Nodup ∧ (∀ e ∈ q.left, e.1 < q.head ∧ e.2 = q.entered[e.1]?) ∧
      (∀ p < q.head, Xor (p ∈ q.left.map (·.1)) (∃! t, (q.thread t).leaving = some p)) ∧
        (∀ p, q.head ≤ p → p < q.entered.length →
          Xor (q.Filled p) (∃! t, (q.thread t).entering = some p)) ∧
          q.head ≤ q.entered.length ∧ q.entered.length ≤ q.head + q.size ∧
            q.tail = q.entered.length ∧ ∀ i < q.size, q.seq i ≤ q.entered.length + q.size := by
  have hinv := hq.invariant hsize
  refine ⟨hinv.once, ?_, ?_, ?_, ?_, ?_, hinv.entered.symm, fun i hi => hinv.seq_le hi⟩
  · intro e he
    exact ⟨((hinv.taken e.1).mp (List.mem_map_of_mem he)).1, hinv.left e he⟩
  · intro p hp
    by_cases hleft : p ∈ q.left.map (·.1)
    · refine Or.inl ⟨hleft, ?_⟩
      rintro ⟨t, ht, -⟩
      exact ((hinv.taken p).mp hleft).2 t ht
    · have hsome : ∃ t, (q.thread t).leaving = some p := by
        by_contra hnone
        exact hleft ((hinv.taken p).mpr ⟨hp, fun t ht => hnone ⟨t, ht⟩⟩)
      obtain ⟨t, ht⟩ := hsome
      exact Or.inr ⟨⟨t, ht, fun u hu => hinv.oneLeaving u t p hu ht⟩, hleft⟩
  · intro p hle hlt
    rw [hinv.entered] at hlt
    rcases hinv.filled_or_entering hle hlt with hfilled | hentering
    · refine Or.inl ⟨hfilled, ?_⟩
      rintro ⟨t, ht, -⟩
      have := (hinv.entering_spec ht).1
      rw [hfilled.1] at this
      omega
    · obtain ⟨t, ht⟩ := hinv.enters p hentering
      refine Or.inr ⟨⟨t, ht, fun u hu => hinv.oneEntering u t p hu ht⟩, ?_⟩
      intro hfilled
      have := hfilled.1
      rw [hentering.1] at this
      omega
  · rw [hinv.entered]
    exact hinv.head_le
  · rw [hinv.entered]
    exact hinv.tail_le

theorem nothing_lost_both : ∃ q : MPMCQueue Bool Nat, q.entered = [7, 8] ∧
    Xor (0 ∈ q.left.map (·.1)) (∃! t, (q.thread t).leaving = some 0) ∧
      Xor (q.Filled 1) (∃! t, (q.thread t).entering = some 1) := by
  obtain ⟨q, hq, -, -, hentered, hhead, -⟩ := reachable_both
  obtain ⟨-, -, hout, hin, -⟩ := nothing_lost (by decide) hq
  exact ⟨q, hentered, hout 0 (by omega), hin 1 (by omega) (by rw [hentered]; decide)⟩

/-- No thread touches the data of a slot that another is writing. -/
theorem no_race {size : Nat} (hsize : size ≤ 2 ^ 63) {q : MPMCQueue τ α}
    (hq : Reachable size q) {t u : τ} (htu : t ≠ u) {data : α} {p r : Nat}
    (ht : q.thread t = .enqueueStore data p)
    (hu : (∃ other, q.thread u = .enqueueStore other r) ∨ q.thread u = .dequeueLoad r) :
    q.slot p ≠ q.slot r := by
  have hinv := hq.invariant hsize
  have hentering : (q.thread t).entering = some p := by
    rw [ht]
    rfl
  have hp := hinv.entering_spec hentering
  intro hslot
  rcases hu with ⟨other, hu⟩ | hu
  · have hother : (q.thread u).entering = some r := by
      rw [hu]
      rfl
    have heq : r = p := by
      rw [← (hinv.entering_spec hother).1, ← hslot, hp.1]
    rw [heq] at hother
    exact htu (hinv.oneEntering t u p hentering hother)
  · have hleaving : (q.thread u).leaving = some r := by
      rw [hu]
      rfl
    have hr := (hinv.leaving_spec hleaving).1
    rw [← hslot, hp.1] at hr
    exact hinv.slot_succ hr hslot.symm

theorem no_race_both : ∃ q : MPMCQueue Bool Nat, q.thread true = .dequeueLoad 0 ∧
    q.thread false = .enqueueStore 8 1 ∧ q.slot 1 ≠ q.slot 0 := by
  obtain ⟨q, hq, htrue, hfalse, -⟩ := reachable_both
  exact ⟨q, htrue, hfalse, no_race (by decide) hq Bool.false_ne_true hfalse (Or.inr htrue)⟩

/-- `enqueue` gives up only when there is no slot for the next place: as many
values as there are slots wait, or the last of them is still being taken out. -/
theorem enqueue_gives_up {size : Nat} (hsize : size ≤ 2 ^ 63) {q : MPMCQueue τ α}
    (hq : Reachable size q) {t : τ} {data : α} {pos : Nat}
    (ht : q.thread t = .enqueueAt data pos) (hseq : q.seq (q.slot pos) < pos) :
    pos = q.tail ∧ (q.tail = q.head + q.size ∨
      ∃ u p, p + q.size = q.tail ∧ (q.thread u).leaving = some p) := by
  have hinv := hq.invariant hsize
  have hle : pos ≤ q.tail := by
    have hknows := hinv.threads t
    rwa [ht] at hknows
  have htail := hinv.tail_le
  obtain ⟨p, hslot, hphase⟩ := hinv.phases _ (hinv.slot_lt pos)
  rw [← hslot] at hseq
  rcases hphase with ⟨hown, hat, -⟩ | ⟨hown, hat, -⟩ | ⟨hown, hat, -⟩ | hleaving
  · omega
  · have := hinv.gap hslot (by omega)
    exact ⟨by omega, Or.inl (by omega)⟩
  · have := hinv.gap hslot (by omega)
    exact ⟨by omega, Or.inl (by omega)⟩
  · have hown := hleaving.1
    have hround := hleaving.2.2.1
    have := hinv.gap hslot (by omega)
    obtain ⟨u, hu⟩ := hinv.leaves p hleaving
    exact ⟨by omega, Or.inr ⟨u, p, by omega, hu⟩⟩

/-- The slot that 9 would take still has 7. -/
theorem enqueue_gives_up_full : ∃ q : MPMCQueue Unit Nat, q.thread () = .enqueueAt 9 2 ∧
    2 = q.tail ∧ (q.tail = q.head + q.size ∨
      ∃ u p, p + q.size = q.tail ∧ (q.thread u).leaving = some p) := by
  have hseven : Reachable 2 (_ : MPMCQueue Unit Nat) :=
    (((((Relation.ReflTransGen.refl.tail (.enqueue (t := ()) 7 rfl)).tail
      (.advance () false)).tail (.advance () false)).tail (.advance () false)).tail
        (.advance () false)).tail (.advance () false)
  have height := (((((hseven.tail (.enqueue (t := ()) 8 rfl)).tail (.advance () false)).tail
    (.advance () false)).tail (.advance () false)).tail (.advance () false)).tail
      (.advance () false)
  have hnine := (height.tail (.enqueue (t := ()) 9 rfl)).tail (.advance () false)
  exact ⟨_, rfl, @enqueue_gives_up _ _ _ _ (by decide) _ hnine () 9 2 rfl (by decide)⟩

/-- `dequeue` gives up only when nothing is there to be taken: nothing waits, or
the first value is still being put in. -/
theorem dequeue_gives_up {size : Nat} (hsize : size ≤ 2 ^ 63) {q : MPMCQueue τ α}
    (hq : Reachable size q) {t : τ} {pos : Nat}
    (ht : q.thread t = .dequeueAt pos) (hseq : q.seq (q.slot pos) < pos + 1) :
    pos = q.head ∧ (q.head = q.tail ∨ ∃ u, (q.thread u).entering = some q.head) :=
  (hq.invariant hsize).nothing_at_head ht hseq

theorem dequeue_gives_up_empty : ∃ q : MPMCQueue Unit Nat, q.thread () = .dequeueAt 0 ∧
    0 = q.head ∧ (q.head = q.tail ∨ ∃ u, (q.thread u).entering = some q.head) := by
  have hcalled : Reachable 2 (_ : MPMCQueue Unit Nat) :=
    (Relation.ReflTransGen.refl.tail (.dequeue (t := ()) rfl)).tail (.advance () false)
  exact ⟨_, rfl, @dequeue_gives_up _ _ _ _ (by decide) _ hcalled () 0 rfl (by decide)⟩

end MPMCQueue

end Img2Web.Driver
