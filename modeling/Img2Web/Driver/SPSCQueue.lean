import Mathlib.Data.List.Infix
import Mathlib.Logic.Function.Basic
import Mathlib.Logic.Relation
import Img2Web.Driver.Utils

/-!
The queue of an `IOWorker`: `SPSCQueue`, which the session alone puts requests
into and the worker's loop alone takes them out of, and the wake-ups of its
`AsyncQueue`. `on_execute` takes no more requests at once than it may flush; the
requests that are left wait until one that was taken is finished. A load and a
store are one step each. `entered` and `left` record what was published and what
was taken, and are read by nothing.
-/

namespace Img2Web.Driver

/-- Where the session is in `enqueue`. A null asks the worker to close. -/
inductive Producer (α : Type) where
  | idle
  | checking (data : Option α) (pos : Nat)
  | storing (data : Option α) (pos : Nat)
  | publishing (data : Option α) (pos : Nat)
  | sending

/-- Where the loop is in `on_execute`, which may still take `remaining`. -/
inductive Consumer (α : Type) where
  | waiting
  | loading (remaining : Nat)
  | checking (remaining pos : Nat)
  | taking (remaining pos : Nat)
  | releasing (remaining pos : Nat) (data : Option α)

/-- `outstanding` requests are taken and not finished. `pending` says that the
loop is to be woken. -/
structure SPSCQueue (α : Type) where
  size : Nat
  buffer : Nat → Option α
  tail : Nat
  head : Nat
  producer : Producer α
  consumer : Consumer α
  pending : Bool
  closing : Bool
  outstanding : Nat
  entered : List (Option α)
  left : List (Option α)

namespace SPSCQueue

variable {α : Type}

def new (size : Nat) : SPSCQueue α where
  size := nextPow2 size
  buffer := fun _ => none
  tail := 0
  head := 0
  producer := .idle
  consumer := .waiting
  pending := false
  closing := false
  outstanding := 0
  entered := []
  left := []

/-- `(pos + 1) & mask_`. -/
def nextPos (q : SPSCQueue α) (pos : Nat) : Nat := (pos + 1) &&& (q.size - 1)

/-- The next step of the session. -/
def produce (q : SPSCQueue α) : SPSCQueue α :=
  match q.producer with
  | .idle => q
  | .checking data pos =>
      if q.nextPos pos = q.head then {q with producer := .idle}
      else {q with producer := .storing data pos}
  | .storing data pos =>
      {q with buffer := Function.update q.buffer pos data, producer := .publishing data pos}
  | .publishing data pos =>
      {q with tail := q.nextPos pos, producer := .sending, entered := q.entered ++ [data]}
  | .sending => {q with pending := true, producer := .idle}

/-- What the loop does with what it took. -/
def take (q : SPSCQueue α) : Option α → SPSCQueue α
  | some _ => {q with outstanding := q.outstanding + 1}
  | none => {q with closing := true}

/-- The next step of the loop. -/
def consume (q : SPSCQueue α) : SPSCQueue α :=
  match q.consumer with
  | .waiting => q
  | .loading remaining =>
      if remaining = 0 then {q with consumer := .waiting}
      else {q with consumer := .checking remaining q.head}
  | .checking remaining pos =>
      if pos = q.tail then {q with consumer := .waiting}
      else {q with consumer := .taking remaining pos}
  | .taking remaining pos => {q with consumer := .releasing remaining pos (q.buffer pos)}
  | .releasing remaining pos data =>
      {q with
        head := q.nextPos pos
        consumer := .loading (remaining - 1)
        left := q.left ++ [data]}.take data

inductive Step (maxRequestsPerFlush : Nat) (q : SPSCQueue α) : SPSCQueue α → Prop where
  | enqueue (data : Option α) : q.producer = .idle →
      Step maxRequestsPerFlush q {q with producer := .checking data q.tail}
  | produce : Step maxRequestsPerFlush q q.produce
  | wake : q.pending = true → q.consumer = .waiting →
      Step maxRequestsPerFlush q
        {q with pending := false, consumer := .loading maxRequestsPerFlush}
  | consume : Step maxRequestsPerFlush q q.consume
  | requestFinished : 0 < q.outstanding →
      Step maxRequestsPerFlush q {q with outstanding := q.outstanding - 1, pending := true}

def Reachable (maxRequestsPerFlush size : Nat) : SPSCQueue α → Prop :=
  Relation.ReflTransGen (Step maxRequestsPerFlush) (new size)

/-- The session may store here: the slot is behind all that waits. -/
def Storable (q : SPSCQueue α) (pos : Nat) : Prop :=
  pos = q.tail ∧ q.entered.length + 1 < q.left.length + q.size

/-- The loop may take what is here. -/
def Takable (q : SPSCQueue α) (pos : Nat) : Prop :=
  pos = q.head ∧ q.left.length < q.entered.length

/-- What the session knows. -/
def Produces (q : SPSCQueue α) : Producer α → Prop
  | .idle | .sending => True
  | .checking _ pos => pos = q.tail
  | .storing _ pos => q.Storable pos
  | .publishing data pos => q.Storable pos ∧ q.buffer pos = data

/-- What the loop knows. -/
def Consumes (q : SPSCQueue α) : Consumer α → Prop
  | .waiting | .loading _ => True
  | .checking _ pos => pos = q.head
  | .taking _ pos => q.Takable pos
  | .releasing _ pos data => q.Takable pos ∧ q.entered[q.left.length]? = some data

/-- The worker will look into its queue again, or need not. -/
def Attended (maxRequestsPerFlush : Nat) (q : SPSCQueue α) : Consumer α → Prop
  | .waiting => q.left.length = q.entered.length ∨ q.producer = .sending ∨ 0 < q.outstanding
  | .loading remaining | .checking remaining _ | .taking remaining _ | .releasing remaining _ _ =>
      remaining < maxRequestsPerFlush → 0 < q.outstanding

structure Invariant (maxRequestsPerFlush : Nat) (q : SPSCQueue α) : Prop where
  size : ∃ k, q.size = 2 ^ k
  head : q.head = q.left.length % q.size
  tail : q.tail = q.entered.length % q.size
  taken : q.left <+: q.entered
  room : q.entered.length < q.left.length + q.size
  waits : ∀ p, q.left.length ≤ p → p < q.entered.length →
    q.entered[p]? = some (q.buffer (p % q.size))
  produces : q.Produces q.producer
  consumes : q.Consumes q.consumer
  attended : q.pending = false → q.closing = false → q.Attended maxRequestsPerFlush q.consumer

variable {maxRequestsPerFlush size : Nat} {q : SPSCQueue α}

theorem Invariant.nextPos_eq (h : q.Invariant maxRequestsPerFlush) (pos : Nat) :
    q.nextPos (pos % q.size) = (pos + 1) % q.size := by
  obtain ⟨k, hk⟩ := h.size
  rw [nextPos, hk, Nat.and_two_pow_sub_one_eq_mod, Nat.mod_add_mod]

theorem Invariant.left_le (h : q.Invariant maxRequestsPerFlush) :
    q.left.length ≤ q.entered.length := h.taken.length_le

/-- What the loop knows depends on its end of the queue; more may come in. -/
theorem Consumes.mono {q' : SPSCQueue α} {consumer : Consumer α} (h : q.Consumes consumer)
    (hhead : q'.head = q.head) (hentered : q.entered <+: q'.entered) (hleft : q'.left = q.left) :
    q'.Consumes consumer := by
  have htakable : ∀ pos, q.Takable pos → q'.Takable pos := by
    rintro pos ⟨hpos, hsome⟩
    refine ⟨hpos.trans hhead.symm, ?_⟩
    rw [hleft]
    exact hsome.trans_le hentered.length_le
  cases consumer with
  | waiting => trivial
  | loading => trivial
  | checking remaining pos => exact h.trans hhead.symm
  | taking remaining pos => exact htakable pos h
  | releasing remaining pos data =>
      refine ⟨htakable pos h.1, ?_⟩
      obtain ⟨later, hlater⟩ := hentered
      rw [hleft, ← hlater, List.getElem?_append_left h.1.2]
      exact h.2

/-- What the session knows depends on the other end, and on how much was taken
at least. -/
theorem Produces.congr {q' : SPSCQueue α} {producer : Producer α} (h : q.Produces producer)
    (htail : q'.tail = q.tail) (hsize : q'.size = q.size) (hbuffer : q'.buffer = q.buffer)
    (hentered : q'.entered = q.entered) (hleft : q.left.length ≤ q'.left.length) :
    q'.Produces producer := by
  have hstorable : ∀ pos, q.Storable pos → q'.Storable pos := by
    rintro pos ⟨hpos, hroom⟩
    refine ⟨hpos.trans htail.symm, ?_⟩
    rw [hentered, hsize]
    omega
  cases producer with
  | idle => trivial
  | sending => trivial
  | checking data pos => exact h.trans htail.symm
  | storing data pos => exact hstorable pos h
  | publishing data pos => exact ⟨hstorable pos h.1, (congrFun hbuffer pos).trans h.2⟩

/-- Unless it waits, the loop comes back as long as something is outstanding. -/
theorem Attended.mono {q' : SPSCQueue α} {consumer : Consumer α}
    (h : q.Attended maxRequestsPerFlush consumer)
    (hwaiting : q.Attended maxRequestsPerFlush .waiting → q'.Attended maxRequestsPerFlush .waiting)
    (houtstanding : 0 < q.outstanding → 0 < q'.outstanding) :
    q'.Attended maxRequestsPerFlush consumer := by
  cases consumer with
  | waiting => exact hwaiting h
  | _ => exact fun hless => houtstanding (h hless)

/-- Two places that are both within a round are one slot only if they are one. -/
theorem mod_inj {p r n : Nat} (hmod : p % n = r % n) (hp : p < r + n) (hr : r < p + n) : p = r := by
  rcases Nat.lt_trichotomy p r with hlt | heq | hlt
  · have hgap := mod_gap hmod hlt
    omega
  · exact heq
  · have hgap := mod_gap hmod.symm hlt
    omega

theorem new_invariant (hsize : size ≤ 2 ^ 63) :
    (new size : SPSCQueue α).Invariant maxRequestsPerFlush where
  size := (nextPow2_spec hsize).imp fun _ h => h.1
  head := (Nat.zero_mod _).symm
  tail := (Nat.zero_mod _).symm
  taken := List.prefix_rfl
  room := by
    have htwo := two_le_nextPow2 hsize
    change 0 < 0 + nextPow2 size
    omega
  waits _ _ hp := absurd hp (Nat.not_lt_zero _)
  produces := trivial
  consumes := trivial
  attended _ _ := Or.inl rfl

/-- What is neither in the buffer nor with the loop changes nothing there. -/
theorem Invariant.withProducer (producer : Producer α) (h : q.Invariant maxRequestsPerFlush)
    (hproducer : q.Produces producer)
    (hsending : q.producer = .sending → producer = .sending ∨ q.pending = true) :
    {q with producer := producer}.Invariant maxRequestsPerFlush where
  size := h.size
  head := h.head
  tail := h.tail
  taken := h.taken
  room := h.room
  waits := h.waits
  produces := Produces.congr hproducer rfl rfl rfl rfl (Nat.le_refl _)
  consumes := h.consumes.mono rfl List.prefix_rfl rfl
  attended hpending hclosing := by
    refine Attended.mono (h.attended hpending hclosing) (fun hwaiting => ?_) id
    refine hwaiting.imp_right fun hwaiting => hwaiting.imp_left fun hsend => ?_
    exact (hsending hsend).resolve_right (by rw [hpending]; exact Bool.false_ne_true)

/-- A step of the session that moves no index. -/
theorem Invariant.store {pos : Nat} {data : Option α} (h : q.Invariant maxRequestsPerFlush)
    (hproducer : q.producer = .storing data pos) :
    {q with
      buffer := Function.update q.buffer pos data
      producer := .publishing data pos}.Invariant maxRequestsPerFlush := by
  have hstorable : q.Storable pos := by
    have hproduces := h.produces
    rw [hproducer] at hproduces
    exact hproduces
  obtain ⟨htail, hroom⟩ := hstorable
  refine {
    h with
    waits := fun p hleft hentered => ?_
    produces := ⟨⟨htail, hroom⟩, Function.update_self ..⟩
    consumes := h.consumes.mono rfl List.prefix_rfl rfl
    attended := ?_ }
  · change q.left.length ≤ p at hleft
    change p < q.entered.length at hentered
    -- The slot is no whole round from any that waits.
    have hslot : p % q.size ≠ pos := by
      rw [htail, h.tail]
      intro heq
      have hp := mod_inj heq (by omega) (by omega)
      omega
    change q.entered[p]? = some (Function.update q.buffer pos data (p % q.size))
    rw [Function.update_of_ne hslot]
    exact h.waits p hleft hentered
  · intro hpending hclosing
    refine Attended.mono (h.attended hpending hclosing) (fun hwaiting => ?_) id
    refine hwaiting.imp_right fun hwaiting => hwaiting.imp_left fun hsend => ?_
    cases hproducer.symm.trans hsend

theorem Invariant.publish {pos : Nat} {data : Option α} (h : q.Invariant maxRequestsPerFlush)
    (hproducer : q.producer = .publishing data pos) :
    {q with
      tail := q.nextPos pos
      producer := .sending
      entered := q.entered ++ [data]}.Invariant maxRequestsPerFlush := by
  obtain ⟨⟨htail, hroom⟩, hbuffer⟩ : q.Produces (.publishing data pos) := hproducer ▸ h.produces
  have hleft_le := h.left_le
  refine {
    h with
    tail := ?_
    taken := h.taken.trans (List.prefix_append ..)
    room := ?_
    waits := fun p hleft hentered => ?_
    produces := trivial
    consumes := h.consumes.mono rfl (List.prefix_append ..) rfl
    attended := fun hpending hclosing =>
      (h.attended hpending hclosing).mono (fun _ => Or.inr (Or.inl rfl)) id }
  · change q.nextPos pos = (q.entered ++ [data]).length % q.size
    rw [htail, h.tail, h.nextPos_eq, List.length_append, List.length_singleton]
  · change (q.entered ++ [data]).length < q.left.length + q.size
    rw [List.length_append, List.length_singleton]
    exact hroom
  · change q.left.length ≤ p at hleft
    change p < (q.entered ++ [data]).length at hentered
    change (q.entered ++ [data])[p]? = some (q.buffer (p % q.size))
    rw [List.length_append, List.length_singleton] at hentered
    rcases Nat.lt_or_eq_of_le (Nat.le_of_lt_succ hentered) with hold | rfl
    · rw [List.getElem?_append_left hold]
      exact h.waits p hleft hold
    · rw [List.getElem?_concat_length, ← h.tail, ← htail, hbuffer]

theorem Invariant.produce (h : q.Invariant maxRequestsPerFlush) :
    q.produce.Invariant maxRequestsPerFlush := by
  rw [SPSCQueue.produce]
  cases hproducer : q.producer with
  | idle => exact h
  | checking data pos =>
      have hpos : pos = q.tail := by
        have hproduces := h.produces
        rw [hproducer] at hproduces
        exact hproduces
      dsimp only
      split
      case isTrue =>
        exact h.withProducer .idle trivial fun hsend => nomatch hproducer.symm.trans hsend
      case isFalse hfull =>
        refine h.withProducer (.storing data pos) ⟨hpos, ?_⟩
          fun hsend => nomatch hproducer.symm.trans hsend
        have hroom := h.room
        rw [hpos, h.tail, h.nextPos_eq, h.head] at hfull
        refine Nat.lt_of_le_of_ne hroom fun heq => hfull ?_
        rw [show q.entered.length + 1 = q.left.length + q.size from heq, Nat.add_mod_right]
  | storing data pos => exact h.store hproducer
  | publishing data pos => exact h.publish hproducer
  | sending =>
      exact {
        h with
        produces := trivial
        consumes := h.consumes.mono rfl List.prefix_rfl rfl
        attended := Bool.noConfusion }

theorem Invariant.withConsumer (consumer : Consumer α) (h : q.Invariant maxRequestsPerFlush)
    (hconsumes : q.Consumes consumer)
    (hattended : q.pending = false → q.closing = false →
      q.Attended maxRequestsPerFlush consumer) :
    {q with consumer := consumer}.Invariant maxRequestsPerFlush := by
  exact {
    h with
    produces := h.produces.congr rfl rfl rfl rfl (Nat.le_refl _)
    consumes := Consumes.mono hconsumes rfl List.prefix_rfl rfl
    attended := fun hpending hclosing => (hattended hpending hclosing).mono id id }

/-- The value at the head is taken out. -/
theorem Invariant.release {remaining pos : Nat} {data : Option α}
    (h : q.Invariant maxRequestsPerFlush) (hconsumer : q.consumer = .releasing remaining pos data) :
    ({q with
      head := q.nextPos pos
      consumer := .loading (remaining - 1)
      left := q.left ++ [data]}.take data).Invariant maxRequestsPerFlush := by
  obtain ⟨⟨hhead, hsome⟩, hdata⟩ : q.Consumes (.releasing remaining pos data) :=
    hconsumer ▸ h.consumes
  have hroom := h.room
  have hlength : (q.left ++ [data]).length = q.left.length + 1 := by
    rw [List.length_append, List.length_singleton]
  have hreleased : ∀ q' : SPSCQueue α, q'.size = q.size → q'.head = q.nextPos pos →
      q'.tail = q.tail → q'.left = q.left ++ [data] → q'.entered = q.entered →
      q'.buffer = q.buffer → q'.producer = q.producer → q'.consumer = .loading (remaining - 1) →
      (q'.closing = false → 0 < q'.outstanding) → q'.Invariant maxRequestsPerFlush := by
    rintro ⟨size, buffer, tail, head, producer, consumer, pending, closing, outstanding, entered,
      left⟩ hsize hhead' htail hleft hentered hbuffer hproducer hconsumer' houtstanding
    dsimp only at hsize hhead' htail hleft hentered hbuffer hproducer hconsumer' houtstanding
    subst hsize hhead' htail hleft hentered hbuffer hproducer hconsumer'
    refine {
      size := h.size
      head := ?_
      tail := h.tail
      taken := ?_
      room := ?_
      waits := fun p hleft hentered => ?_
      produces := h.produces.congr rfl rfl rfl rfl (hlength.symm ▸ Nat.le_succ _)
      consumes := trivial
      attended := fun _ hclosing _ => houtstanding hclosing }
    · change q.nextPos pos = (q.left ++ [data]).length % q.size
      rw [hhead, h.head, h.nextPos_eq, hlength]
    · change q.left ++ [data] <+: q.entered
      rw [List.prefix_iff_eq_take, hlength, List.take_add_one, hdata,
        ← List.prefix_iff_eq_take.mp h.taken]
      rfl
    · change q.entered.length < (q.left ++ [data]).length + q.size
      omega
    · change (q.left ++ [data]).length ≤ p at hleft
      exact h.waits p (by omega) hentered
  cases data with
  | some request => exact hreleased _ rfl rfl rfl rfl rfl rfl rfl rfl fun _ => Nat.succ_pos _
  | none => exact hreleased _ rfl rfl rfl rfl rfl rfl rfl rfl Bool.noConfusion

theorem Invariant.consume (hmax : 0 < maxRequestsPerFlush) (h : q.Invariant maxRequestsPerFlush) :
    q.consume.Invariant maxRequestsPerFlush := by
  have hconsumes := h.consumes
  have hattended := h.attended
  rw [SPSCQueue.consume]
  cases hconsumer : q.consumer with
  | waiting => exact h
  | loading remaining =>
      rw [hconsumer] at hattended
      dsimp only
      split
      case isTrue hnone =>
        refine h.withConsumer .waiting trivial fun hpending hclosing => Or.inr (Or.inr ?_)
        exact hattended hpending hclosing (hnone ▸ hmax)
      case isFalse => exact h.withConsumer (.checking remaining q.head) rfl hattended
  | checking remaining pos =>
      rw [hconsumer] at hconsumes hattended
      have hpos : pos = q.head := hconsumes
      have hleft_le := h.left_le
      have hroom := h.room
      dsimp only
      split
      case isTrue hempty =>
        refine h.withConsumer .waiting trivial fun _ _ => Or.inl ?_
        rw [hpos, h.head, h.tail] at hempty
        exact mod_inj hempty (by omega) (by omega)
      case isFalse hsome =>
        refine h.withConsumer (.taking remaining pos) ⟨hpos, ?_⟩ hattended
        refine Nat.lt_of_le_of_ne hleft_le fun heq => hsome ?_
        rw [hpos, h.head, h.tail, heq]
  | taking remaining pos =>
      rw [hconsumer] at hconsumes hattended
      obtain ⟨hhead, hsome⟩ := hconsumes
      refine h.withConsumer (.releasing remaining pos (q.buffer pos)) ⟨⟨hhead, hsome⟩, ?_⟩ hattended
      rw [h.waits _ (Nat.le_refl _) hsome, hhead, h.head]
  | releasing remaining pos data => exact h.release hconsumer

theorem Invariant.wake (h : q.Invariant maxRequestsPerFlush) :
    {q with pending := false, consumer := .loading maxRequestsPerFlush}.Invariant
      maxRequestsPerFlush :=
  {h with
    produces := h.produces.congr rfl rfl rfl rfl (Nat.le_refl _)
    consumes := trivial
    attended := fun _ _ hless => absurd hless (Nat.lt_irrefl _)}

theorem Invariant.requestFinished (h : q.Invariant maxRequestsPerFlush) :
    {q with outstanding := q.outstanding - 1, pending := true}.Invariant maxRequestsPerFlush :=
  {h with
    produces := h.produces.congr rfl rfl rfl rfl (Nat.le_refl _)
    consumes := h.consumes.mono rfl List.prefix_rfl rfl
    attended := Bool.noConfusion}

theorem Reachable.invariant (hsize : size ≤ 2 ^ 63) (hmax : 0 < maxRequestsPerFlush)
    (hq : Reachable maxRequestsPerFlush size q) : q.Invariant maxRequestsPerFlush := by
  induction hq with
  | refl => exact new_invariant hsize
  | tail _ hstep ih =>
      cases hstep with
      | enqueue data hidle =>
          exact ih.withProducer (.checking data _) rfl
            fun hsend => nomatch hidle.symm.trans hsend
      | produce => exact ih.produce
      | wake => exact ih.wake
      | consume => exact ih.consume hmax
      | requestFinished => exact ih.requestFinished

/-- The loop takes what the session put in, unchanged and in order. The session
never writes a slot that the loop reads, and no more waits than there is room
for. -/
theorem first_in_first_out (hsize : size ≤ 2 ^ 63) (hmax : 0 < maxRequestsPerFlush)
    (hq : Reachable maxRequestsPerFlush size q) :
    q.left <+: q.entered ∧ q.entered.length < q.left.length + q.size ∧
      ∀ remaining pos data pos', q.consumer = .taking remaining pos →
        q.producer = .storing data pos' → pos ≠ pos' := by
  have h := hq.invariant hsize hmax
  refine ⟨h.taken, h.room, fun remaining pos data pos' hconsumer hproducer heq => ?_⟩
  obtain ⟨hhead, hsome⟩ : q.Consumes (.taking remaining pos) := hconsumer ▸ h.consumes
  obtain ⟨htail, hroom⟩ : q.Produces (.storing data pos') := hproducer ▸ h.produces
  rw [hhead, htail, h.head, h.tail] at heq
  have hplaces := mod_inj heq (by omega) (by omega)
  omega

/-- The queue has room for one request: the second is refused until the first has
been taken. -/
theorem first_in_first_out_one : ∃ q : SPSCQueue Nat, q.entered = [some 7] ∧ q.left = [some 7] ∧
    (q.left <+: q.entered ∧ q.entered.length < q.left.length + q.size ∧
      ∀ remaining pos data pos', q.consumer = .taking remaining pos →
        q.producer = .storing data pos' → pos ≠ pos') := by
  have hput : Reachable 1 2 (_ : SPSCQueue Nat) :=
    ((((Relation.ReflTransGen.refl.tail (.enqueue (some 7) rfl)).tail .produce).tail
      .produce).tail .produce).tail .produce
  have hrefused := (hput.tail (.enqueue (some 8) rfl)).tail .produce
  have htaken := ((((hrefused.tail (.wake rfl rfl)).tail .consume).tail .consume).tail
    .consume).tail .consume
  exact ⟨_, rfl, rfl, first_in_first_out (by decide) (by decide) htaken⟩

/-- No request is left behind, although the loop stops after so many. When it
waits, is not to be woken and does not close, then the queue is empty, or the
session is about to wake it, or a request is outstanding, which wakes it when it
is finished. So when the session is done and all requests are finished, every
request has been taken. -/
theorem nothing_left_behind (hsize : size ≤ 2 ^ 63) (hmax : 0 < maxRequestsPerFlush)
    (hq : Reachable maxRequestsPerFlush size q) (hconsumer : q.consumer = .waiting)
    (hpending : q.pending = false) (hclosing : q.closing = false) :
    (q.left.length = q.entered.length ∨ q.producer = .sending ∨ 0 < q.outstanding) ∧
      (q.producer = .idle → q.outstanding = 0 → q.left = q.entered) := by
  have h := hq.invariant hsize hmax
  have hattended := h.attended hpending hclosing
  rw [hconsumer] at hattended
  refine ⟨hattended, fun hidle hnone => h.taken.eq_of_length ?_⟩
  rcases hattended with hempty | hsend | hsome
  · exact hempty
  · cases hidle.symm.trans hsend
  · omega

/-- The loop may take one request at once. The second is taken when the first has
been finished. -/
theorem nothing_left_behind_second : ∃ q : SPSCQueue Nat, q.entered = [some 7, some 8] ∧
    ((q.left.length = q.entered.length ∨ q.producer = .sending ∨ 0 < q.outstanding) ∧
      (q.producer = .idle → q.outstanding = 0 → q.left = q.entered)) := by
  have hput : Reachable 1 4 (_ : SPSCQueue Nat) :=
    (((((((((Relation.ReflTransGen.refl.tail (.enqueue (some 7) rfl)).tail .produce).tail
      .produce).tail .produce).tail .produce).tail (.enqueue (some 8) rfl)).tail .produce).tail
        .produce).tail .produce).tail .produce
  have hfirst := (((((hput.tail (.wake rfl rfl)).tail .consume).tail .consume).tail
    .consume).tail .consume).tail .consume
  have hsecond := ((((((hfirst.tail (.requestFinished (by decide))).tail (.wake rfl rfl)).tail
    .consume).tail .consume).tail .consume).tail .consume).tail .consume
  exact ⟨_, rfl, nothing_left_behind (by decide) (by decide) hsecond rfl rfl rfl⟩

end SPSCQueue

end Img2Web.Driver
