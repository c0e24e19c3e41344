import Img2Web.Driver.Request

/-!
What the application can rely on in every run of a request, whatever its hosts,
their pools and their servers do, three defects of the driver apart: its future
is set once, with a response of the host it names; the hosts of its plan are
tried in order; and it comes to an end.
-/

namespace Img2Web.Driver

namespace RequestKind

/-- A request whose statement the server may have to prepare once more. -/
def preparable : RequestKind → Bool
  | .execute _ | .batch => true
  | _ => false

end RequestKind

namespace Place

variable {η ρ : Type}

/-- The request is at its current host, or on its way there. -/
def hosted : Place η ρ → Bool
  | .queued | .retryOutstanding | .done | .dropped => false
  | _ => true

/-- Its write is outstanding, or it is not. -/
def Reports (outstanding : Bool) : Place η ρ → Prop
  | .queued | .assigned | .pending | .settingKeyspace _ | .written | .preparing =>
      outstanding = false
  | .retryOutstanding => outstanding = true
  | _ => True

/-- It was written to its current host. -/
def tried : Place η ρ → Bool
  | .written | .agreeing _ | .scheduled _ => true
  | _ => false

/-- How often its future was set. -/
def answers : Place η ρ → Nat
  | .done => 1
  | .agreeing agreement => agreement.failed.toNat
  | _ => 0

/-- How far a request is from its end, where it is now. -/
def weight : Place η ρ → Nat
  | .queued => 9
  | .assigned => 8
  | .retryOutstanding | .preparing => 7
  | .pending => 6
  | .settingKeyspace _ => 5
  | .written => 4
  | .scheduled _ => 3
  | .agreeing agreement => agreement.waiting
  | .done | .dropped => 0

/-- It will be written to the current host. -/
def untried : Place η ρ → Bool
  | .assigned | .pending | .settingKeyspace _ | .preparing | .retryOutstanding => true
  | _ => false

/-- The queries of an agreement that are out are those that are still awaited,
and a keyspace is set at the current host. -/
def Sound (strict : Bool) (currentHost : Option η) : Place η ρ → Prop
  | .settingKeyspace host => currentHost = some host
  | .agreeing agreement =>
      0 < agreement.waiting ∧ agreement.waiting ≤ 2 ∧
        (agreement.failed = false → agreement.remaining = agreement.waiting) ∧
          (strict = true → agreement.invalid = false)
  | .dropped => strict = false
  | _ => True

end Place

/-- Going through `hosts`, some were skipped and some were tried several times
in a row. Both lists have the newest first. -/
inductive Tried {η : Type} : List η → List η → Prop where
  | nil : Tried [] []
  | next (host : η) {hosts tries : List η} : Tried hosts tries → Tried (host :: hosts) tries
  | again {host : η} {hosts tries : List η} :
      Tried (host :: hosts) tries → Tried (host :: hosts) (host :: tries)

namespace RequestHandler

variable {η ρ : Type} {plan : List η} {strict : Bool} {r r' : RequestHandler η ρ}
  {attempt : η → Attempt}

/-- The hosts of the plan that were passed, and that the request was written
to; the last of them is the current one until the plan is exhausted. -/
def Passed (plan : List η) (r : RequestHandler η ρ) : Prop :=
  ∃ passed, plan = passed.reverse ++ r.plan ∧ Tried passed (r.tries.map (·.1)) ∧
    (r.currentHost = passed.head? ∨ r.currentHost = none ∧ r.plan = [])

/-- An outcome has the current host, and a response is from there. -/
def Names (r : RequestHandler η ρ) : FutureResult η ρ → Prop
  | .response host _ | .ignored host =>
      r.currentHost = some host ∧ r.tries.head?.map (·.1) = some host
  | .error host _ => r.currentHost = host

structure Invariant (kind : RequestKind) (plan : List η) (strict : Bool)
    (r : RequestHandler η ρ) : Prop where
  kind : r.kind = kind
  hosted : r.place.hosted = true → r.currentHost.isSome
  outcomes : r.outcomes.length = r.place.answers
  outstanding : r.place.Reports r.writeOutstanding
  passed : r.Passed plan
  tried : r.place.tried = true → r.tries.head?.map (·.1) = r.currentHost
  named : ∀ o ∈ r.outcomes, r.Names o
  sound : r.place.Sound strict r.currentHost

/-- What is left of the invariant while a request has no place. -/
structure Trying (kind : RequestKind) (plan : List η) (r : RequestHandler η ρ) : Prop where
  kind : r.kind = kind
  outcomes : r.outcomes = []
  passed : r.Passed plan

theorem Passed.nextHost (h : r.Passed plan) : r.nextHost.Passed plan := by
  obtain ⟨passed, hplan, htried, hcurrent⟩ := h
  unfold RequestHandler.nextHost
  split
  case h_1 hnil => exact ⟨passed, hplan, htried, Or.inr ⟨rfl, hnil⟩⟩
  case h_2 host rest hcons =>
    refine ⟨host :: passed, ?_, htried.next host, Or.inl rfl⟩
    rw [hplan, hcons, List.reverse_cons, List.append_assoc]
    rfl

theorem Passed.again {host : η} (h : r.Passed plan) (hcurrent : r.currentHost = some host)
    {tries : List (η × Nat)} (htries : tries = (host, r.consistency) :: r.tries) :
    {r with place := .written, tries := tries}.Passed plan := by
  obtain ⟨passed, hplan, htried, hlast⟩ := h
  rw [hcurrent] at hlast
  rcases hlast with hlast | ⟨hnone, -⟩
  · obtain ⟨before, rfl⟩ := List.head?_eq_some_iff.mp hlast.symm
    subst htries
    exact ⟨host :: before, hplan, htried.again, Or.inl hcurrent⟩
  · cases hnone

theorem Trying.nextHost {kind : RequestKind} (h : r.Trying kind plan) :
    r.nextHost.Trying kind plan := by
  have hpassed := h.passed.nextHost
  unfold RequestHandler.nextHost at hpassed ⊢
  split at hpassed
  · exact ⟨h.kind, h.outcomes, hpassed⟩
  · exact ⟨h.kind, h.outcomes, hpassed⟩

/-- Where the request was does not matter to where it goes. -/
theorem firstHost_moved (go : RequestHandler η ρ → η → Option (RequestHandler η ρ))
    (r : RequestHandler η ρ) (currentHost : Option η) (plan hosts : List η) :
    {r with currentHost := currentHost, plan := plan}.firstHost go hosts =
      r.firstHost go hosts := by
  induction hosts with
  | nil => rfl
  | cons host rest ih => rw [firstHost, firstHost, ih]

/-- A loop over the hosts, by what holds before each of them. -/
theorem firstHost_rule {I J : RequestHandler η ρ → Prop}
    {go : RequestHandler η ρ → η → Option (RequestHandler η ρ)}
    (hmove : ∀ r, I r → I r.nextHost)
    (hgo : ∀ r r' host, I r → r.currentHost = some host → go r host = some r' → J r')
    (hnone : ∀ r, I r → r.currentHost = none → J (r.setError .noHostsAvailable))
    (hr : I r) : J (r.firstHost go r.plan) := by
  generalize hhosts : r.plan = hosts
  induction hosts generalizing r with
  | nil =>
      have hnext := hmove r hr
      rw [RequestHandler.nextHost, hhosts] at hnext
      exact hnone _ hnext rfl
  | cons host rest ih =>
      have hnext := hmove r hr
      rw [RequestHandler.nextHost, hhosts] at hnext
      rw [firstHost]
      split
      case h_1 r' hsome => exact hgo _ r' host hnext rfl hsome
      case h_2 =>
        rw [← firstHost_moved go r (some host) rest]
        exact ih hnext rfl

/-- What `IOWorker::retry` comes to, by what holds at each host. -/
theorem workerRetry_rule {I J : RequestHandler η ρ → Prop}
    (hmove : ∀ r, I r → I r.nextHost)
    (hnone : ∀ r, I r → r.currentHost = none → J (r.setError .noHostsAvailable))
    (hpending : ∀ r host, I r → r.currentHost = some host → J {r with place := .pending})
    (hwrite : ∀ r r' host written, I r → r.currentHost = some host →
      r.write host written = some r' → J r')
    (hr : I r) : J (r.workerRetry attempt) := by
  have hgo : ∀ (r r' : RequestHandler η ρ) (host : η), I r → r.currentHost = some host →
      tryHost attempt r host = some r' → J r' := by
    intro r r' host hr hcurrent hsome
    unfold tryHost at hsome
    split at hsome
    · cases hsome
    · obtain rfl := Option.some.inj hsome
      exact hpending r host hr hcurrent
    · exact hwrite r r' host _ hr hcurrent hsome
  unfold workerRetry
  split
  case h_1 hcurrent => exact hnone r hr hcurrent
  case h_2 host hcurrent =>
    have hself : {r with currentHost := some host, plan := r.plan} = r := by
      rw [← hcurrent]
    rw [firstHost, hself]
    split
    case h_1 r' hsome => exact hgo r r' host hr hcurrent hsome
    case h_2 => exact firstHost_rule hmove hgo hnone hr

/-- What `Pool::write` makes of a request, unless it refuses it. -/
theorem write_cases {host : η} {written : Written} (h : r.write host written = some r') :
    written = .keyspace ∧ r' = {r with place := .settingKeyspace host} ∨
      r' = {r with place := .written, tries := (host, r.consistency) :: r.tries} ∨
        ∃ error : RequestEncodeError, r' = r.setError error.code := by
  cases written with
  | refused => cases h
  | keyspace => exact Or.inl ⟨rfl, (Option.some.inj h).symm⟩
  | taken => exact Or.inr (Or.inl (Option.some.inj h).symm)
  | unencodable error => exact Or.inr (Or.inr ⟨error, (Option.some.inj h).symm⟩)

section

variable {kind : RequestKind}

/-- A future that was not set is set now. -/
theorem Trying.finish {outcome : FutureResult η ρ} (h : r.Trying kind plan)
    (hnames : r.Names outcome) : (r.finish outcome).Invariant kind plan strict where
  kind := h.kind
  hosted := Bool.noConfusion
  outcomes := by
    change r.outcomes.length + 1 = 1
    rw [h.outcomes]
    rfl
  outstanding := trivial
  passed := h.passed
  tried := Bool.noConfusion
  named := by
    intro o ho
    have : o ∈ outcome :: r.outcomes := ho
    rw [h.outcomes, List.mem_singleton] at this
    subst this
    cases o <;> exact hnames
  sound := trivial

theorem Trying.finishAtHost {outcome : η → FutureResult η ρ} (h : r.Trying kind plan)
    (hcurrent : r.currentHost.isSome)
    (hnames : ∀ host, r.currentHost = some host → r.Names (outcome host)) :
    ∃ r', r.finishAtHost outcome = some r' ∧ r'.Invariant kind plan strict := by
  obtain ⟨host, hhost⟩ := Option.isSome_iff_exists.mp hcurrent
  refine ⟨r.finish (outcome host), ?_, h.finish (hnames host hhost)⟩
  rw [RequestHandler.finishAtHost, hhost]
  rfl

/-- The request changes its place without more ado. -/
theorem Trying.move {place : Place η ρ} (h : r.Trying kind plan)
    (hhosted : place.hosted = true → r.currentHost.isSome) (hanswers : place.answers = 0)
    (hout : place.Reports r.writeOutstanding)
    (htried : place.tried = true → r.tries.head?.map (·.1) = r.currentHost)
    (hsound : place.Sound strict r.currentHost) :
    {r with place := place}.Invariant kind plan strict where
  kind := h.kind
  hosted := hhosted
  outcomes := by
    change r.outcomes.length = place.answers
    rw [h.outcomes, hanswers, List.length_nil]
  outstanding := hout
  passed := h.passed
  tried := htried
  named := by
    intro o ho
    change o ∈ r.outcomes at ho
    rw [h.outcomes] at ho
    cases ho
  sound := hsound

theorem Trying.write {host : η} {written : Written} (h : r.Trying kind plan)
    (hout : r.writeOutstanding = false) (hcurrent : r.currentHost = some host)
    (hwrite : r.write host written = some r') : r'.Invariant kind plan strict := by
  have hsome : r.currentHost.isSome := Option.isSome_iff_exists.mpr ⟨host, hcurrent⟩
  have hempty : r.outcomes.length = 0 := by rw [h.outcomes, List.length_nil]
  have hnone : ∀ o, o ∉ r.outcomes := by
    rw [h.outcomes]
    exact fun _ => List.not_mem_nil
  rcases write_cases hwrite with ⟨-, rfl⟩ | rfl | ⟨error, rfl⟩
  · exact h.move (fun _ => hsome) rfl hout Bool.noConfusion hcurrent
  · exact ⟨h.kind, fun _ => hsome, hempty, hout, h.passed.again hcurrent rfl,
      fun _ => hcurrent.symm, fun o ho => (hnone o ho).elim, trivial⟩
  · exact h.finish rfl

theorem Trying.workerRetry (h : r.Trying kind plan) (hout : r.writeOutstanding = false) :
    (r.workerRetry attempt).Invariant kind plan strict := by
  refine workerRetry_rule (I := fun r => r.Trying kind plan ∧ r.writeOutstanding = false)
    ?move ?none ?pending ?write ⟨h, hout⟩
  case move =>
    intro r hr
    refine ⟨hr.1.nextHost, ?_⟩
    unfold RequestHandler.nextHost
    split
    · exact hr.2
    · exact hr.2
  case none => exact fun r hr _ => hr.1.finish rfl
  case pending =>
    intro r host hr hcurrent
    exact hr.1.move (fun _ => Option.isSome_iff_exists.mpr ⟨host, hcurrent⟩) rfl
      hr.2 Bool.noConfusion trivial
  case write => exact fun r r' host written hr hcurrent => hr.1.write hr.2 hcurrent

theorem Trying.retry (h : r.Trying kind plan) (hout : r.writeOutstanding = false) :
    ∃ r', r.retry attempt = some r' ∧ r'.Invariant kind plan strict := by
  refine ⟨r.workerRetry attempt, ?_, h.workerRetry hout⟩
  rw [RequestHandler.retry, hout]
  rfl

theorem nextHost_outstanding : r.nextHost.writeOutstanding = r.writeOutstanding := by
  unfold RequestHandler.nextHost
  split
  · rfl
  · rfl

theorem Trying.retryNext (h : r.Trying kind plan) (hout : r.writeOutstanding = false) :
    ∃ r', r.retryNext attempt = some r' ∧ r'.Invariant kind plan strict :=
  h.nextHost.retry (nextHost_outstanding.trans hout)

theorem Invariant.trying (h : r.Invariant kind plan strict) (hanswers : r.place.answers = 0) :
    r.Trying kind plan where
  kind := h.kind
  outcomes := List.eq_nil_of_length_eq_zero (h.outcomes.trans hanswers)
  passed := h.passed

theorem new_invariant (kind : RequestKind) (retryPolicy : RetryPolicy) (plan : List η) :
    (new kind retryPolicy plan : RequestHandler η ρ).Invariant kind plan strict where
  kind := rfl
  hosted := Bool.noConfusion
  outcomes := rfl
  outstanding := rfl
  passed := ⟨[], rfl, .nil, Or.inl rfl⟩
  tried := Bool.noConfusion
  named := by
    intro o ho
    cases ho
  sound := trivial

theorem Invariant.counted {n : Nat} (h : r.Invariant kind plan strict) :
    {r with numRetries := n}.Invariant kind plan strict where
  kind := h.kind
  hosted := h.hosted
  outcomes := h.outcomes
  outstanding := h.outstanding
  passed := h.passed
  tried := h.tried
  named := by
    intro o ho
    have hnamed := h.named o ho
    cases o <;> exact hnamed
  sound := h.sound

/-- A request that was written to the host where it is. -/
structure AtHost (kind : RequestKind) (plan : List η) (r : RequestHandler η ρ) : Prop where
  trying : r.Trying kind plan
  current : r.currentHost.isSome
  tried : r.tries.head?.map (·.1) = r.currentHost

theorem AtHost.setResponse {body : ρ} (h : r.AtHost kind plan) :
    ∃ r', r.setResponse body = some r' ∧ r'.Invariant kind plan strict :=
  h.trying.finishAtHost h.current fun _ hhost => ⟨hhost, h.tried.trans hhost⟩

theorem AtHost.handleRetryDecision {code : Int} {decision : RetryDecision}
    (h : r.AtHost kind plan) :
    ∃ r', r.handleRetryDecision attempt code decision = some r' ∧
      r'.Invariant kind plan strict := by
  have hcounted : ∀ {x : Option (RequestHandler η ρ)},
      (∃ r', x = some r' ∧ r'.Invariant kind plan strict) →
        ∃ r', x.map (fun r => {r with numRetries := r.numRetries + 1}) = some r' ∧
          r'.Invariant kind plan strict := by
    rintro x ⟨r', rfl, hr'⟩
    exact ⟨_, rfl, hr'.counted⟩
  have hdecided : ∀ {s : RequestHandler η ρ}, s.Trying kind plan →
      ∃ r', (if s.writeOutstanding then some {s with place := .retryOutstanding}
        else s.retry attempt) = some r' ∧ r'.Invariant kind plan strict := by
    intro s hs
    split
    case isTrue hout => exact ⟨_, rfl, hs.move Bool.noConfusion rfl hout Bool.noConfusion trivial⟩
    case isFalse hout => exact hs.retry (Bool.eq_false_iff.mpr hout)
  apply hcounted
  cases decision with
  | returnError => exact h.trying.finishAtHost h.current fun _ hhost => hhost
  | retry consistency currentHost =>
      have hs : {r with consistency := consistency}.Trying kind plan :=
        ⟨h.trying.kind, h.trying.outcomes, h.trying.passed⟩
      cases currentHost with
      | true => exact hdecided hs
      | false => exact hdecided hs.nextHost
  | ignore => exact h.trying.finishAtHost h.current fun _ hhost => ⟨hhost, h.tried.trans hhost⟩

theorem AtHost.executeAgreement {body : ρ} (h : r.AtHost kind plan) :
    ∃ r', r.executeAgreement body (true, true) = some r' ∧ r'.Invariant kind plan strict := by
  have hagreeing : {r with
      place := Place.agreeing ⟨body, 2, 2, false, false⟩}.Invariant kind plan strict :=
    h.trying.move (fun _ => h.current) rfl trivial (fun _ => h.tried)
      ⟨Nat.zero_lt_two, Nat.le_refl 2, fun _ => rfl, fun _ => rfl⟩
  exact ⟨_, rfl, hagreeing⟩

theorem preparable_of_canPrepare {known : Bool} (h : r.canPrepare known = true) :
    r.kind.preparable = true := by
  unfold canPrepare at h
  split at h
  case h_1 hkind => rw [hkind, RequestKind.preparable]
  case h_2 hkind => rw [hkind, RequestKind.preparable]
  case h_3 => cases h

theorem AtHost.onErrorUnprepared {known accepted : Bool} (h : r.AtHost kind plan)
    (hout : kind.preparable = true → r.writeOutstanding = false) :
    ∃ r', r.onErrorUnprepared known accepted attempt = some r' ∧ r'.Invariant kind plan strict := by
  unfold RequestHandler.onErrorUnprepared
  split
  case isTrue hcan =>
    have hpreparable : kind.preparable = true := h.trying.kind ▸ preparable_of_canPrepare hcan
    split
    · exact ⟨_, rfl, h.trying.move (fun _ => h.current) rfl (hout hpreparable)
        Bool.noConfusion trivial⟩
    · exact h.trying.retry (hout hpreparable)
  case isFalse => exact ⟨_, rfl, h.trying.finish rfl⟩

end

/-- The ways in which the driver goes wrong are left out: a pool lends a
connection to another host, the server asks for a preparation before the socket
has reported the request as written, and a connection refuses a query of a
schema agreement. A strict run is also without unexpected responses to the
driver's own requests. -/
def Event.orderly (kind : RequestKind) (strict : Bool) : Event η ρ → Bool
  | .lent foreign _ _ => foreign.isNone
  | .set (.unprepared _) early _ _ => !(early && kind.preparable)
  | .set (.result .schemaChange _) _ accepted _ => accepted == (true, true)
  | .rescheduled accepted => accepted == (true, true)
  | .keyspace .unexpected _ _ | .prepare .unexpected _ | .query .unexpected _ => !strict
  | _ => true

section

variable {kind : RequestKind}

theorem AtHost.onSet {reply : ServerResponse ρ} {early : Bool} {accepted : Bool × Bool}
    (h : r.AtHost kind plan) (hearly : r.writeOutstanding = early)
    (horderly : Event.orderly kind strict (.set reply early accepted attempt) = true) :
    ∃ r', r.onSet accepted attempt reply = some r' ∧ r'.Invariant kind plan strict := by
  cases reply with
  | result resultKind body =>
      cases resultKind with
      | rows noMetadata =>
          simp only [RequestHandler.onSet, onResult]
          split
          · exact ⟨_, rfl, h.trying.finish rfl⟩
          · exact h.setResponse
      | schemaChange =>
          obtain rfl : accepted = (true, true) := eq_of_beq horderly
          exact h.executeAgreement
      | other => exact h.setResponse
  | unprepared known =>
      apply h.onErrorUnprepared
      intro hpreparable
      simp only [Event.orderly, hpreparable, Bool.and_true] at horderly
      rw [hearly]
      exact Bool.not_eq_true' early ▸ horderly
  | readTimeout => exact h.handleRetryDecision
  | writeTimeout => exact h.handleRetryDecision
  | unavailable => exact h.handleRetryDecision
  | error => exact ⟨_, rfl, h.trying.finish rfl⟩
  | unexpected => exact ⟨_, rfl, h.trying.finish rfl⟩

theorem AtHost.onAgreement {agreement : Agreement ρ} {agreed : Bool} (h : r.AtHost kind plan)
    (hvalid : strict = true → agreement.invalid = false) :
    ∃ r', r.onAgreement agreement agreed = some r' ∧ r'.Invariant kind plan strict := by
  unfold RequestHandler.onAgreement
  split
  case isTrue hinvalid =>
    have hloose : strict = false := by
      cases strict with
      | false => rfl
      | true => exact absurd hinvalid (Bool.eq_false_iff.mp (hvalid rfl))
    exact ⟨_, rfl, h.trying.move Bool.noConfusion rfl trivial Bool.noConfusion hloose⟩
  case isFalse =>
    split
    · exact h.setResponse
    · exact ⟨_, rfl, h.trying.move (fun _ => h.current) rfl trivial (fun _ => h.tried)
        trivial⟩

/-- Once the response was given away, the queries that are still out change
nothing. -/
theorem Invariant.settled {agreement : Agreement ρ} (h : r.Invariant kind plan strict)
    (houtcomes : r.outcomes.length = 1) (hcurrent : r.currentHost.isSome)
    (htried : r.tries.head?.map (·.1) = r.currentHost) (hfailed : agreement.failed = true)
    (hwaiting : agreement.waiting ≤ 2) (hvalid : strict = true → agreement.invalid = false) :
    {r with place := agreementPlace agreement}.Invariant kind plan strict := by
  have hnamed : ∀ o ∈ r.outcomes,
      {r with place := agreementPlace agreement}.Names o := by
    intro o ho
    have hnames := h.named o ho
    cases o <;> exact hnames
  unfold agreementPlace at hnamed ⊢
  split at hnamed
  case isTrue hzero =>
    rw [if_pos hzero]
    exact ⟨h.kind, Bool.noConfusion, houtcomes, trivial, h.passed, Bool.noConfusion,
      hnamed, trivial⟩
  case isFalse hpos =>
    rw [if_neg hpos]
    refine ⟨h.kind, fun _ => hcurrent, ?_, trivial, h.passed, fun _ => htried, hnamed,
      Nat.pos_of_ne_zero hpos, hwaiting, ?_, hvalid⟩
    · change r.outcomes.length = agreement.failed.toNat
      rw [hfailed, houtcomes]
      rfl
    · rw [hfailed]
      exact Bool.noConfusion

/-- An answer to a query is valid, unless the run is not a strict one. -/
theorem valid_or {agreement : Agreement ρ} {invalid : Bool}
    (hvalid : strict = true → agreement.invalid = false)
    (hinvalid : invalid = true → strict = false) :
    strict = true → (agreement.invalid || invalid) = false := by
  intro hstrict
  rw [hvalid hstrict, Bool.false_or]
  cases invalid with
  | false => rfl
  | true => exact absurd hstrict (Bool.eq_false_iff.mp (hinvalid rfl))

theorem AtHost.onQuery {agreement : Agreement ρ} {agreed : Bool} {callback : Callback}
    (h : r.AtHost kind plan) (hsound : (Place.agreeing agreement).Sound strict r.currentHost)
    (horderly : (.query callback agreed : Event η ρ).orderly kind strict = true)
    (hfailed : agreement.failed = false) :
    ∃ r', r.onQuery agreement agreed callback = some r' ∧ r'.Invariant kind plan strict := by
  obtain ⟨hpos, htwo, hremaining, hvalid⟩ := hsound
  have heq := hremaining hfailed
  have hresponse (invalid : Bool) (hinvalid : invalid = true → strict = false) :
      ∃ r', (if agreement.remaining - 1 = 0 ∧ agreement.failed = false then
        r.onAgreement ⟨agreement.body, agreement.remaining - 1, agreement.waiting - 1,
          agreement.invalid || invalid, agreement.failed⟩ agreed
      else some {r with place := agreementPlace ⟨agreement.body, agreement.remaining - 1,
        agreement.waiting - 1, agreement.invalid || invalid, agreement.failed⟩}) = some r' ∧
          r'.Invariant kind plan strict := by
    split
    case isTrue => exact h.onAgreement (valid_or hvalid hinvalid)
    case isFalse hmore =>
      have hne : agreement.waiting - 1 ≠ 0 := fun hzero => hmore ⟨by omega, hfailed⟩
      refine ⟨_, rfl, ?_⟩
      rw [agreementPlace, if_neg hne]
      refine h.trying.move (fun _ => h.current) ?_ trivial (fun _ => h.tried)
        ⟨Nat.pos_of_ne_zero hne, ?_, fun _ => ?_, valid_or hvalid hinvalid⟩
      · rw [Place.answers, hfailed]
        rfl
      · exact Nat.le_trans (Nat.sub_le _ 1) htwo
      · rw [heq]
  have herror : ∃ r', ((if agreement.failed then some r
      else r.setResponse agreement.body).map fun r =>
        {r with place := agreementPlace ⟨agreement.body, agreement.remaining,
          agreement.waiting - 1, agreement.invalid, true⟩}) = some r' ∧
            r'.Invariant kind plan strict := by
    obtain ⟨host, hhost⟩ := Option.isSome_iff_exists.mp h.current
    have hset : r.setResponse agreement.body = some (r.finish (.response host agreement.body)) := by
      rw [RequestHandler.setResponse, RequestHandler.finishAtHost, hhost]
      rfl
    have hdone : (r.finish (.response host agreement.body)).Invariant kind plan strict :=
      h.trying.finish ⟨hhost, h.tried.trans hhost⟩
    rw [hfailed, hset]
    exact ⟨_, rfl, hdone.settled hdone.outcomes h.current h.tried rfl
      (Nat.le_trans (Nat.sub_le _ 1) htwo) hvalid⟩
  cases callback with
  | answered => exact hresponse false Bool.noConfusion
  | unexpected => exact hresponse true fun _ => Bool.not_eq_true' strict ▸ horderly
  | failed => exact herror
  | timeout => exact herror

theorem Invariant.onQuery {agreement : Agreement ρ} {agreed : Bool} {callback : Callback}
    (h : r.Invariant kind plan strict) (hplace : r.place = .agreeing agreement)
    (horderly : (.query callback agreed : Event η ρ).orderly kind strict = true) :
    ∃ r', r.onQuery agreement agreed callback = some r' ∧ r'.Invariant kind plan strict := by
  have hcurrent := h.hosted (by rw [hplace]; rfl)
  have htried := h.tried (by rw [hplace]; rfl)
  have houtcomes := h.outcomes
  have hsound := h.sound
  rw [hplace] at houtcomes hsound
  cases hfailed : agreement.failed with
  | false =>
      have hanswers : r.place.answers = 0 := by
        rw [hplace, Place.answers, hfailed]
        rfl
      exact AtHost.onQuery ⟨h.trying hanswers, hcurrent, htried⟩ hsound horderly hfailed
  | true =>
      rw [Place.answers, hfailed] at houtcomes
      obtain ⟨-, htwo, -, hvalid⟩ := hsound
      have hwaiting : agreement.waiting - 1 ≤ 2 := Nat.le_trans (Nat.sub_le _ 1) htwo
      cases callback with
      | answered =>
          simp only [RequestHandler.onQuery, hfailed, Bool.true_eq_false, and_false, if_false]
          exact ⟨_, rfl, h.settled houtcomes hcurrent htried rfl hwaiting
            (valid_or hvalid Bool.noConfusion)⟩
      | unexpected =>
          simp only [RequestHandler.onQuery, hfailed, Bool.true_eq_false, and_false, if_false]
          exact ⟨_, rfl, h.settled houtcomes hcurrent htried rfl hwaiting
            (valid_or hvalid fun _ => Bool.not_eq_true' strict ▸ horderly)⟩
      | failed | timeout =>
          simp only [RequestHandler.onQuery, hfailed, if_true]
          exact ⟨_, rfl, h.settled houtcomes hcurrent htried rfl hwaiting hvalid⟩

theorem Trying.lent {host : η} {written : Written} {other : Option (RequestHandler η ρ)}
    (h : r.Trying kind plan) (hout : r.writeOutstanding = false)
    (hcurrent : r.currentHost = some host)
    (hother : ∃ r', other = some r' ∧ r'.Invariant kind plan strict) :
    ∃ r', (r.write host written).or other = some r' ∧ r'.Invariant kind plan strict := by
  cases hwrite : r.write host written with
  | none => exact hother
  | some r' => exact ⟨r', rfl, h.write hout hcurrent hwrite⟩

theorem Trying.onTimeout (h : r.Trying kind plan) (hcurrent : r.currentHost.isSome) :
    ∃ r', r.onTimeout = some r' ∧ r'.Invariant kind plan strict := by
  refine ⟨r.setError .requestTimedOut, ?_, h.finish rfl⟩
  rw [RequestHandler.onTimeout, Option.isNone_eq_false_iff.mpr hcurrent]
  rfl

theorem Trying.dispatch {available : η → Bool} (h : r.Trying kind plan)
    (hout : r.writeOutstanding = false) : (r.dispatch available).Invariant kind plan strict := by
  refine firstHost_rule (I := fun r => r.Trying kind plan ∧ r.writeOutstanding = false)
    ?move ?go ?none ⟨h, hout⟩
  case move => exact fun r hr => ⟨hr.1.nextHost, nextHost_outstanding.trans hr.2⟩
  case go =>
    intro r r' host hr hcurrent hgo
    split at hgo
    · obtain rfl := Option.some.inj hgo
      exact hr.1.move (fun _ => Option.isSome_iff_exists.mpr ⟨host, hcurrent⟩) rfl
        hr.2 Bool.noConfusion trivial
    · cases hgo
  case none => exact fun r hr _ => hr.1.finish rfl

theorem Invariant.reported (h : r.Invariant kind plan strict)
    (hplace : r.place ≠ .retryOutstanding) :
    {r with writeOutstanding := false}.Invariant kind plan strict where
  kind := h.kind
  hosted := h.hosted
  outcomes := h.outcomes
  outstanding := by
    cases hp : r.place with
    | retryOutstanding => exact absurd hp hplace
    | agreeing | scheduled | done | dropped => trivial
    | _ => rfl
  passed := h.passed
  tried := h.tried
  named := by
    intro o ho
    have hnames := h.named o ho
    cases o <;> exact hnames
  sound := h.sound

theorem Invariant.perform {e : Event η ρ} (h : r.Invariant kind plan strict) (he : r.Enabled e)
    (horderly : e.orderly kind strict = true) :
    ∃ r', r.perform e = some r' ∧ r'.Invariant kind plan strict := by
  have htrying : ∀ {place}, r.place = place → place.answers = 0 → r.Trying kind plan := by
    rintro place rfl hanswers
    exact h.trying hanswers
  have hout : ∀ {place}, r.place = place → place.Reports r.writeOutstanding := by
    rintro place rfl
    exact h.outstanding
  have hhosted : ∀ {place}, r.place = place → place.hosted = true → r.currentHost.isSome := by
    rintro place rfl hplace
    exact h.hosted hplace
  have hat : ∀ {place}, r.place = place → place.hosted = true → place.tried = true →
      place.answers = 0 → r.AtHost kind plan := by
    rintro place rfl hplace htried hanswers
    exact ⟨h.trying hanswers, h.hosted hplace, h.tried htried⟩
  cases e with
  | rejected connected => exact ⟨_, rfl, (htrying he rfl).finish rfl⟩
  | dispatched available => exact ⟨_, rfl, (htrying he rfl).dispatch (hout he)⟩
  | dequeued attempt => exact (htrying he rfl).retry (hout he)
  | lent foreign written attempt =>
      obtain rfl := Option.isNone_iff_eq_none.mp horderly
      obtain ⟨host, hhost⟩ := Option.isSome_iff_exists.mp (hhosted he rfl)
      simp only [RequestHandler.perform, Option.none_or, hhost, Option.bind_some]
      exact (htrying he rfl).lent (hout he) hhost ((htrying he rfl).retryNext (hout he))
  | withdrawn attempt => exact (htrying he rfl).retryNext (hout he)
  | keyspace callback written attempt =>
      obtain ⟨⟨host, hplace⟩, -⟩ := he
      have ht := htrying hplace rfl
      have ho := hout hplace
      have hhost := h.sound
      rw [hplace] at hhost
      simp only [RequestHandler.perform, hplace]
      cases callback with
      | answered => exact ht.lent ho hhost (ht.retry ho)
      | failed => exact ht.retryNext ho
      | timeout => exact ht.onTimeout (hhosted hplace rfl)
      | unexpected =>
          exact ⟨_, rfl, ht.move Bool.noConfusion rfl trivial Bool.noConfusion
            ((Bool.not_eq_true' strict).mp horderly)⟩
  | set reply early accepted attempt =>
      have hr := hat he rfl rfl rfl
      have hearly : {r with writeOutstanding := early}.AtHost kind plan :=
        ⟨⟨hr.trying.kind, hr.trying.outcomes, hr.trying.passed⟩, hr.current, hr.tried⟩
      simp only [RequestHandler.perform, Option.isNone_eq_false_iff.mpr hr.current]
      exact hearly.onSet rfl horderly
  | error attempt => exact (htrying he rfl).retryNext (hout he)
  | timeout => exact (htrying he rfl).onTimeout (hhosted he rfl)
  | reported attempt =>
      simp only [RequestHandler.perform]
      split
      case h_1 hplace =>
        have ht := htrying hplace rfl
        exact Trying.retry ⟨ht.kind, ht.outcomes, ht.passed⟩ rfl
      case h_2 hplace => exact ⟨_, rfl, h.reported hplace⟩
  | prepare callback attempt =>
      have ht := htrying he rfl
      have ho := hout he
      cases callback with
      | answered => exact ht.retry ho
      | failed => exact ht.retryNext ho
      | timeout => exact ht.retryNext ho
      | unexpected =>
          exact ⟨_, rfl, ht.move Bool.noConfusion rfl trivial Bool.noConfusion
            ((Bool.not_eq_true' strict).mp horderly)⟩
  | query callback agreed =>
      obtain ⟨agreement, hplace⟩ := he
      simp only [RequestHandler.perform, hplace]
      exact h.onQuery hplace horderly
  | rescheduled accepted =>
      obtain ⟨body, hplace⟩ := he
      obtain rfl : accepted = (true, true) := eq_of_beq horderly
      simp only [RequestHandler.perform, hplace]
      exact (hat hplace rfl rfl rfl).executeAgreement
  | closing =>
      obtain ⟨body, hplace⟩ := he
      simp only [RequestHandler.perform, hplace]
      exact (hat hplace rfl rfl rfl).setResponse

end

/-- A policy retries a request once. -/
def budget (r : RequestHandler η ρ) : Nat := if r.numRetries = 0 then 1 else 0

/-- An upper bound on the events that are left. -/
def remaining (r : RequestHandler η ρ) : Nat :=
  16 * (r.plan.length + r.budget) + r.place.weight + r.writeOutstanding.toNat

/-- How often the request was written, and will be at most. -/
def spent (r : RequestHandler η ρ) : Nat :=
  r.tries.length + r.plan.length + r.budget +
    if r.place.untried then r.currentHost.toList.length else 0

/-- The server asks for a preparation, for which the request is sent once more. -/
def Event.reprepares (kind : RequestKind) : Event η ρ → Bool
  | .set (.unprepared _) _ _ _ => kind.preparable
  | _ => false

/-- The request goes round again: after a preparation, after its connection took
the keyspace and no more, or because the schema is not agreed on. -/
def Event.repeats (kind : RequestKind) : Event η ρ → Bool
  | .set (.unprepared _) _ _ _ => kind.preparable
  | .keyspace .answered .refused _ => true
  | .query _ agreed => !agreed
  | _ => false

theorem remaining_le {p b : Nat} (hout : r.writeOutstanding = false) (hp : r.plan.length ≤ p)
    (hb : r.budget = b) (hweight : r.place.weight ≤ 6) : r.remaining ≤ 16 * (p + b) + 6 := by
  rw [remaining, hout, hb, Bool.toNat_false]
  omega

/-- What a request may cost that goes through `p` hosts more. -/
structure Bounded (r : RequestHandler η ρ) (p b t : Nat) : Prop where
  budget : r.budget = b
  remaining : r.remaining ≤ 16 * (p + b) + 6
  spent : r.spent ≤ t

theorem workerRetry_bounded (hout : r.writeOutstanding = false) :
    (r.workerRetry attempt).Bounded r.plan.length r.budget
      (r.tries.length + r.plan.length + r.budget + r.currentHost.toList.length) := by
  generalize hp : r.plan.length = p
  generalize hb : r.budget = b
  generalize ht : r.tries.length + p + b + r.currentHost.toList.length = t
  refine workerRetry_rule
    (I := fun r => r.writeOutstanding = false ∧ r.plan.length ≤ p ∧ r.budget = b ∧
      r.tries.length + r.plan.length + b + r.currentHost.toList.length ≤ t)
    (J := fun r => r.Bounded p b t)
    ?move ?none ?pending ?write ⟨hout, Nat.le_of_eq hp, hb, by omega⟩
  case move =>
    rintro r ⟨hout, hp, hb, ht⟩
    unfold nextHost
    split
    case h_1 hnil =>
      simp only [hnil, List.length_nil] at hp ht ⊢
      exact ⟨hout, hp, hb, by simp; omega⟩
    case h_2 host rest hcons =>
      simp only [hcons, List.length_cons] at hp ht
      exact ⟨hout, by simp; omega, hb, by simp; omega⟩
  case none =>
    rintro r ⟨hout, hp, rfl, ht⟩ -
    exact ⟨rfl, remaining_le hout hp rfl (Nat.zero_le 6), Nat.le_trans (Nat.le_add_right _ _) ht⟩
  case pending =>
    rintro r host ⟨hout, hp, rfl, ht⟩ -
    exact ⟨rfl, remaining_le hout hp rfl (Nat.le_refl 6), ht⟩
  case write =>
    rintro r r' host written ⟨hout, hp, rfl, ht⟩ hcurrent hwrite
    rcases write_cases hwrite with ⟨-, rfl⟩ | rfl | ⟨error, rfl⟩
    · exact ⟨rfl, remaining_le hout hp rfl (by decide : 5 ≤ 6), ht⟩
    · refine ⟨rfl, remaining_le hout hp rfl (by decide : 4 ≤ 6), ?_⟩
      rw [hcurrent, Option.toList_some, List.length_singleton] at ht
      change r.tries.length + 1 + r.plan.length + r.budget + 0 ≤ t
      omega
    · exact ⟨rfl, remaining_le hout hp rfl (Nat.zero_le 6),
        Nat.le_trans (Nat.le_add_right _ _) ht⟩

theorem retry_bounded (h : r.retry attempt = some r') :
    r'.Bounded r.plan.length r.budget
      (r.tries.length + r.plan.length + r.budget + r.currentHost.toList.length) := by
  unfold RequestHandler.retry at h
  split at h
  case isTrue => cases h
  case isFalse hout =>
    obtain rfl := Option.some.inj h
    exact workerRetry_bounded (Bool.eq_false_iff.mpr hout)

/-- The next host is taken from the plan, and when there is none the request is
at its end. -/
theorem retryNext_bounded (h : r.retryNext attempt = some r') :
    r'.budget = r.budget ∧ r'.remaining ≤ 16 * (r.plan.length + r.budget) ∧
      r'.spent ≤ r.tries.length + r.plan.length + r.budget := by
  unfold RequestHandler.retryNext at h
  cases hplan : r.plan with
  | nil =>
      have hnext : r.nextHost = {r with currentHost := none} := by
        rw [nextHost, hplan]
      rw [hnext] at h
      unfold RequestHandler.retry at h
      split at h
      case isTrue => cases h
      case isFalse hout =>
        obtain rfl := Option.some.inj h
        refine ⟨rfl, ?_, ?_⟩
        · change 16 * (r.plan.length + r.budget) + 0 + r.writeOutstanding.toNat ≤ _
          rw [hplan, Bool.eq_false_iff.mpr hout]
          exact Nat.le_refl _
        · change r.tries.length + r.plan.length + r.budget + 0 ≤ _
          rw [hplan]
          exact Nat.le_refl _
  | cons host rest =>
      have hnext : r.nextHost = {r with currentHost := some host, plan := rest} := by
        rw [nextHost, hplan]
      rw [hnext] at h
      obtain ⟨hbudget, hremaining, hspent⟩ := retry_bounded h
      change r'.remaining ≤ 16 * (rest.length + r.budget) + 6 at hremaining
      change r'.spent ≤ r.tries.length + rest.length + r.budget + 1 at hspent
      rw [List.length_cons]
      exact ⟨hbudget, by omega, by omega⟩

theorem nextHost_length :
    r.nextHost.plan.length + r.nextHost.currentHost.toList.length = r.plan.length ∧
      r.nextHost.budget = r.budget ∧ r.nextHost.tries = r.tries := by
  unfold nextHost
  split
  case h_1 hnil => exact ⟨by simp [hnil], rfl, rfl⟩
  case h_2 host rest hcons => exact ⟨by simp [hcons], rfl, rfl⟩

theorem counted_bounds {n : Nat} :
    {r with numRetries := n + 1}.remaining + 16 * r.budget = r.remaining ∧
      {r with numRetries := n + 1}.spent + r.budget = r.spent := by
  have hzero : {r with numRetries := n + 1}.budget = 0 := if_neg (Nat.succ_ne_zero n)
  constructor
  · rw [remaining, remaining, hzero]
    dsimp only
    omega
  · rw [spent, spent, hzero]
    dsimp only
    omega

theorem finishAtHost_bounds {outcome : η → FutureResult η ρ}
    (h : r.finishAtHost outcome = some r') :
    r'.budget = r.budget ∧
      r'.remaining = 16 * (r.plan.length + r.budget) + r.writeOutstanding.toNat ∧
        r'.spent = r.tries.length + r.plan.length + r.budget := by
  obtain ⟨host, -, rfl⟩ := Option.map_eq_some_iff.mp h
  exact ⟨rfl, rfl, rfl⟩

/-- The request waits for its own write, or it is retried at once. -/
theorem postponed_bounded
    (h : (if r.writeOutstanding then some {r with place := .retryOutstanding}
      else r.retry attempt) = some r') :
    r'.budget = r.budget ∧ r'.remaining ≤ 16 * (r.plan.length + r.budget) + 8 ∧
      r'.spent ≤ r.tries.length + r.plan.length + r.budget + r.currentHost.toList.length := by
  split at h
  · obtain rfl := Option.some.inj h
    refine ⟨rfl, ?_, Nat.le_refl _⟩
    change 16 * (r.plan.length + r.budget) + 7 + r.writeOutstanding.toNat ≤ _
    have := Bool.toNat_le r.writeOutstanding
    omega
  · obtain ⟨hbudget, hremaining, hspent⟩ := retry_bounded h
    exact ⟨hbudget, by omega, hspent⟩

/-- A decision to retry uses up the budget. -/
theorem handleRetryDecision_bounds {code : Int} {decision : RetryDecision}
    (h : r.handleRetryDecision attempt code decision = some r')
    (hpolicy : r.numRetries ≠ 0 → decision = .returnError) :
    r'.remaining ≤ 16 * (r.plan.length + r.budget) + 1 ∧
      r'.spent ≤ r.tries.length + r.plan.length + r.budget := by
  obtain ⟨x, hx, rfl⟩ := Option.map_eq_some_iff.mp h
  obtain ⟨hremaining, hspent⟩ := counted_bounds (r := x) (n := x.numRetries)
  have hbit := Bool.toNat_le r.writeOutstanding
  have hone (hne : decision ≠ .returnError) : r.budget = 1 :=
    if_pos (Classical.byContradiction fun hzero => hne (hpolicy hzero))
  cases decision with
  | returnError =>
      obtain ⟨hbudget, heq, hcost⟩ := finishAtHost_bounds hx
      exact ⟨by omega, by omega⟩
  | ignore =>
      obtain ⟨hbudget, heq, hcost⟩ := finishAtHost_bounds hx
      exact ⟨by omega, by omega⟩
  | retry consistency currentHost =>
      have hb := hone RetryDecision.noConfusion
      let s := {r with consistency := consistency}
      cases currentHost with
      | true =>
          have hcurrent : s.currentHost.toList.length ≤ 1 := by
            cases s.currentHost <;> simp
          obtain ⟨hbudget, hleft, hcost⟩ := postponed_bounded (r := s) hx
          change x.budget = r.budget at hbudget
          change x.remaining ≤ 16 * (r.plan.length + r.budget) + 8 at hleft
          change x.spent ≤ r.tries.length + r.plan.length + r.budget + _ at hcost
          exact ⟨by omega, by omega⟩
      | false =>
          obtain ⟨hlength, hsame, htries⟩ := nextHost_length (r := s)
          obtain ⟨hbudget, hleft, hcost⟩ := postponed_bounded (r := s.nextHost) hx
          change _ = r.plan.length at hlength
          change _ = r.budget at hsame
          change _ = r.tries at htries
          rw [hsame] at hbudget hleft hcost
          rw [htries] at hcost
          exact ⟨by omega, by omega⟩

theorem setError_bounds {code : RequestError} (h : some (r.setError code) = some r') :
    r'.remaining = 16 * (r.plan.length + r.budget) + r.writeOutstanding.toNat ∧
      r'.spent = r.tries.length + r.plan.length + r.budget := by
  obtain rfl := Option.some.inj h
  exact ⟨rfl, rfl⟩

theorem currentHost_length : r.currentHost.toList.length ≤ 1 := by
  cases r.currentHost <;> simp

theorem onErrorUnprepared_bounds {known accepted : Bool}
    (h : r.onErrorUnprepared known accepted attempt = some r') :
    r'.remaining ≤ 16 * (r.plan.length + r.budget) + 3 + 8 * r.kind.preparable.toNat ∧
      r'.spent ≤ r.tries.length + r.plan.length + r.budget + r.kind.preparable.toNat := by
  have hbit := Bool.toNat_le r.writeOutstanding
  have hcurrent := currentHost_length (r := r)
  unfold RequestHandler.onErrorUnprepared at h
  split at h
  case isTrue hcan =>
    rw [preparable_of_canPrepare hcan, Bool.toNat_true]
    split at h
    · obtain rfl := Option.some.inj h
      constructor
      · change 16 * (r.plan.length + r.budget) + 7 + r.writeOutstanding.toNat ≤ _
        omega
      · change r.tries.length + r.plan.length + r.budget + r.currentHost.toList.length ≤ _
        omega
    · obtain ⟨-, hremaining, hspent⟩ := retry_bounded h
      exact ⟨by omega, by omega⟩
  case isFalse =>
    obtain ⟨hremaining, hspent⟩ := setError_bounds h
    exact ⟨by omega, by omega⟩

theorem onSet_bounds {kind : RequestKind} {reply : ServerResponse ρ} {early : Bool}
    {accepted : Bool × Bool} (hkind : r.kind = kind)
    (horderly : Event.orderly kind strict (.set reply early accepted attempt) = true)
    (h : r.onSet accepted attempt reply = some r') :
    r'.remaining ≤ 16 * (r.plan.length + r.budget) + 3 +
        8 * (Event.repeats kind (.set reply early accepted attempt)).toNat ∧
      r'.spent ≤ r.tries.length + r.plan.length + r.budget +
        (Event.reprepares kind (.set reply early accepted attempt)).toNat := by
  have hbit := Bool.toNat_le r.writeOutstanding
  have hfinish : ∀ {outcome : η → FutureResult η ρ}, r.finishAtHost outcome = some r' →
      r'.remaining ≤ 16 * (r.plan.length + r.budget) + 3 ∧
        r'.spent ≤ r.tries.length + r.plan.length + r.budget := by
    intro outcome h
    obtain ⟨-, hremaining, hspent⟩ := finishAtHost_bounds h
    exact ⟨by omega, Nat.le_of_eq hspent⟩
  have herror : ∀ {code : RequestError}, some (r.setError code) = some r' →
      r'.remaining ≤ 16 * (r.plan.length + r.budget) + 3 ∧
        r'.spent ≤ r.tries.length + r.plan.length + r.budget := by
    intro code h
    obtain ⟨hremaining, hspent⟩ := setError_bounds h
    exact ⟨by omega, Nat.le_of_eq hspent⟩
  have hpolicy : ∀ {code : Int} {decision : RetryDecision},
      r.handleRetryDecision attempt code decision = some r' →
        (r.numRetries ≠ 0 → decision = .returnError) →
          r'.remaining ≤ 16 * (r.plan.length + r.budget) + 3 ∧
            r'.spent ≤ r.tries.length + r.plan.length + r.budget := by
    intro code decision h hreturns
    obtain ⟨hremaining, hspent⟩ := handleRetryDecision_bounds h hreturns
    exact ⟨by omega, hspent⟩
  cases reply with
  | result resultKind body =>
      cases resultKind with
      | rows noMetadata =>
          simp only [RequestHandler.onSet, onResult] at h
          split at h
          · exact herror h
          · exact hfinish h
      | schemaChange =>
          obtain rfl : accepted = (true, true) := eq_of_beq horderly
          obtain rfl := Option.some.inj h
          refine ⟨?_, Nat.le_refl _⟩
          change 16 * (r.plan.length + r.budget) + 2 + r.writeOutstanding.toNat ≤ _ + 3
          omega
      | other => exact hfinish h
  | unprepared known =>
      have hbounds := onErrorUnprepared_bounds h
      rw [hkind] at hbounds
      exact hbounds
  | readTimeout => exact hpolicy h fun hne => RetryPolicy.onReadTimeout_again _ hne
  | writeTimeout => exact hpolicy h fun hne => RetryPolicy.onWriteTimeout_again _ hne
  | unavailable => exact hpolicy h fun hne => RetryPolicy.onUnavailable_again _ hne
  | error => exact herror h
  | unexpected => exact herror h

theorem dispatch_bounds {available : η → Bool} (hout : r.writeOutstanding = false) :
    (r.dispatch available).remaining ≤ 16 * (r.plan.length + r.budget) + 8 ∧
      (r.dispatch available).spent ≤ r.tries.length + r.plan.length + r.budget := by
  generalize hp : r.plan.length = p
  generalize hb : r.budget = b
  generalize ht : r.tries.length + p + b = t
  rw [RequestHandler.dispatch, ← firstHost_moved _ r none r.plan]
  refine firstHost_rule (r := {r with currentHost := none})
    (I := fun r => r.writeOutstanding = false ∧ r.plan.length ≤ p ∧ r.budget = b ∧
      r.tries.length + r.plan.length + b + r.currentHost.toList.length ≤ t)
    (J := fun r => r.remaining ≤ 16 * (p + b) + 8 ∧ r.spent ≤ t)
    ?move ?go ?none ⟨hout, Nat.le_of_eq hp, hb, Nat.le_of_eq (hp.symm ▸ ht)⟩
  case move =>
    rintro r ⟨hout, hp, hb, ht⟩
    obtain ⟨hlength, hbudget, htries⟩ := nextHost_length (r := r)
    exact ⟨nextHost_outstanding.trans hout, by omega, hbudget.trans hb, by rw [htries]; omega⟩
  case go =>
    rintro r r' host ⟨hout, hp, rfl, ht⟩ - hgo
    split at hgo
    · obtain rfl := Option.some.inj hgo
      refine ⟨?_, ht⟩
      change 16 * (r.plan.length + r.budget) + 8 + r.writeOutstanding.toNat ≤ _
      rw [hout, Bool.toNat_false]
      omega
    · cases hgo
  case none =>
    rintro r ⟨hout, hp, rfl, ht⟩ -
    refine ⟨?_, Nat.le_trans (Nat.le_add_right _ _) ht⟩
    change 16 * (r.plan.length + r.budget) + 0 + r.writeOutstanding.toNat ≤ _
    rw [hout, Bool.toNat_false]
    omega

theorem onTimeout_bounds (h : r.onTimeout = some r') :
    r'.remaining = 16 * (r.plan.length + r.budget) + r.writeOutstanding.toNat ∧
      r'.spent = r.tries.length + r.plan.length + r.budget := by
  unfold RequestHandler.onTimeout at h
  split at h
  · cases h
  · exact setError_bounds h

theorem dropped_bounds (h : some {r with place := .dropped} = some r') :
    r'.remaining = 16 * (r.plan.length + r.budget) + r.writeOutstanding.toNat ∧
      r'.spent = r.tries.length + r.plan.length + r.budget := by
  obtain rfl := Option.some.inj h
  exact ⟨rfl, rfl⟩

/-- A connection is there: the request is written, or what else was to be done
is done. -/
theorem lent_bounds {host : η} {written : Written} {other : Option (RequestHandler η ρ)}
    (hout : r.writeOutstanding = false) (hhost : r.currentHost = some host)
    (h : (r.write host written).or other = some r') :
    other = some r' ∧ written = .refused ∨
      r'.remaining ≤ 16 * (r.plan.length + r.budget) + (if written = .keyspace then 5 else 4) ∧
        r'.spent ≤ r.tries.length + r.plan.length + r.budget + r.currentHost.toList.length := by
  rw [hhost, Option.toList_some, List.length_singleton]
  cases written with
  | refused => exact Or.inl ⟨h, rfl⟩
  | keyspace =>
      obtain rfl := Option.some.inj h
      refine Or.inr ⟨?_, ?_⟩
      · change 16 * (r.plan.length + r.budget) + 5 + r.writeOutstanding.toNat ≤ _
        rw [hout]
        exact Nat.le_refl _
      · change r.tries.length + r.plan.length + r.budget + r.currentHost.toList.length ≤ _
        rw [hhost]
        exact Nat.le_refl _
  | taken =>
      obtain rfl := Option.some.inj h
      refine Or.inr ⟨?_, ?_⟩
      · change 16 * (r.plan.length + r.budget) + 4 + r.writeOutstanding.toNat ≤ _
        rw [hout]
        exact Nat.le_refl _
      · change r.tries.length + 1 + r.plan.length + r.budget + 0 ≤ _
        omega
  | unencodable error =>
      obtain ⟨hremaining, hspent⟩ := setError_bounds h
      rw [hout, Bool.toNat_false] at hremaining
      exact Or.inr ⟨by rw [hremaining]; exact Nat.le_add_right _ 4, by omega⟩

theorem agreementPlace_weight (agreement : Agreement ρ) :
    (agreementPlace agreement : Place η ρ).weight = agreement.waiting ∧
      (agreementPlace agreement : Place η ρ).untried = false := by
  unfold agreementPlace
  split
  case isTrue hzero => exact ⟨hzero.symm, rfl⟩
  case isFalse => exact ⟨rfl, rfl⟩

theorem agreeing_bounds {agreement : Agreement ρ}
    (h : some {r with place := agreementPlace agreement} = some r') :
    r'.remaining = 16 * (r.plan.length + r.budget) + agreement.waiting +
        r.writeOutstanding.toNat ∧
      r'.spent = r.tries.length + r.plan.length + r.budget := by
  obtain ⟨hweight, huntried⟩ := @agreementPlace_weight η ρ agreement
  obtain rfl := Option.some.inj h
  rw [remaining, spent]
  dsimp only
  rw [hweight, huntried]
  exact ⟨rfl, rfl⟩

theorem onAgreement_bounds {agreement : Agreement ρ} {agreed : Bool}
    (h : r.onAgreement agreement agreed = some r') :
    r'.remaining ≤ 16 * (r.plan.length + r.budget) + 3 * (!agreed).toNat +
        r.writeOutstanding.toNat ∧
      r'.spent ≤ r.tries.length + r.plan.length + r.budget := by
  unfold RequestHandler.onAgreement at h
  split at h
  · obtain ⟨hremaining, hspent⟩ := dropped_bounds h
    exact ⟨by omega, by omega⟩
  · split at h
    · obtain ⟨-, hremaining, hspent⟩ := finishAtHost_bounds h
      exact ⟨by omega, by omega⟩
    case isFalse hagreed =>
      obtain rfl := Option.some.inj h
      rw [Bool.eq_false_iff.mpr hagreed]
      exact ⟨Nat.le_refl _, Nat.le_refl _⟩

theorem onQuery_bounds {agreement : Agreement ρ} {agreed : Bool} {callback : Callback}
    (hpos : 0 < agreement.waiting) (h : r.onQuery agreement agreed callback = some r') :
    r'.remaining + 1 ≤ 16 * (r.plan.length + r.budget) + agreement.waiting +
        r.writeOutstanding.toNat + 8 * (!agreed).toNat ∧
      r'.spent ≤ r.tries.length + r.plan.length + r.budget := by
  have hresponse : ∀ {invalid : Bool}, (if agreement.remaining - 1 = 0 ∧
      agreement.failed = false then
        r.onAgreement ⟨agreement.body, agreement.remaining - 1, agreement.waiting - 1,
          agreement.invalid || invalid, agreement.failed⟩ agreed
      else some {r with place := agreementPlace ⟨agreement.body, agreement.remaining - 1,
        agreement.waiting - 1, agreement.invalid || invalid, agreement.failed⟩}) = some r' →
      r'.remaining + 1 ≤ 16 * (r.plan.length + r.budget) + agreement.waiting +
          r.writeOutstanding.toNat + 8 * (!agreed).toNat ∧
        r'.spent ≤ r.tries.length + r.plan.length + r.budget := by
    intro invalid h
    split at h
    · obtain ⟨hremaining, hspent⟩ := onAgreement_bounds h
      exact ⟨by omega, by omega⟩
    · obtain ⟨hremaining, hspent⟩ := agreeing_bounds h
      dsimp only at hremaining
      exact ⟨by omega, by omega⟩
  have herror : ((if agreement.failed then some r
      else r.setResponse agreement.body).map fun r =>
        {r with place := agreementPlace ⟨agreement.body, agreement.remaining,
          agreement.waiting - 1, agreement.invalid, true⟩}) = some r' →
      r'.remaining + 1 ≤ 16 * (r.plan.length + r.budget) + agreement.waiting +
          r.writeOutstanding.toNat + 8 * (!agreed).toNat ∧
        r'.spent ≤ r.tries.length + r.plan.length + r.budget := by
    intro h
    obtain ⟨x, hx, hplace⟩ := Option.map_eq_some_iff.mp h
    obtain ⟨hremaining, hspent⟩ := agreeing_bounds (congrArg some hplace)
    dsimp only at hremaining
    split at hx
    · obtain rfl := Option.some.inj hx
      exact ⟨by omega, by omega⟩
    · obtain ⟨host, -, rfl⟩ := Option.map_eq_some_iff.mp hx
      change r'.remaining = 16 * (r.plan.length + r.budget) + _ + r.writeOutstanding.toNat
        at hremaining
      change r'.spent = r.tries.length + r.plan.length + r.budget at hspent
      exact ⟨by omega, by omega⟩
  cases callback with
  | answered => exact hresponse h
  | unexpected => exact hresponse h
  | failed => exact herror h
  | timeout => exact herror h

theorem Invariant.bounds {kind : RequestKind} {e : Event η ρ} (h : r.Invariant kind plan strict)
    (he : r.Enabled e) (horderly : e.orderly kind strict = true) (hr' : r.perform e = some r') :
    r'.remaining + 1 ≤ r.remaining + 8 * (e.repeats kind).toNat ∧
      r'.spent ≤ r.spent + (e.reprepares kind).toNat := by
  have hplace : ∀ {place}, r.place = place →
      r.remaining = 16 * (r.plan.length + r.budget) + place.weight + r.writeOutstanding.toNat ∧
        r.spent = r.tries.length + r.plan.length + r.budget +
          if place.untried then r.currentHost.toList.length else 0 := by
    rintro place rfl
    exact ⟨rfl, rfl⟩
  have hout : ∀ {place}, r.place = place → place.Reports r.writeOutstanding := by
    rintro place rfl
    exact h.outstanding
  have hbit := Bool.toNat_le r.writeOutstanding
  cases e with
  | rejected connected =>
      obtain ⟨hr, hs⟩ := hplace he
      obtain ⟨hremaining, hspent⟩ := setError_bounds hr'
      simp only [Place.weight] at hr
      exact ⟨by omega, by omega⟩
  | dispatched available =>
      obtain ⟨hr, hs⟩ := hplace he
      obtain rfl := Option.some.inj hr'
      obtain ⟨hremaining, hspent⟩ := @dispatch_bounds η ρ r available (hout he)
      simp only [Place.weight] at hr
      exact ⟨by omega, by omega⟩
  | dequeued attempt =>
      obtain ⟨hr, hs⟩ := hplace he
      obtain ⟨-, hremaining, hspent⟩ := retry_bounded hr'
      simp only [Place.weight, Place.untried, if_true] at hr hs
      exact ⟨by omega, by omega⟩
  | lent foreign written attempt =>
      obtain rfl := Option.isNone_iff_eq_none.mp horderly
      obtain ⟨hr, hs⟩ := hplace he
      simp only [Place.weight, Place.untried, if_true] at hr hs
      obtain ⟨host, hhost⟩ := Option.isSome_iff_exists.mp (h.hosted (by rw [he]; rfl))
      simp only [RequestHandler.perform, Option.none_or, hhost, Option.bind_some] at hr'
      rcases lent_bounds (hout he) hhost hr' with ⟨hnext, -⟩ | ⟨hremaining, hspent⟩
      · obtain ⟨-, hremaining, hspent⟩ := retryNext_bounded hnext
        exact ⟨by omega, by omega⟩
      · split at hremaining
        · exact ⟨by omega, by omega⟩
        · exact ⟨by omega, by omega⟩
  | withdrawn attempt =>
      obtain ⟨hr, hs⟩ := hplace he
      obtain ⟨-, hremaining, hspent⟩ := retryNext_bounded hr'
      simp only [Place.weight] at hr
      exact ⟨by omega, by omega⟩
  | keyspace callback written attempt =>
      obtain ⟨⟨host, he⟩, hkeyspace⟩ := he
      obtain ⟨hr, hs⟩ := hplace he
      simp only [Place.weight, Place.untried, if_true] at hr hs
      have hhost := h.sound
      rw [he] at hhost
      simp only [RequestHandler.perform, he] at hr'
      cases callback with
      | answered =>
          rcases lent_bounds (hout he) hhost hr' with ⟨hagain, rfl⟩ | ⟨hremaining, hspent⟩
          · obtain ⟨-, hremaining, hspent⟩ := retry_bounded hagain
            exact ⟨by simp only [Event.repeats, Bool.toNat_true]; omega, by omega⟩
          · rw [if_neg hkeyspace] at hremaining
            exact ⟨by omega, by omega⟩
      | failed =>
          obtain ⟨-, hremaining, hspent⟩ := retryNext_bounded hr'
          exact ⟨by omega, by omega⟩
      | timeout =>
          obtain ⟨hremaining, hspent⟩ := onTimeout_bounds hr'
          exact ⟨by omega, by omega⟩
      | unexpected =>
          obtain ⟨hremaining, hspent⟩ := dropped_bounds hr'
          exact ⟨by omega, by omega⟩
  | set reply early accepted attempt =>
      obtain ⟨hr, hs⟩ := hplace he
      simp only [Place.weight] at hr
      have hcurrent := h.hosted (by rw [he]; rfl)
      simp only [RequestHandler.perform, Option.isNone_eq_false_iff.mpr hcurrent] at hr'
      obtain ⟨hremaining, hspent⟩ :=
        onSet_bounds (r := {r with writeOutstanding := early}) h.kind horderly hr'
      change r'.remaining ≤ 16 * (r.plan.length + r.budget) + 3 + _ at hremaining
      change r'.spent ≤ r.tries.length + r.plan.length + r.budget + _ at hspent
      exact ⟨by omega, by omega⟩
  | error attempt =>
      obtain ⟨hr, hs⟩ := hplace he
      obtain ⟨-, hremaining, hspent⟩ := retryNext_bounded hr'
      simp only [Place.weight] at hr
      exact ⟨by omega, by omega⟩
  | timeout =>
      obtain ⟨hr, hs⟩ := hplace he
      obtain ⟨hremaining, hspent⟩ := onTimeout_bounds hr'
      simp only [Place.weight] at hr
      exact ⟨by omega, by omega⟩
  | reported attempt =>
      have houtstanding : r.writeOutstanding = true := he
      have hr : r.remaining = 16 * (r.plan.length + r.budget) + r.place.weight + 1 := by
        rw [remaining, houtstanding, Bool.toNat_true]
      simp only [RequestHandler.perform] at hr'
      split at hr'
      case h_1 hretry =>
        have hs := (hplace hretry).2
        obtain ⟨-, hremaining, hspent⟩ := retry_bounded hr'
        change r'.remaining ≤ 16 * (r.plan.length + r.budget) + 6 at hremaining
        change r'.spent ≤ r.tries.length + r.plan.length + r.budget +
          r.currentHost.toList.length at hspent
        rw [hretry] at hr
        simp only [Place.weight, Place.untried, if_true] at hr hs
        exact ⟨by omega, by omega⟩
      case h_2 =>
        obtain rfl := Option.some.inj hr'
        refine ⟨?_, Nat.le_add_right r.spent _⟩
        rw [hr]
        exact Nat.le_add_right (16 * (r.plan.length + r.budget) + r.place.weight + 1) _
  | prepare callback attempt =>
      obtain ⟨hr, hs⟩ := hplace he
      simp only [Place.weight, Place.untried, if_true] at hr hs
      cases callback with
      | answered =>
          obtain ⟨-, hremaining, hspent⟩ := retry_bounded hr'
          exact ⟨by omega, by omega⟩
      | failed | timeout =>
          obtain ⟨-, hremaining, hspent⟩ := retryNext_bounded hr'
          exact ⟨by omega, by omega⟩
      | unexpected =>
          obtain ⟨hremaining, hspent⟩ := dropped_bounds hr'
          exact ⟨by omega, by omega⟩
  | query callback agreed =>
      obtain ⟨agreement, he⟩ := he
      obtain ⟨hr, hs⟩ := hplace he
      have hsound := h.sound
      rw [he] at hsound
      simp only [RequestHandler.perform, he] at hr'
      obtain ⟨hremaining, hspent⟩ := onQuery_bounds hsound.1 hr'
      simp only [Place.weight] at hr
      exact ⟨by simp only [Event.repeats]; omega, by omega⟩
  | rescheduled accepted =>
      obtain ⟨body, he⟩ := he
      obtain rfl : accepted = (true, true) := eq_of_beq horderly
      obtain ⟨hr, hs⟩ := hplace he
      simp only [RequestHandler.perform, he] at hr'
      obtain rfl := Option.some.inj hr'
      constructor
      · rw [hr]
        exact Nat.le_of_eq (Nat.add_right_comm _ _ 1)
      · rw [hs]
        exact Nat.le_refl _
  | closing =>
      obtain ⟨body, he⟩ := he
      obtain ⟨hr, hs⟩ := hplace he
      simp only [RequestHandler.perform, he] at hr'
      obtain ⟨-, hremaining, hspent⟩ := finishAtHost_bounds hr'
      simp only [Place.weight] at hr
      exact ⟨by omega, by omega⟩

theorem Invariant.outcomes_le {kind : RequestKind} (h : r.Invariant kind plan strict) :
    r.outcomes.length ≤ 1 := by
  rw [h.outcomes]
  cases r.place with
  | agreeing agreement => exact Bool.toNat_le _
  | done => exact Nat.le_refl 1
  | _ => exact Nat.zero_le 1

/-- Once its future is set, a request leaves it alone. -/
theorem Invariant.answered {kind : RequestKind} {e : Event η ρ} (h : r.Invariant kind plan strict)
    (hanswered : r.outcomes.length = 1) (he : r.Enabled e) (hr' : r.perform e = some r') :
    r'.outcomes = r.outcomes := by
  have hanswers := h.outcomes.symm.trans hanswered
  have hplace : ∀ {place}, r.place = place → place.answers = 1 := by
    rintro place rfl
    exact hanswers
  cases e with
  | rejected | dispatched | dequeued | lent | withdrawn | set | error | timeout | prepare =>
      cases hplace he
  | keyspace =>
      obtain ⟨⟨host, he⟩, -⟩ := he
      cases hplace he
  | rescheduled | closing =>
      obtain ⟨body, he⟩ := he
      cases hplace he
  | reported attempt =>
      simp only [RequestHandler.perform] at hr'
      split at hr'
      case h_1 hretry => cases hplace hretry
      case h_2 =>
        obtain rfl := Option.some.inj hr'
        rfl
  | query callback agreed =>
      obtain ⟨agreement, he⟩ := he
      have hfailed : agreement.failed = true := by
        have htoNat := hplace he
        cases hagreement : agreement.failed with
        | true => rfl
        | false =>
            rw [Place.answers, hagreement] at htoNat
            cases htoNat
      simp only [RequestHandler.perform, he, RequestHandler.onQuery, hfailed,
        Bool.true_eq_false, and_false, if_false, if_true] at hr'
      cases callback <;> (obtain rfl := Option.some.inj hr'; rfl)

theorem Run.invariant {kind : RequestKind} {es : List (Event η ρ)} (hrun : Run r es r')
    (horderly : ∀ e ∈ es, e.orderly kind strict = true) (h : r.Invariant kind plan strict) :
    r'.Invariant kind plan strict ∧
      es.length + r'.remaining ≤ r.remaining + 8 * es.countP (Event.repeats kind) ∧
        r'.spent ≤ r.spent + es.countP (Event.reprepares kind) := by
  induction hrun with
  | nil => exact ⟨h, Nat.le_of_eq (Nat.zero_add _), Nat.le_refl _⟩
  | @snoc r' r'' es e _ he hperform ih =>
      obtain ⟨hinv, hlength, hspent⟩ := ih fun e he => horderly e (List.mem_append_left _ he)
      have horderly_e := horderly e (List.mem_append_right _ (List.mem_singleton.mpr rfl))
      obtain ⟨x, hx, hinv'⟩ := hinv.perform he horderly_e
      obtain rfl := Option.some.inj (hperform.symm.trans hx)
      obtain ⟨hless, hcost⟩ := hinv.bounds he horderly_e hperform
      have hcount (f : Event η ρ → Bool) : (es ++ [e]).countP f = es.countP f + (f e).toNat := by
        rw [List.countP_append, List.countP_singleton]
        cases f e <;> rfl
      rw [hcount, hcount, List.length_append, List.length_singleton]
      exact ⟨hinv', by omega, by omega⟩

variable {kind : RequestKind} {retryPolicy : RetryPolicy} {es : List (Event η ρ)}

/-- Host 1 does not reach enough replicas, and host 2 answers. -/
theorem retried_run : ∃ (es : List (Event Nat Nat)) (r : RequestHandler Nat Nat),
    Run (new .query .default [1, 2, 3]) es r ∧ r.outcomes = [.response 2 7] ∧
      r.tries = [(2, 6), (1, 0xFFFF)] ∧ r.place = .done ∧ r.numRetries = 1 ∧ r.plan = [3] ∧
        (∀ e ∈ es, e.orderly .query true = true ∧ e.orderly .query false = true) ∧
          es.countP (Event.reprepares .query) = 0 ∧ es.countP (Event.repeats .query) = 0 ∧
            es.length = 4 := by
  have hrun := ((((Run.nil (new .query .default [1, 2, 3] : RequestHandler Nat Nat)).snoc
    (e := .dispatched fun _ => true) rfl rfl).snoc
    (e := .dequeued fun _ => .write .taken) rfl rfl).snoc
    (e := .set (.unavailable 6 2 1) false (true, true) fun _ => .write .taken) rfl rfl).snoc
    (e := .set (.result (.rows false) 7) false (true, true) fun _ => .unready) rfl rfl
  refine ⟨_, _, hrun, rfl, rfl, rfl, rfl, rfl, ?_, rfl, rfl, rfl⟩
  intro e he
  simp only [List.nil_append, List.cons_append, List.mem_cons, List.not_mem_nil, or_false] at he
  rcases he with rfl | rfl | rfl | rfl <;> exact ⟨rfl, rfl⟩

/-- A connection that refuses both queries of an agreement: the response is
given twice. -/
example : (({new .query .default [] with currentHost := some 1} :
    RequestHandler Nat Nat).executeAgreement 7 (false, false)).map (·.outcomes) =
      some [.response 1 7, .response 1 7] := rfl

/-- The hosts of the plan are tried in its order, and each once, save for one
retry of the policy and one for each preparation. -/
theorem hosts_in_order (hrun : Run (new kind retryPolicy plan) es r)
    (horderly : ∀ e ∈ es, e.orderly kind false = true) :
    ∃ passed, plan = passed.reverse ++ r.plan ∧ Tried passed (r.tries.map (·.1)) ∧
      r.tries.length + (if r.numRetries = 0 then 1 else 0) ≤
        passed.length + 1 + es.countP (Event.reprepares kind) := by
  obtain ⟨h, -, hspent⟩ := hrun.invariant horderly (new_invariant kind retryPolicy plan)
  obtain ⟨passed, hplan, htried, -⟩ := h.passed
  refine ⟨passed, hplan, htried, ?_⟩
  have hlength := congrArg List.length hplan
  rw [List.length_append, List.length_reverse] at hlength
  change r.spent ≤ 0 + plan.length + 1 + 0 + _ at hspent
  have hleast : r.tries.length + r.plan.length + r.budget ≤ r.spent := Nat.le_add_right _ _
  rw [budget] at hleast
  omega

/-- A pool that lends a connection to host 1 while the request is at host 2. -/
example : (({new .query .default [] with currentHost := some 2, place := .pending} :
    RequestHandler Nat Nat).perform (.lent (some 1) .taken fun _ => .unready)).map (·.tries) =
      some [(1, 0xFFFF)] := rfl

theorem hosts_in_order_retried : ∃ r : RequestHandler Nat Nat, r.tries = [(2, 6), (1, 0xFFFF)] ∧
    ∃ passed, [1, 2, 3] = passed.reverse ++ r.plan ∧ Tried passed (r.tries.map (·.1)) ∧
      r.tries.length + (if r.numRetries = 0 then 1 else 0) ≤ passed.length + 1 + 0 := by
  obtain ⟨es, r, hrun, -, htries, -, -, -, horderly, hcount, -⟩ := retried_run
  have h := hosts_in_order hrun fun e he => (horderly e he).2
  rw [hcount] at h
  exact ⟨r, htries, h⟩

end RequestHandler

end Img2Web.Driver
