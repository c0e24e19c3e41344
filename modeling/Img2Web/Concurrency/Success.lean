import Img2Web.Concurrency.Writes

/-!
What a success answer is worth. `RegisterSelf` makes two calls and looks at
neither result, so a request can end with success although its registration
failed, and `SubscribeTo` without its arguments ends with success having done
nothing. Where a failed call of `RegisterSelf` costs nothing, because the row
was there already, and `SubscribeTo` gets its arguments, a success answer means
that everything the request was to write is stored.
-/

namespace Img2Web

open Text Interaction

/-- The failed calls that do not matter: those whose row is there already, and
those whose result the handler looks at. The query of the self-subscription is
looked at only if it is what `SubscribeTo` was asked for anyway. -/
def Tolerated (i : Request) (s : Store) : Query → Prop
  | .insertUser login => login ∈ s.users
  | .insertSubscription loginFrom loginTo =>
      loginFrom = loginTo → (loginFrom, loginTo) ∈ s.subscriptions ∨
        ∃ args, i = .subscribeTo args ∧ getArg args "to" = loginFrom
  | _ => True

/-- A call may fail if that is tolerated. -/
def tolerant (i : Request) : Service Store Query Reply := fun s q t r =>
  Succeeds anyClock s q t r ∨ Tolerated i s q ∧ Fails s t r

theorem tolerant_faulty {i : Request} {s t : Store} {q : Query} {r : Reply}
    (h : tolerant i s q t r) : faulty anyClock s q t r :=
  h.symm.imp_left And.right

def tolerantProtocol : Protocol Request Store Query Reply where
  service := tolerant
  pre _ _ _ := True
  later := Store.Grows
  later_refl := Store.Grows.refl
  later_trans := Store.Grows.trans
  guarantee _ h := faulty_grows (tolerant_faulty h)

/-- A success answer means that the request was effective, and for a `PostImage`
that its image was accepted. -/
def Acknowledged (r : Request) (resp : Response) (s : Store) : Prop :=
  resp.Success → r ≠ .showUsers → (∀ args, r = .subscribeTo args → r.Complete) →
    Effective r s ∧ ∀ args, r = .postImage args → resp = .posted

section Registration

variable {i : Request} {s t : Store} {r : Reply} {login : Bytes}

theorem tolerant_user (h : tolerant i s (.insertUser login) t r) : login ∈ t.users := by
  rcases h with ⟨rows, -, hexec⟩ | ⟨htolerated, rfl, -⟩
  · exact hexec.stores_user
  · exact htolerated

theorem tolerant_ok {q : Query} {rows : List CassRow} (h : tolerant i s q t (.ok rows)) :
    Executes anyClock s q t rows :=
  faulty_ok (tolerant_faulty h)

/-- The self-subscription is stored, or the handler will ask for it again. -/
theorem tolerant_self (h : tolerant i s (.insertSubscription login login) t r) :
    (login, login) ∈ t.subscriptions ∨
      ∃ args, i = .subscribeTo args ∧ getArg args "to" = login := by
  rcases h with ⟨rows, -, hexec⟩ | ⟨htolerated, rfl, -⟩
  · exact Or.inl hexec.stores_subscription
  · exact htolerated rfl

/-- What `RegisterSelf` leaves behind, and no other client takes away. -/
theorem registerSelf_tolerant (i : Request) (login : Bytes) (s : Store) :
    (registerSelf login).Meets tolerantProtocol i (fun _ t => login ∈ t.users ∧
      ((login, login) ∈ t.subscriptions ∨
        ∃ args, i = .subscribeTo args ∧ getArg args "to" = login)) s := by
  rw [registerSelf_eq]
  refine Program.Meets.call fun s₁ _ => ⟨trivial, fun t₁ _ huser => ?_⟩
  refine Program.Meets.call fun s₂ h₂ => ⟨trivial, fun t₂ _ hself => ?_⟩
  refine Program.Meets.ret fun finish hfinish => ⟨?_, ?_⟩
  · have hgrows : s₂.Grows finish := (faulty_grows (tolerant_faulty hself)).trans hfinish
    exact hgrows.users (h₂.users (tolerant_user huser))
  · have hsubscribed := tolerant_self hself
    exact hsubscribed.imp_left fun hstored => hfinish.subscriptions hstored

end Registration

theorem acknowledged_notFound (r : Request) (s : Store) : Acknowledged r .notFound s :=
  fun hsuccess => absurd hsuccess Response.notFound_not_success

/-- A request whose login is registered keeps what its success answer
promises. -/
theorem Request.own_acknowledges {r : Request} (hcomplete : r.Complete) {t : Store}
    (huser : r.login ∈ t.users)
    (hself : (r.login, r.login) ∈ t.subscriptions ∨
      ∃ args, r = .subscribeTo args ∧ getArg args "to" = r.login) :
    r.own.Meets tolerantProtocol r (Acknowledged r) t := by
  cases r with
  | showUsers => exact hcomplete.elim
  | postImage args =>
      have hself := hself.resolve_right (by simp)
      refine Program.Meets.call fun s₁ h₁ => ⟨trivial, fun t₁ r₁ hr₁ => ?_⟩
      have hgrows : t.Grows t₁ := h₁.trans (faulty_grows (tolerant_faulty hr₁))
      refine Program.Meets.ret fun finish hfinish => ?_
      cases r₁ with
      | error rc => exact acknowledged_notFound _ _
      | ok rows =>
          intro _ _ _
          have hall := hgrows.trans hfinish
          exact ⟨⟨hcomplete, hall.users huser, hall.subscriptions hself, by simp⟩,
            fun _ _ => rfl⟩
  | getFeed args =>
      have hself := hself.resolve_right (by simp)
      have heffective {u : Store} (hu : t.Grows u) : Effective (.getFeed args) u :=
        ⟨hcomplete, hu.users huser, hu.subscriptions hself, by simp⟩
      refine Program.Meets.call fun s₁ h₁ => ⟨trivial, fun t₁ r₁ hr₁ => ?_⟩
      have hgrows : t.Grows t₁ := h₁.trans (faulty_grows (tolerant_faulty hr₁))
      cases r₁ with
      | error rc => exact Program.Meets.ret fun finish _ => acknowledged_notFound _ finish
      | ok rows =>
          refine Program.Meets.call fun s₂ h₂ => ⟨trivial, fun t₂ r₂ hr₂ => ?_⟩
          have hlast : s₂.Grows t₂ := faulty_grows (tolerant_faulty hr₂)
          refine Program.Meets.ret fun finish hfinish _ _ _ => ⟨heffective ?_, by simp⟩
          exact ((hgrows.trans h₂).trans hlast).trans hfinish
  | subscribeTo args =>
      refine Program.Meets.call fun s₁ h₁ => ⟨trivial, fun t₁ r₁ hr₁ => ?_⟩
      have hgrows : t.Grows t₁ := h₁.trans (faulty_grows (tolerant_faulty hr₁))
      refine Program.Meets.ret fun finish hfinish => ?_
      cases r₁ with
      | error rc => exact acknowledged_notFound _ _
      | ok rows =>
          intro _ _ _
          have hall := hgrows.trans hfinish
          have hasked : (getArg args "login", getArg args "to") ∈ finish.subscriptions :=
            hfinish.subscriptions (tolerant_ok hr₁).stores_subscription
          refine ⟨⟨hcomplete, hall.users huser, ?_, ?_⟩, by simp⟩
          · rcases hself with hstored | ⟨args', hargs, hto⟩
            · exact hall.subscriptions hstored
            · -- its own call asked for the self-subscription once more
              obtain rfl := Request.subscribeTo.inj hargs
              rw [hto] at hasked
              exact hasked
          · intro args' hargs
            obtain rfl := Request.subscribeTo.inj hargs
            exact hasked

/-- Every request keeps what its success answer promises. -/
theorem Request.acknowledges (r : Request) (s : Store) :
    r.handleRequest.Meets tolerantProtocol r (Acknowledged r) s := by
  by_cases hcomplete : r.Complete
  · rw [Request.handleRequest_complete hcomplete]
    apply (registerSelf_tolerant r r.login s).bind
    intro _ t ⟨huser, hself⟩
    exact Request.own_acknowledges hcomplete huser hself
  · rcases Request.handleRequest_incomplete hcomplete with rfl | ⟨resp, hret, hsubscribe⟩
    · have htrivial := Program.Meets.trivial (P := tolerantProtocol) (i := .showUsers)
        (fun _ _ _ => trivial) ShowUsers.handleRequest s
      exact htrivial.weaken fun _ _ _ _ hr => absurd rfl hr
    · rw [hret]
      refine Program.Meets.ret fun finish _ hsuccess _ hasked => ?_
      obtain ⟨args, hargs⟩ := hsubscribe hsuccess
      exact absurd (hasked args hargs) hcomplete

/-- The client `m` has ended without a failure status. -/
def Succeeded (c : Server) (m : Nat) (r : Request) : Prop :=
  ∃ resp : Response, c.clients[m]? = some (r, .ret resp) ∧ resp.Success

/-- Every effect of every request that was answered with success is stored,
and each such `PostImage` has a row of its own that was not there at the
start. -/
structure AllStored (start : Store) (c : Server) : Prop where
  effective : ∀ m r, Succeeded c m r → r ≠ .showUsers → Effective r c.state
  images : ∃ stamp : Nat → Nat,
    (∀ m args, Succeeded c m (.postImage args) →
      postedRow args (stamp m) ∈ c.state.images ∧
        postedRow args (stamp m) ∉ start.images) ∧
    ∀ m args m' args', Succeeded c m (.postImage args) → Succeeded c m' (.postImage args') →
      stamp m = stamp m' → m = m'

/-- In every run in which the calls that fail are tolerated ones and
`SubscribeTo` gets its arguments, a success answer means that everything is
stored, whatever was stored before and however the requests interleave. -/
theorem success_means_stored {start : Store} {c : Server}
    (hrun : Pool.Run tolerant Request.handleRequest (Pool.empty start) c)
    (hasked : ∀ (m : Nat) (args : Args) (p : Client Response),
      c.clients[m]? = some (.subscribeTo args, p) → (Request.subscribeTo args).Complete) :
    AllStored start c := by
  have hkept : c.Kept tolerantProtocol Acknowledged :=
    Pool.Run.kept Request.acknowledges hrun (Pool.empty_kept start)
  have hacknowledged {m : Nat} {r : Request} (hm : Succeeded c m r) (hr : r ≠ .showUsers) :
      Effective r c.state ∧ ∀ args, r = .postImage args → Answered c m args := by
    obtain ⟨resp, hended, hsuccess⟩ := hm
    have hcomplete : ∀ args, r = .subscribeTo args → r.Complete := by
      rintro args rfl
      exact hasked m args _ hended
    obtain ⟨heffective, hposted⟩ := (hkept m r _ hended).ended hsuccess hr hcomplete
    refine ⟨heffective, ?_⟩
    rintro args rfl
    rw [Answered, hended, hposted args rfl]
  have hposts {m : Nat} {args : Args} (hm : Succeeded c m (.postImage args)) :
      Answered c m args := (hacknowledged hm (by simp)).2 args rfl
  obtain ⟨stamp, hledger⟩ :=
    exists_ledger (hrun.mono fun _ _ _ _ _ h => tolerant_faulty h)
  refine ⟨fun m r hm hr => (hacknowledged hm hr).1, stamp, ?_, ?_⟩
  · intro m args hm
    obtain ⟨hstored, hfresh⟩ := hledger.stored m args (hposts hm)
    exact ⟨hstored, fun hold => hfresh _ hold rfl⟩
  · intro m args m' args' hm hm' hstamp
    exact hledger.injective m args m' args' (hposts hm) (hposts hm') hstamp

section Necessary

/-- A handler looks at the results of its own calls. -/
theorem Request.own_tolerated {r : Request} (hcomplete : r.Complete) {q : Query}
    (h : r.own.Issues q) (s : Store) : Tolerated r s q := by
  cases r with
  | showUsers => exact hcomplete.elim
  | postImage args =>
      obtain rfl : q = .insertImage (getArg args "login") (getArg args "image") := by
        simpa [Request.own] using h
      trivial
  | getFeed args =>
      rcases (Program.issues_call _ _ _).mp h with rfl | ⟨reply, hrest⟩
      · trivial
      · cases reply with
        | error rc => exact absurd hrest (Program.issues_ret _ _)
        | ok rows =>
            obtain rfl : q = .selectFeed _ (GetFeed.top args) := by simpa using hrest
            trivial
  | subscribeTo args =>
      obtain rfl : q = .insertSubscription (getArg args "login") (getArg args "to") := by
        simpa [Request.own] using h
      exact fun hsame => Or.inr ⟨args, rfl, hsame.symm⟩

/-- Only the two calls of `RegisterSelf` can fail in a way that matters, and the
handler goes on after them whatever the reply. -/
theorem Request.untolerated {r : Request} {q : Query} {k : Reply → Client Response} {s : Store}
    (h : r.handleRequest.Residual (.call q k)) (hnot : ¬ Tolerated r s q) :
    r.Complete ∧
      ((q = .insertUser r.login ∧
          k = fun _ => .call (.insertSubscription r.login r.login) fun _ => r.own) ∨
        (q = .insertSubscription r.login r.login ∧ k = fun _ => r.own)) := by
  by_cases hcomplete : r.Complete
  · refine ⟨hcomplete, ?_⟩
    rw [Request.handleRequest_complete hcomplete, registerSelf_eq] at h
    simp only [Program.call_bind, Program.ret_bind, Program.residual_call, Program.call.injEq,
      exists_const] at h
    rcases h with huser | hself | hown
    · exact Or.inl huser
    · exact Or.inr hself
    · exact absurd (Request.own_tolerated hcomplete ⟨k, hown⟩ s) hnot
  · cases Request.sends_of_issues ⟨k, h⟩ with
    | users => exact absurd trivial hnot
    | user hr => exact absurd hr hcomplete
    | self hr => exact absurd hr hcomplete
    | image hr => exact absurd hr hcomplete
    | subscription hr => exact absurd hr hcomplete
    | subscriptions hr => exact absurd hr hcomplete
    | feed _ hr => exact absurd hr hcomplete

/-- What follows the registration can succeed, and then it adds no user and no
subscription but the one that is asked for. -/
theorem Request.own_succeeds {r : Request} (hcomplete : r.Complete) (s : Store) :
    ∃ qs t resp, r.own.Execution (faulty anyClock) s qs t resp ∧ resp.Success ∧
      t.users = s.users ∧ ∀ pair ∈ t.subscriptions, pair ∈ s.subscriptions ∨
        ∃ args, r = .subscribeTo args ∧ pair = (r.login, getArg args "to") := by
  cases r with
  | showUsers => exact hcomplete.elim
  | postImage args =>
      obtain ⟨t, rows, hexec⟩ :=
        Executes.exists s (.insertImage (getArg args "login") (getArg args "image"))
      obtain ⟨⟨ts, fresh, -, rfl⟩, -⟩ := executes_insertImage.mp hexec
      exact ⟨_, _, .posted, .call hexec.faulty (.ret _ _), rfl, rfl, fun _ h => Or.inl h⟩
  | getFeed args =>
      obtain ⟨t, rows, hexec⟩ :=
        Executes.exists s (.selectSubscriptions .loginTo .loginFrom (getArg args "login"))
      obtain ⟨rfl, -⟩ := executes_selectSubscriptions.mp hexec
      obtain ⟨t', rows', hexec'⟩ := Executes.exists t (.selectFeed
        (rows.map fun row => getString (columnByName row .loginTo)) (GetFeed.top args))
      obtain ⟨rfl, -⟩ := executes_selectFeed.mp hexec'
      exact ⟨_, _, _, .call hexec.faulty (.call hexec'.faulty (.ret _ _)), rfl, rfl,
        fun _ h => Or.inl h⟩
  | subscribeTo args =>
      have hexec : Executes anyClock s _ _ [] :=
        .insertSubscription s (getArg args "login") (getArg args "to")
      refine ⟨_, _, .subscribed, .call hexec.faulty (.ret _ _), rfl, rfl, ?_⟩
      intro pair hpair
      rcases Finset.mem_insert.mp hpair with hnew | hold
      · exact Or.inr ⟨args, rfl, hnew⟩
      · exact Or.inl hold

variable {start : Store} {c : Server}
  (hrun : Pool.Run (fun _ => faulty anyClock) Request.handleRequest (Pool.empty start) c)

include hrun

/-- A failed call that is not tolerated can always end in a success answer with
something missing. -/
theorem untolerated_breaks {m : Nat} {r : Request} {q : Query} {k : Reply → Client Response}
    (hm : c.clients[m]? = some (r, .call q k)) (hnot : ¬ Tolerated r c.state q)
    (rc : CassError) :
    ∃ c' : Server, Pool.Run (fun _ => faulty anyClock) Request.handleRequest
      (c.advance m r c.state (k (.error rc))) c' ∧ c'.requests = c.requests ∧
      ¬ AllStored start c' := by
  have hinside := hrun.inside (Pool.empty_inside start) m r _ hm
  obtain ⟨hcomplete, hcall⟩ := Request.untolerated hinside hnot
  have hnotUsers : r ≠ .showUsers := by
    rintro rfl
    exact hcomplete
  -- it is enough that the client alone can go on to a success
  have hends {qs : List Query} {t : Store} {resp : Response}
      (hexecution : (k (.error rc)).Execution (faulty anyClock) c.state qs t resp)
      (hsuccess : resp.Success) (hmissing : ¬ Effective r t) :
      ∃ c' : Server, Pool.Run (fun _ => faulty anyClock) Request.handleRequest
        (c.advance m r c.state (k (.error rc))) c' ∧ c'.requests = c.requests ∧
        ¬ AllStored start c' := by
    have hclient := Pool.advance_self (i := r) hm c.state (k (.error rc))
    have hrequests := Pool.advance_requests hclient t (.ret resp)
    have hstate := Pool.advance_state c m r c.state (k (.error rc))
    refine ⟨_, Pool.run_of_execution (fun _ => faulty anyClock) hexecution hstate hclient,
      hrequests.trans (Pool.advance_requests hm c.state _), ?_⟩
    intro hstored
    have hended : Succeeded _ m r := ⟨resp, Pool.advance_self hclient t _, hsuccess⟩
    exact hmissing (hstored.effective m r hended hnotUsers)
  rcases hcall with ⟨rfl, rfl⟩ | ⟨rfl, rfl⟩
  · obtain ⟨qs, t, resp, hown, hsuccess, husers, -⟩ :=
      Request.own_succeeds hcomplete (c.state.addSubscription r.login r.login)
    have hself : Executes anyClock c.state (.insertSubscription r.login r.login) _ [] :=
      .insertSubscription c.state r.login r.login
    apply hends (.call hself.faulty hown) hsuccess
    intro heffective
    have huser := heffective.user
    rw [husers] at huser
    exact hnot huser
  · obtain ⟨qs, t, resp, hown, hsuccess, -, hsubscriptions⟩ :=
      Request.own_succeeds hcomplete c.state
    apply hends hown hsuccess
    intro heffective
    rcases hsubscriptions _ heffective.self with hold | ⟨args, hargs, hpair⟩
    · exact hnot fun _ => Or.inl hold
    · exact hnot fun _ => Or.inr ⟨args, hargs, (Prod.mk.inj hpair).2.symm⟩

/-- So does a `SubscribeTo` without its arguments, as soon as it arrives. -/
theorem incomplete_breaks {m : Nat} {args : Args} {p : Client Response}
    (hm : c.clients[m]? = some (.subscribeTo args, p))
    (hincomplete : ¬ (Request.subscribeTo args).Complete) : ¬ AllStored start c := by
  intro hstored
  have hinside := hrun.inside (Pool.empty_inside start) m _ p hm
  rw [Request.handleRequest, SubscribeTo.handleRequest_incomplete hincomplete,
    Program.residual_ret] at hinside
  subst hinside
  have hended : Succeeded c m (.subscribeTo args) := ⟨.initial, hm, rfl⟩
  exact hincomplete (hstored.effective m _ hended (by simp)).complete

end Necessary

section Example

def postArgs (login image : Bytes) : Args := fun name =>
  if name = "login" then some login else if name = "image" then some image else none

def annPost : Request := .postImage (postArgs (bytes "ann") (bytes "YQ=="))

theorem annPost_complete : annPost.Complete := ⟨rfl, rfl⟩

/-- A store in which ann is registered. -/
def annKnown : Store :=
  (Store.empty.addUser (bytes "ann")).addSubscription (bytes "ann") (bytes "ann")

theorem annKnown_fresh : annKnown.Fresh 1 := fun _ hr => by cases hr

/-- Both calls of `RegisterSelf` fail, and nothing is lost. -/
theorem annPost_tolerated :
    annPost.handleRequest.Execution (tolerant annPost) annKnown
      [.insertUser (bytes "ann"), .insertSubscription (bytes "ann") (bytes "ann"),
        .insertImage (bytes "ann") (bytes "YQ==")]
      (annKnown.addImage ⟨bytes "ann", 1, bytes "YQ=="⟩ annKnown_fresh) .posted := by
  rw [annPost, Request.handleRequest, PostImage.handleRequest_eq annPost_complete]
  have huser : bytes "ann" ∈ annKnown.users := by decide
  have hself : (bytes "ann", bytes "ann") ∈ annKnown.subscriptions := by decide
  refine .call (Or.inr ⟨huser, rfl, 1, rfl⟩) ?_
  refine .call (Or.inr ⟨fun _ => Or.inl hself, rfl, 1, rfl⟩) ?_
  refine .call (Or.inl ⟨[], rfl, .insertImage _ _ _ _ annKnown_fresh trivial⟩) ?_
  exact .ret _ _

theorem success_means_stored_ann : ∃ c : Server,
    Succeeded c 0 annPost ∧ AllStored annKnown c := by
  have hrun := (Pool.run_alone tolerant annPost_tolerated).head (.arrive _ annPost)
  refine ⟨_, ⟨.posted, rfl, by decide⟩, success_means_stored hrun ?_⟩
  intro m args p hm
  have hclient := List.mem_singleton.mp (List.mem_of_getElem? hm)
  cases (Prod.mk.inj hclient).1

end Example

/-- The insertion of the user fails unnoticed; and, with no failed call at all,
`SubscribeTo` without its arguments is a success. -/
theorem success_means_stored_counterexample :
    (∃ c : Server, Pool.Run (fun _ => faulty anyClock) Request.handleRequest
      (Pool.empty Store.empty) c ∧ (∀ r p, (r, p) ∈ c.clients → r.Complete) ∧
      ¬ AllStored Store.empty c) ∧
    (∃ c : Server, Pool.Run (fun _ => reliable) Request.handleRequest
      (Pool.empty Store.empty) c ∧ ¬ AllStored Store.empty c) := by
  constructor
  · have harrived : Pool.Run (fun _ => faulty anyClock) Request.handleRequest
        (Pool.empty Store.empty) ((Pool.empty Store.empty).arrive Request.handleRequest annPost) :=
      .single (.arrive _ annPost)
    have hclient := Pool.arrive_new Request.handleRequest
      (Pool.empty Store.empty : Server) annPost
    rw [Request.handleRequest_complete annPost_complete, registerSelf_eq] at hclient
    have hunknown : ¬ Tolerated annPost Store.empty (.insertUser annPost.login) :=
      Finset.notMem_empty _
    have hfails : faulty anyClock Store.empty (.insertUser annPost.login) Store.empty (.error 1) :=
      Or.inl ⟨rfl, 1, rfl⟩
    obtain ⟨c', hrest, hrequests, hlost⟩ := untolerated_breaks harrived hclient hunknown 1
    refine ⟨c', (harrived.tail (.turn hclient hfails)).trans hrest, ?_, hlost⟩
    intro r p hmem
    have hin : r ∈ c'.requests := List.mem_map_of_mem (f := Prod.fst) hmem
    rw [hrequests] at hin
    obtain rfl : r = annPost := List.mem_singleton.mp hin
    exact annPost_complete
  · have hincomplete : ¬ (Request.subscribeTo fun _ => none).Complete := fun h => by cases h.1
    have harrived : Pool.Run (fun _ => reliable) Request.handleRequest (Pool.empty Store.empty)
        ((Pool.empty Store.empty).arrive Request.handleRequest (.subscribeTo fun _ => none)) :=
      .single (.arrive _ _)
    refine ⟨_, harrived, ?_⟩
    have hfaulty : Pool.Run (fun _ => faulty anyClock) Request.handleRequest
        (Pool.empty Store.empty) _ := harrived.mono fun _ _ _ _ _ h => Or.inr h
    exact incomplete_breaks hfaulty (Pool.arrive_new _ _ _) hincomplete

end Img2Web
