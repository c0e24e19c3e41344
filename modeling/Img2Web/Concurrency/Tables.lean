import Img2Web.Concurrency.Success

/-!
The tables when no call fails. A handler writes its user, the self-subscription
and its own row in this order, and every write relies on the ones before it.
They are separate calls, so what one of them may rely on is stated as what the
client owes whenever it sends a statement; the other clients cannot take it
away, since rows are only added. Together with the rows' origins this fixes the
tables completely once no request is in flight.
-/

namespace Img2Web

open Text Interaction

/-- Every image and every subscription belongs to a registered user, and every
author is subscribed to themselves. -/
structure Consistent (s : Store) : Prop where
  author : ∀ row ∈ s.images, row.login ∈ s.users
  self : ∀ row ∈ s.images, (row.login, row.login) ∈ s.subscriptions
  subscriber : ∀ pair ∈ s.subscriptions, pair.1 ∈ s.users

/-- What must be stored before a statement is executed. -/
def Prepared (s : Store) : Query → Prop
  | .insertSubscription loginFrom _ => loginFrom ∈ s.users
  | .insertImage login _ => login ∈ s.users ∧ (login, login) ∈ s.subscriptions
  | _ => True

theorem Consistent.empty : Consistent Store.empty where
  author _ h := by cases h
  self _ h := by cases h
  subscriber _ h := by cases h

theorem Consistent.executes {clock : Store → Nat → Prop} {s t : Store} {q : Query}
    {rows : List CassRow} (h : Consistent s) (hprepared : Prepared s q)
    (hexec : Executes clock s q t rows) : Consistent t where
  author := by
    intro row hrow
    apply hexec.grows.users
    rcases hexec.image_origin hrow with hold | rfl
    · exact h.author row hold
    · exact hprepared.1
  self := by
    intro row hrow
    apply hexec.grows.subscriptions
    rcases hexec.image_origin hrow with hold | rfl
    · exact h.self row hold
    · exact hprepared.2
  subscriber := by
    intro ⟨a, b⟩ hpair
    apply hexec.grows.users
    rcases hexec.subscription_origin hpair with hold | rfl
    · exact h.subscriber _ hold
    · exact hprepared

/-- Rows are only added, and the tables stay consistent. -/
structure Preserves (s t : Store) : Prop extends s.Grows t where
  consistent : Consistent s → Consistent t

def reliableProtocol : Protocol Request Store Query Reply where
  service _ := reliable
  pre _ q s := Prepared s q
  later := Preserves
  later_refl s := ⟨.refl s, id⟩
  later_trans h h' := ⟨h.toGrows.trans h'.toGrows, h'.consistent ∘ h.consistent⟩
  guarantee hprepared h :=
    ⟨h.grows, fun hs => h.elim fun _ hexec => hs.executes hprepared hexec.2⟩

/-- A request with its arguments is answered with success, and with that all of
its effects are stored. -/
def Served (r : Request) (resp : Response) (s : Store) : Prop :=
  r.Complete → resp.Success ∧ Effective r s ∧ ∀ args, r = .postImage args → resp = .posted

theorem reliable_ok {s t : Store} {q : Query} {r : Reply} (h : reliable s q t r) :
    ∃ rows, r = .ok rows ∧ Executes anyClock s q t rows := h

/-- What `RegisterSelf` leaves behind, for the rest to rely on. -/
theorem registerSelf_reliable (i : Request) (login : Bytes) (s : Store) :
    (registerSelf login).Meets reliableProtocol i
      (fun _ t => login ∈ t.users ∧ (login, login) ∈ t.subscriptions) s := by
  rw [registerSelf_eq]
  refine Program.Meets.call fun s₁ _ => ⟨trivial, fun t₁ _ hr₁ => ?_⟩
  obtain ⟨rows₁, -, hexec₁⟩ := hr₁
  refine Program.Meets.call fun s₂ h₂ => ?_
  have huser : login ∈ s₂.users := h₂.users hexec₁.stores_user
  refine ⟨huser, fun t₂ _ hr₂ => ?_⟩
  obtain ⟨rows₂, -, hexec₂⟩ := hr₂
  refine Program.Meets.ret fun finish hfinish => ⟨?_, ?_⟩
  · exact hfinish.users (hexec₂.grows.users huser)
  · exact hfinish.subscriptions hexec₂.stores_subscription

/-- A request whose login is registered is served, and it owes nothing when it
sends its own statement. -/
theorem Request.own_serves {r : Request} (hcomplete : r.Complete) {t : Store}
    (huser : r.login ∈ t.users) (hself : (r.login, r.login) ∈ t.subscriptions) :
    r.own.Meets reliableProtocol r (Served r) t := by
  cases r with
  | showUsers => exact hcomplete.elim
  | postImage args =>
      refine Program.Meets.call fun s₁ h₁ => ?_
      have hprepared : Prepared s₁ (.insertImage (getArg args "login") (getArg args "image")) :=
        ⟨h₁.users huser, h₁.subscriptions hself⟩
      refine ⟨hprepared, fun t₁ r₁ hr₁ => ?_⟩
      have hgrows : s₁.Grows t₁ := Succeeds.grows hr₁
      obtain ⟨rows₁, rfl, -⟩ := reliable_ok hr₁
      refine Program.Meets.ret fun finish hfinish _ => ⟨rfl, ?_, fun _ _ => rfl⟩
      have hall := hgrows.trans hfinish.toGrows
      exact ⟨hcomplete, hall.users hprepared.1, hall.subscriptions hprepared.2, by simp⟩
  | getFeed args =>
      refine Program.Meets.call fun s₁ h₁ => ⟨trivial, fun t₁ r₁ hr₁ => ?_⟩
      have hgrows : t.Grows t₁ := h₁.toGrows.trans (Succeeds.grows hr₁)
      obtain ⟨rows₁, rfl, -⟩ := reliable_ok hr₁
      refine Program.Meets.call fun s₂ h₂ => ⟨trivial, fun t₂ r₂ hr₂ => ?_⟩
      have hlast : s₂.Grows t₂ := Succeeds.grows hr₂
      obtain ⟨rows₂, rfl, -⟩ := reliable_ok hr₂
      refine Program.Meets.ret fun finish hfinish _ => ⟨rfl, ?_, by simp⟩
      have hall := ((hgrows.trans h₂.toGrows).trans hlast).trans hfinish.toGrows
      exact ⟨hcomplete, hall.users huser, hall.subscriptions hself, by simp⟩
  | subscribeTo args =>
      refine Program.Meets.call fun s₁ h₁ => ⟨h₁.users huser, fun t₁ r₁ hr₁ => ?_⟩
      have hgrows : t.Grows t₁ := h₁.toGrows.trans (Succeeds.grows hr₁)
      obtain ⟨rows₁, rfl, hexec₁⟩ := reliable_ok hr₁
      refine Program.Meets.ret fun finish hfinish _ => ⟨rfl, ?_, by simp⟩
      have hall := hgrows.trans hfinish.toGrows
      refine ⟨hcomplete, hall.users huser, hall.subscriptions hself, ?_⟩
      intro args' hargs
      obtain rfl := Request.subscribeTo.inj hargs
      exact hfinish.subscriptions hexec₁.stores_subscription

theorem Request.serves (r : Request) (s : Store) :
    r.handleRequest.Meets reliableProtocol r (Served r) s := by
  by_cases hcomplete : r.Complete
  · rw [Request.handleRequest_complete hcomplete]
    apply (registerSelf_reliable r r.login s).bind
    intro _ t ⟨huser, hself⟩
    exact Request.own_serves hcomplete huser hself
  · rcases Request.handleRequest_incomplete hcomplete with rfl | ⟨resp, hret, -⟩
    · rw [Request.handleRequest, ShowUsers.handleRequest_eq]
      refine Program.Meets.call fun _ _ => ⟨trivial, fun _ _ _ => ?_⟩
      exact Program.Meets.ret fun _ _ h => h.elim
    · rw [hret]
      exact Program.Meets.ret fun _ _ h => absurd h hcomplete

/-- The user list lies between the users at the start and those at the end. -/
def ListsUsers (start : Store) (resp : Response) (finish : Store) : Prop :=
  ∃ v : List Bytes, resp = .users v ∧ v.Nodup ∧
    (∀ l ∈ start.users, l ∈ v) ∧ ∀ l ∈ v, l ∈ finish.users

theorem ShowUsers.meets (i : Request) (start : Store) :
    ShowUsers.handleRequest.Meets reliableProtocol i (ListsUsers start) start := by
  rw [ShowUsers.handleRequest_eq]
  refine Program.Meets.call fun s h => ⟨trivial, fun t r hr => ?_⟩
  obtain ⟨rows, rfl, hexec⟩ := reliable_ok hr
  obtain ⟨rfl, v, hv, rfl⟩ := executes_selectUsers.mp hexec
  refine Program.Meets.ret fun finish hfinish => ⟨v, by simp only [read_users], hv.nodup, ?_, ?_⟩
  · exact fun l hl => (hv.mem_iff l).mpr (h.users hl)
  · exact fun l hl => hfinish.users ((hv.mem_iff l).mp hl)

/-- The request `r` has begun. -/
def Began (c : Server) (r : Request) : Prop := ∃ p, (r, p) ∈ c.clients

theorem Began.step {svc : Request → Service Store Query Reply} {c c' : Server} {r : Request}
    (h : Began c r) (hstep : Pool.Step svc Request.handleRequest c c') : Began c' r := by
  obtain ⟨p, hclient⟩ := h
  obtain ⟨m, hm⟩ := List.mem_iff_getElem?.mp hclient
  rcases hstep.client hm with hsame | ⟨q, k, t, reply, -, -, rfl⟩
  · exact ⟨p, List.mem_of_getElem? hsame⟩
  · exact ⟨k reply, List.mem_of_getElem? (Pool.advance_self hm t (k reply))⟩

theorem began_iff {c : Server} {r : Request} : Began c r ↔ r ∈ c.requests := by
  simp [Began, Pool.requests]

theorem began_of_requests {c c' : Server} (h : c'.requests = c.requests) {r : Request} :
    Began c' r ↔ Began c r := by
  rw [began_iff, began_iff, h]

/-- Every user and every subscription was inserted by a request that has
begun. -/
structure Traced (c : Server) : Prop where
  users : ∀ l ∈ c.state.users, ∃ r, Began c r ∧ r.Sends (.insertUser l)
  subscriptions : ∀ pair ∈ c.state.subscriptions,
    ∃ r, Began c r ∧ r.Sends (.insertSubscription pair.1 pair.2)

theorem Traced.empty : Traced (Pool.empty Store.empty) where
  users _ h := by cases h
  subscriptions _ h := by cases h

theorem Traced.step {c c' : Server} (h : Traced c) (hinside : c.Inside Request.handleRequest)
    (hstep : Pool.Step (fun _ => reliable) Request.handleRequest c c') : Traced c' := by
  have husers : ∀ l ∈ c.state.users, ∃ r, Began c' r ∧ r.Sends (.insertUser l) := by
    intro l hl
    obtain ⟨r, hbegan, hsends⟩ := h.users l hl
    exact ⟨r, hbegan.step hstep, hsends⟩
  have hsubscriptions : ∀ pair ∈ c.state.subscriptions,
      ∃ r, Began c' r ∧ r.Sends (.insertSubscription pair.1 pair.2) := by
    intro pair hpair
    obtain ⟨r, hbegan, hsends⟩ := h.subscriptions pair hpair
    exact ⟨r, hbegan.step hstep, hsends⟩
  cases hstep with
  | arrive i => exact ⟨husers, hsubscriptions⟩
  | @turn n i q k t reply hn replied =>
      have hsends := Request.sends_of_issues ⟨k, hinside n i _ hn⟩
      have hbegan : Began (c.advance n i t (k reply)) i :=
        ⟨k reply, List.mem_of_getElem? (Pool.advance_self hn t (k reply))⟩
      obtain ⟨rows, -, hexec⟩ := replied
      refine ⟨fun l hl => ?_, fun ⟨a, b⟩ hpair => ?_⟩
      · rcases hexec.user_origin hl with hold | rfl
        · exact husers l hold
        · exact ⟨i, hbegan, hsends⟩
      · rcases hexec.subscription_origin hpair with hold | rfl
        · exact hsubscriptions _ hold
        · exact ⟨i, hbegan, hsends⟩

theorem Request.sends_insertUser_iff {r : Request} {l : Bytes} :
    r.Sends (.insertUser l) ↔ r.Complete ∧ r.login = l := by
  constructor
  · intro h
    cases h with
    | user hcomplete => exact ⟨hcomplete, rfl⟩
  · rintro ⟨hcomplete, rfl⟩
    exact .user hcomplete

theorem Request.sends_insertSubscription_iff {r : Request} {a b : Bytes} :
    r.Sends (.insertSubscription a b) ↔ r.Complete ∧ r.login = a ∧
      (b = a ∨ ∃ args, r = .subscribeTo args ∧ b = getArg args "to") := by
  constructor
  · intro h
    cases h with
    | self hcomplete => exact ⟨hcomplete, rfl, Or.inl rfl⟩
    | subscription hcomplete => exact ⟨hcomplete, rfl, Or.inr ⟨_, rfl, rfl⟩⟩
  · rintro ⟨hcomplete, rfl, rfl | ⟨args, rfl, rfl⟩⟩
    · exact .self hcomplete
    · exact .subscription hcomplete

/-- The tables are what the requests that have begun make them: the users are
their logins, the subscriptions are those to themselves and those asked for,
and every `PostImage` has one image. -/
structure Settled (c : Server) : Prop where
  users : ∀ l, l ∈ c.state.users ↔ ∃ r, Began c r ∧ r.Complete ∧ r.login = l
  subscriptions : ∀ a b, (a, b) ∈ c.state.subscriptions ↔
    ∃ r, Began c r ∧ r.Complete ∧ r.login = a ∧
      (b = a ∨ ∃ args, r = .subscribeTo args ∧ b = getArg args "to")
  images : ∃ stamp : Nat → Nat,
    (∀ row, row ∈ c.state.images ↔ ∃ (m : Nat) (args : Args) (p : Client Response),
      c.clients[m]? = some (.postImage args, p) ∧ (Request.postImage args).Complete ∧
        row = postedRow args (stamp m)) ∧
    ∀ (m : Nat) (args : Args) (p : Client Response) (m' : Nat) (args' : Args)
      (p' : Client Response), c.clients[m]? = some (.postImage args, p) →
      (Request.postImage args).Complete → c.clients[m']? = some (.postImage args', p') →
      (Request.postImage args').Complete → stamp m = stamp m' → m = m'

section Runs

variable {c : Server}
  (hrun : Pool.Run (fun _ => reliable) Request.handleRequest (Pool.empty Store.empty) c)

include hrun

theorem reachable_traced : Traced c := by
  have hboth := hrun.invariant
    (I := fun d => d.Inside Request.handleRequest ∧ Traced d)
    (fun ⟨hinside, h⟩ hstep => ⟨hinside.step hstep, h.step hinside hstep⟩)
    ⟨Pool.empty_inside _, Traced.empty⟩
  exact hboth.2

theorem reachable_consistent : Consistent c.state :=
  (Pool.Run.later (P := reliableProtocol) Request.serves hrun (Pool.empty_kept _)).consistent
    Consistent.empty

theorem reachable_served {m : Nat} {r : Request} {resp : Response}
    (hm : c.clients[m]? = some (r, .ret resp)) : Served r resp c.state :=
  (Pool.Run.kept (P := reliableProtocol) Request.serves hrun (Pool.empty_kept _) m r _ hm).ended

/-- Once no request is in flight, the tables are settled. -/
theorem quiet_settled (hquiet : c.Quiet) : Settled c := by
  have htraced := reachable_traced hrun
  have hended {r : Request} (hbegan : Began c r) (hcomplete : r.Complete) :
      Effective r c.state := by
    obtain ⟨p, hclient⟩ := hbegan
    obtain ⟨resp, rfl⟩ := hquiet r p hclient
    obtain ⟨m, hm⟩ := List.mem_iff_getElem?.mp hclient
    exact (reachable_served hrun hm hcomplete).2.1
  have hanswered {m : Nat} {args : Args} {p : Client Response}
      (hm : c.clients[m]? = some (.postImage args, p))
      (hcomplete : (Request.postImage args).Complete) : Answered c m args := by
    obtain ⟨resp, rfl⟩ := hquiet _ p (List.mem_of_getElem? hm)
    rw [Answered, hm, (reachable_served hrun hm hcomplete).2.2 args rfl]
  refine ⟨?_, ?_, ?_⟩
  · intro l
    constructor
    · intro hl
      obtain ⟨r, hbegan, hsends⟩ := htraced.users l hl
      exact ⟨r, hbegan, Request.sends_insertUser_iff.mp hsends⟩
    · rintro ⟨r, hbegan, hcomplete, rfl⟩
      exact (hended hbegan hcomplete).user
  · intro a b
    constructor
    · intro hpair
      obtain ⟨r, hbegan, hsends⟩ := htraced.subscriptions _ hpair
      exact ⟨r, hbegan, Request.sends_insertSubscription_iff.mp hsends⟩
    · rintro ⟨r, hbegan, hcomplete, rfl, rfl | ⟨args, rfl, rfl⟩⟩
      · exact (hended hbegan hcomplete).self
      · exact (hended hbegan hcomplete).subscription args rfl
  · obtain ⟨stamp, hledger⟩ := exists_ledger (hrun.mono fun _ _ _ _ _ h => Or.inr h)
    refine ⟨stamp, fun row => ⟨?_, ?_⟩, ?_⟩
    · intro hrow
      rcases hledger.origin row hrow with hstart | ⟨m, args, hm, rfl⟩
      · cases hstart
      · have hcomplete := hm.complete (hrun.inside (Pool.empty_inside _))
        exact ⟨m, args, _, hm, hcomplete, rfl⟩
    · rintro ⟨m, args, p, hm, hcomplete, rfl⟩
      exact (hledger.stored m args (hanswered hm hcomplete)).1
    · intro m args p m' args' p' hm hcomplete hm' hcomplete' hstamp
      exact hledger.injective m args m' args' (hanswered hm hcomplete)
        (hanswered hm' hcomplete') hstamp

end Runs

section Example

end Example

end Img2Web
