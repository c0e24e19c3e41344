import Img2Web.Concurrency.StoredLogins

/-!
When argument strings may be taken as literal values. Requests whose arguments
have no quotes, with logins that are not empty, send only texts that are read
as they were meant, feeds included: what they store is plain, and so is what a
feed reads back. A run of such requests over statement texts is therefore a run
of the reliable service, and what holds of its tables holds of theirs.
-/

namespace Img2Web

open Text Cql Interaction

/-- A request whose arguments, if it has all of them, need no escaping. -/
structure PlainRequest (r : Request) : Prop where
  login : r.Complete → Plain r.login
  image : ∀ args, r = .postImage args → quote ∉ getArg args "image"
  asked : ∀ args, r = .subscribeTo args → r.Complete → Plain (getArg args "to")

/-- Nobody follows a login that is not plain. -/
def AllPlain (s : Store) : Prop := ∀ a b, (a, b) ∈ s.subscriptions → Plain b

theorem AllPlain.earlier {s t : Store} (h : AllPlain t) (hgrows : s.Grows t) : AllPlain s :=
  fun a b hfollows => h a b (hgrows.subscriptions hfollows)

/-- A statement of a plain request is read as it was meant; that of a feed, if
the logins it names are plain. -/
theorem PlainRequest.accepts {r : Request} (h : PlainRequest r) {q : Query} (hsends : r.Sends q)
    (hfeed : ∀ logins limit, q = .selectFeed logins limit → ∀ login ∈ logins, Plain login) :
    Accepts q q := by
  cases hsends with
  | users => exact accepts_of_plain (by simp [Query.args]) id
  | user hcomplete => exact accepts_user (h.login hcomplete)
  | self hcomplete => exact accepts_self (h.login hcomplete)
  | @image args hcomplete =>
      have hlogin : Plain (getArg args "login") := h.login hcomplete
      refine accepts_of_plain ?_ hlogin.1
      simpa [Query.args] using ⟨hlogin.2, h.image args rfl⟩
  | @subscription args hcomplete =>
      have hlogin : Plain (getArg args "login") := h.login hcomplete
      refine accepts_of_plain ?_ hlogin.1
      simpa [Query.args] using ⟨hlogin.2, (h.asked args rfl hcomplete).2⟩
  | subscriptions hcomplete => exact accepts_followed (h.login hcomplete)
  | feed logins => exact accepts_feed_iff.mpr (hfeed logins _ rfl)

/-- A plain request owes statements that are read as they were meant, as long
as nothing that is not plain has been stored. -/
def plainProtocol : Protocol Request Store Query Reply where
  service _ := textual
  pre r q s := PlainRequest r → AllPlain s → Accepts q q
  later := Store.Grows
  later_refl := Store.Grows.refl
  later_trans := Store.Grows.trans
  guarantee _ h := textual_grows h

theorem registerSelf_plain {r : Request} (hcomplete : r.Complete) (s : Store) :
    (registerSelf r.login).Meets plainProtocol r (fun _ _ => True) s := by
  refine Program.Meets.of_issues (fun q hissues _ hplain _ => ?_) s
  have hlogin := hplain.login hcomplete
  rcases (issues_registerSelf r.login q).mp hissues with rfl | rfl
  · exact accepts_user hlogin
  · exact accepts_self hlogin

/-- The logins of a feed statement were read from the subscriptions, so they
are plain if everything stored is. -/
theorem GetFeed.own_plain {args : Args} (hcomplete : (Request.getFeed args).Complete)
    (s : Store) : (Request.own (.getFeed args)).Meets plainProtocol (.getFeed args)
      (fun _ _ => True) s := by
  refine Program.Meets.call fun s₁ h₁ => ⟨fun h _ => ?_, fun t₁ r₁ hr₁ => ?_⟩
  · exact accepts_followed (h.login hcomplete)
  · cases r₁ with
    | error rc => exact Program.Meets.ret fun _ _ => trivial
    | ok rows =>
        refine Program.Meets.call fun s₂ h₂ => ⟨fun h hall => ?_, fun _ _ _ => ?_⟩
        · apply accepts_feed_iff.mpr
          have hread := textual_accepts (accepts_followed (h.login hcomplete)) hr₁
          obtain ⟨rows', hrows, hexec⟩ := hread
          obtain rfl := Except.ok.inj hrows
          obtain ⟨rfl, pairs, hpairs, rfl⟩ := executes_selectSubscriptions.mp hexec
          rw [read_loginTo]
          intro author hauthor
          have hfollowed := ((enumerates_followed hpairs).mem_iff author).mp hauthor
          exact hall.earlier h₂ _ author (Store.mem_followed.mp hfollowed)
        · exact Program.Meets.ret fun _ _ => trivial

theorem GetFeed.meets_plain (args : Args) (s : Store) :
    (Request.getFeed args).handleRequest.Meets plainProtocol (.getFeed args)
      (fun _ _ => True) s := by
  by_cases hcomplete : (Request.getFeed args).Complete
  · rw [Request.handleRequest_complete hcomplete]
    apply (registerSelf_plain hcomplete s).bind
    intro _ t _
    exact GetFeed.own_plain hcomplete t
  · rw [Request.handleRequest, GetFeed.handleRequest_incomplete hcomplete]
    exact Program.Meets.ret fun _ _ => trivial

theorem Request.meets_plain (r : Request) (s : Store) :
    r.handleRequest.Meets plainProtocol r (fun _ _ => True) s := by
  have hother (hfeed : ∀ args, r ≠ .getFeed args) :
      r.handleRequest.Meets plainProtocol r (fun _ _ => True) s := by
    refine Program.Meets.of_issues (fun q hissues s' hplain _ => ?_) s
    have hsends := Request.sends_of_issues hissues
    apply hplain.accepts hsends
    rintro logins limit rfl
    cases hsends with
    | feed => exact absurd rfl (hfeed _)
  cases r with
  | getFeed args => exact GetFeed.meets_plain args s
  | showUsers => exact hother (by simp)
  | postImage args => exact hother (by simp)
  | subscribeTo args => exact hother (by simp)

/-- A statement of a plain request, executed as it was meant, stores nothing
that is not plain. -/
theorem AllPlain.executes {s t : Store} {r : Request} {q : Query} {rows : List CassRow}
    (h : AllPlain s) (hr : PlainRequest r) (hsends : r.Sends q)
    (hexec : Executes anyClock s q t rows) : AllPlain t := by
  intro a b hfollows
  rcases hexec.subscription_origin hfollows with hold | rfl
  · exact h a b hold
  · cases hsends with
    | self hcomplete => exact hr.login hcomplete
    | subscription hcomplete => exact hr.asked _ rfl hcomplete

/-- Over statement texts, a run of plain requests is a run of the reliable
service. -/
theorem plain_run {c : Server}
    (hrun : Pool.Run (fun _ => textual) Request.handleRequest (Pool.empty Store.empty) c)
    (hplain : ∀ r, Began c r → PlainRequest r) :
    Pool.Run (fun _ => reliable) Request.handleRequest (Pool.empty Store.empty) c ∧
      AllPlain c.state := by
  induction hrun with
  | refl => exact ⟨.refl, fun _ _ h => by cases h⟩
  | @tail d c hinit hlast ih =>
      obtain ⟨hbefore, hall⟩ := ih fun r hbegan => hplain r (hbegan.step hlast)
      have hinside := Pool.Run.inside hinit (Pool.empty_inside Store.empty)
      have hkept := Pool.Run.kept (P := plainProtocol) Request.meets_plain hinit
        (Pool.empty_kept Store.empty)
      cases hlast with
      | arrive i => exact ⟨hbefore.tail (.arrive d i), hall⟩
      | @turn n i q k t reply hn replied =>
          have hi : PlainRequest i :=
            hplain i ⟨k reply, List.mem_of_getElem? (Pool.advance_self hn t (k reply))⟩
          have haccepted : Accepts q q := (hkept n i _ hn).sends hi hall
          have hmeant := textual_accepts haccepted replied
          obtain ⟨rows, hrows, hexec⟩ := hmeant
          refine ⟨hbefore.tail (.turn hn ⟨rows, hrows, hexec⟩), ?_⟩
          exact hall.executes hi (Request.sends_of_issues ⟨k, hinside n i _ hn⟩) hexec

/-- So their tables are consistent, and settled when no request is in flight. -/
theorem plain_tables {c : Server}
    (hrun : Pool.Run (fun _ => textual) Request.handleRequest (Pool.empty Store.empty) c)
    (hplain : ∀ r, Began c r → PlainRequest r) :
    Consistent c.state ∧ (c.Quiet → Settled c) := by
  obtain ⟨hreliable, -⟩ := plain_run hrun hplain
  exact ⟨reachable_consistent hreliable, quiet_settled hreliable⟩

section Example

/-- Ann subscribes to bob, and no login needs an escape. -/
theorem plain_tables_ann : ∃ c : Server,
    Succeeded c 0 (.subscribeTo (followArgs (bytes "ann") (bytes "bob"))) ∧ c.Quiet ∧
      Consistent c.state ∧ (c.Quiet → Settled c) := by
  have hann : Plain (bytes "ann") := ⟨by decide, by decide⟩
  have hbob : Plain (bytes "bob") := ⟨by decide, by decide⟩
  have hfollow : PlainRequest (.subscribeTo (followArgs (bytes "ann") (bytes "bob"))) :=
    { login := fun _ => hann
      image := fun args hargs => by cases hargs
      asked := fun args hargs _ => by
        obtain rfl := Request.subscribeTo.inj hargs
        exact hbob }
  have hrun := (Pool.run_alone (fun _ => textual) (follow_execution hann hbob.2)).head
    (.arrive _ _)
  refine ⟨_, ⟨.subscribed, rfl, by decide⟩, ?_, plain_tables hrun ?_⟩
  · intro r p hclient
    obtain ⟨rfl, rfl⟩ := Prod.mk.inj (List.mem_singleton.mp hclient)
    exact ⟨.subscribed, rfl⟩
  · rintro r ⟨p, hp⟩
    obtain ⟨rfl, rfl⟩ := Prod.mk.inj (List.mem_singleton.mp hp)
    exact hfollow

end Example

end Img2Web
