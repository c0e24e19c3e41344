import Img2Web.Cql.Spacing
import Img2Web.Statements.Integrity
import Img2Web.Concurrency.Feed
import Img2Web.Concurrency.Tables

/-!
Cassandra as a service of statement texts. A text is executed as whatever
statement it is read as, and refused if it is read as none. What a request
stores is then the decoded value of its text, and a feed pastes it into a text
again; a login that cannot make this second trip breaks every later feed of
the users who follow it. The feeds work exactly in the stores where nobody with
a plain login follows a login that is empty or has a quote.
-/

namespace Img2Web

open Text Cql Interaction

/-- The text of `q` is accepted and read as `q'`: it has the tokens of `q'`,
and `q'` names no empty partition key. -/
def Accepts (q q' : Query) : Prop := lex q.text = some q'.tokens ∧ ¬ q'.namesEmptyKey

/-- An accepted text is executed as it is read; any other one is refused. -/
def textual : Service Store Query Reply := fun s q t r =>
  (∃ q', Accepts q q' ∧ Succeeds anyClock s q' t r) ∨ (∀ q', ¬ Accepts q q') ∧ Fails s t r

theorem Accepts.unique {q q' q'' : Query} (h : Accepts q q') (h' : Accepts q q'') : q' = q'' :=
  Query.tokens_injective (Option.some.inj (h.1.symm.trans h'.1))

theorem textual_accepts {s t : Store} {q q' : Query} {r : Reply} (h : Accepts q q')
    (replied : textual s q t r) : Succeeds anyClock s q' t r := by
  rcases replied with ⟨q'', hread, hsucceeds⟩ | ⟨hrefused, -⟩
  · obtain rfl := h.unique hread
    exact hsucceeds
  · exact absurd h (hrefused q')

theorem textual_grows {s t : Store} {q : Query} {r : Reply} (h : textual s q t r) :
    s.Grows t := by
  rcases h with ⟨q', -, hsucceeds⟩ | ⟨-, rfl, -⟩
  · exact hsucceeds.grows
  · exact .refl _

theorem textual_total : textual.Total := by
  intro s q
  by_cases hread : ∃ q', Accepts q q'
  · obtain ⟨q', hread⟩ := hread
    obtain ⟨t, rows, hexec⟩ := Executes.exists s q'
    exact ⟨t, .ok rows, Or.inl ⟨q', hread, rows, rfl, hexec⟩⟩
  · exact ⟨s, .error 1, Or.inr ⟨fun q' h => hread ⟨q', h⟩, rfl, 1, rfl⟩⟩

/-- A login that survives being stored and pasted into a list again. -/
def Plain (login : Bytes) : Prop := login ≠ [] ∧ quote ∉ login

theorem accepts_of_plain {q : Query} (hargs : ∀ a ∈ q.args, quote ∉ a)
    (hkey : ¬ q.namesEmptyKey) : Accepts q q :=
  ⟨q.lex_text_iff.mpr hargs, hkey⟩

theorem accepts_feed_iff {logins : List Bytes} {limit : Nat} :
    Accepts (.selectFeed logins limit) (.selectFeed logins limit) ↔
      ∀ login ∈ logins, Plain login := by
  constructor
  · rintro ⟨hlex, hkey⟩ login hlogin
    refine ⟨?_, (Query.lex_text_iff _).mp hlex login hlogin⟩
    rintro rfl
    exact hkey hlogin
  · intro hplain
    refine accepts_of_plain (fun a ha => (hplain a ha).2) fun hkey => ?_
    exact (hplain [] hkey).1 rfl

/-- Nobody with a plain login follows a login that is not plain. -/
def Safe (s : Store) : Prop := ∀ a b, (a, b) ∈ s.subscriptions → Plain a → Plain b

/-- A feed of a plain login, requested without `top`, is answered with items,
and the list it pastes into its statement is accepted and read as exactly the
logins that are followed. -/
def FeedsWork (s : Store) : Prop :=
  ∀ (args : Args) (qs : List Query) (t : Store) (resp : Response),
    (Request.getFeed args).Complete → Plain (getArg args "login") → args "top" = none →
    (GetFeed.handleRequest args).Execution textual s qs t resp →
    (∃ desc, resp = .items desc) ∧
      ∀ logins limit, .selectFeed logins limit ∈ qs →
        Accepts (.selectFeed logins limit) (.selectFeed logins limit) ∧
          Enumerates logins (t.followed (getArg args "login"))

/-- Nothing is owed, and rows are only added. -/
def textualProtocol : Protocol Request Store Query Reply where
  service _ := textual
  pre _ _ _ := True
  later := Store.Grows
  later_refl := Store.Grows.refl
  later_trans := Store.Grows.trans
  guarantee _ h := textual_grows h

theorem textual_execution_grows {r : Request} {qs : List Query} {s t : Store}
    {resp : Response} (h : r.handleRequest.Execution textual s qs t resp) : s.Grows t := by
  have hstable : r.handleRequest.Meets textualProtocol r (fun _ u => s.Grows u) s :=
    Program.Meets.stable (fun _ _ _ => trivial) (fun h hs => hs.trans h) _ (.refl s)
  exact hstable.execution h

section Feeds

variable {login : Bytes}

theorem accepts_user (hlogin : Plain login) :
    Accepts (.insertUser login) (.insertUser login) :=
  accepts_of_plain (by simpa [Query.args] using hlogin.2) hlogin.1

theorem accepts_self (hlogin : Plain login) :
    Accepts (.insertSubscription login login) (.insertSubscription login login) :=
  accepts_of_plain (by simpa [Query.args] using hlogin.2) hlogin.1

theorem accepts_followed (hlogin : Plain login) :
    Accepts (.selectSubscriptions .loginTo .loginFrom login)
      (.selectSubscriptions .loginTo .loginFrom login) :=
  accepts_of_plain (by simpa [Query.args] using hlogin.2) fun hkey => hlogin.1 hkey.2

/-- In a safe store the four statements of a feed are all read as meant. -/
theorem Safe.feedsWork {s : Store} (hsafe : Safe s) : FeedsWork s := by
  intro args qs t resp hcomplete hlogin _ hexecution
  rw [GetFeed.handleRequest_eq hcomplete] at hexecution
  obtain ⟨s₁, r₁, qs₁, h₁, rfl, hexecution⟩ := (Program.execution_call ..).mp hexecution
  obtain ⟨rows₁, -, hexec₁⟩ := textual_accepts (accepts_user hlogin) h₁
  obtain ⟨rfl, -⟩ := executes_insertUser.mp hexec₁
  obtain ⟨s₂, r₂, qs₂, h₂, rfl, hexecution⟩ := (Program.execution_call ..).mp hexecution
  obtain ⟨rows₂, -, hexec₂⟩ := textual_accepts (accepts_self hlogin) h₂
  obtain ⟨rfl, -⟩ := executes_insertSubscription.mp hexec₂
  obtain ⟨s₃, r₃, qs₃, h₃, rfl, hexecution⟩ := (Program.execution_call ..).mp hexecution
  obtain ⟨rows₃, rfl, hexec₃⟩ := textual_accepts (accepts_followed hlogin) h₃
  obtain ⟨rfl, pairs, hpairs, rfl⟩ := executes_selectSubscriptions.mp hexec₃
  simp only [read_loginTo] at hexecution
  have hlogins := enumerates_followed hpairs
  have hplain : ∀ author ∈ pairs.map Prod.snd, Plain author := by
    intro author hauthor
    have hfollowed := Store.mem_followed.mp ((hlogins.mem_iff author).mp hauthor)
    rcases Finset.mem_insert.mp hfollowed with hself | hold
    · rw [(Prod.mk.inj hself).2]
      exact hlogin
    · exact hsafe _ author hold hlogin
  obtain ⟨s₄, r₄, qs₄, h₄, rfl, hexecution⟩ := (Program.execution_call ..).mp hexecution
  obtain ⟨rows₄, rfl, hexec₄⟩ := textual_accepts (accepts_feed_iff.mpr hplain) h₄
  obtain ⟨rfl, -⟩ := executes_selectFeed.mp hexec₄
  obtain ⟨rfl, rfl, rfl⟩ := (Program.execution_ret ..).mp hexecution
  refine ⟨⟨_, rfl⟩, fun logins limit hsent => ?_⟩
  obtain ⟨rfl, rfl⟩ : logins = pairs.map Prod.snd ∧ limit = GetFeed.top args := by
    simpa using hsent
  exact ⟨accepts_feed_iff.mpr hplain, hlogins⟩

/-- A feed that is answered with items has sent its second query. -/
theorem sent_of_items {args : Args} (hcomplete : (Request.getFeed args).Complete)
    {s t : Store} {qs : List Query} {desc : List ImageDescription}
    (h : (GetFeed.handleRequest args).Execution textual s qs t (.items desc)) :
    ∃ logins, .selectFeed logins (GetFeed.top args) ∈ qs := by
  rw [GetFeed.handleRequest_eq hcomplete] at h
  obtain ⟨s₁, r₁, qs₁, -, rfl, h₁⟩ := (Program.execution_call ..).mp h
  obtain ⟨s₂, r₂, qs₂, -, rfl, h₂⟩ := (Program.execution_call ..).mp h₁
  obtain ⟨s₃, r₃, qs₃, -, rfl, h₃⟩ := (Program.execution_call ..).mp h₂
  cases r₃ with
  | error rc =>
      obtain ⟨-, -, hitems⟩ := (Program.execution_ret ..).mp h₃
      have hsuccess := Response.items_success desc
      rw [hitems] at hsuccess
      exact absurd hsuccess Response.notFound_not_success
  | ok rows =>
      obtain ⟨s₄, r₄, qs₄, -, rfl, -⟩ := (Program.execution_call ..).mp h₃
      exact ⟨rows.map fun row => getString (columnByName row .loginTo), by simp⟩

/-- A feed that works shows that what its user follows is plain. -/
theorem FeedsWork.safe {s : Store} (hwork : FeedsWork s) : Safe s := by
  intro a b hfollows ha
  let args : Args := fun name => if name = "login" then some a else none
  have hcomplete : (Request.getFeed args).Complete := rfl
  obtain ⟨qs, t, resp, hexecution⟩ :=
    Program.exists_execution textual_total (Request.getFeed args).handleRequest s
  obtain ⟨⟨desc, rfl⟩, hread⟩ := hwork args qs t resp hcomplete ha rfl hexecution
  obtain ⟨logins, hsent⟩ := sent_of_items hcomplete hexecution
  obtain ⟨haccepted, hlogins⟩ := hread logins _ hsent
  have hgrows := textual_execution_grows hexecution
  apply accepts_feed_iff.mp haccepted
  exact (hlogins.mem_iff b).mpr (Store.mem_followed.mpr (hgrows.subscriptions hfollows))

end Feeds

/-- Only the text of a subscription is read as one: the table is named before
any argument. -/
theorem insertSubscription_of_lex {q : Query} {a b : Bytes}
    (h : lex q.text = some (Query.insertSubscription a b).tokens) :
    ∃ loginFrom loginTo, q = .insertSubscription loginFrom loginTo := by
  cases q with
  | insertSubscription loginFrom loginTo => exact ⟨loginFrom, loginTo, rfl⟩
  | insertUser login =>
      rw [Query.text, List.append_assoc] at h
      have hprefix := prefix_of_lexFrom insertUserTemplate.head.opens h
      simp [insertUserTemplate, Query.tokens] at hprefix
  | insertImage login base64 =>
      rw [Query.text, List.append_assoc, List.append_assoc, List.append_assoc] at h
      have hprefix := prefix_of_lexFrom insertImageTemplate.head.opens h
      simp [insertImageTemplate, Query.tokens] at hprefix
  | selectUsers =>
      have hread : lex Query.selectUsers.text = some Query.selectUsers.tokens := rfl
      rw [hread] at h
      simp [Query.tokens] at h
  | selectSubscriptions first scd login =>
      rw [Query.text, List.append_assoc] at h
      have hprefix := prefix_of_lexFrom (selectSubscriptionsTemplate first scd).head.opens h
      simp [selectSubscriptionsTemplate, Query.tokens] at hprefix
  | selectFeed logins limit =>
      have hfront : scan .start (bytes "SELECT ") = (.start, [word "select"]) := rfl
      have htext : ∃ more, (Query.selectFeed logins limit).text = bytes "SELECT " ++ more := by
        refine ⟨bytes "* from img2web.images WHERE login IN " ++ (joinUsers logins ++
          (bytes " ORDER BY ts DESC LIMIT " ++ (decimal limit ++ bytes ";"))), ?_⟩
        simp only [Query.text, List.append_assoc]
        rfl
      obtain ⟨more, htext⟩ := htext
      rw [htext] at h
      have hprefix := prefix_of_lexFrom hfront h
      simp [Query.tokens] at hprefix

/-- Pasted between quotes with a comma, these arguments may be two values, with
their quotes doubled: if the first of these is a plain login, so is the second. -/
def SafePair (loginFrom loginTo : Bytes) : Prop :=
  ∀ a b, WrittenPair (loginFrom ++ bytes "','" ++ loginTo) a b → Plain a → Plain b

/-- These values are what the text of the subscription is read as. -/
theorem lex_insertSubscription_iff {loginFrom loginTo a b : Bytes} :
    lex (Query.insertSubscription loginFrom loginTo).text =
        some (Query.insertSubscription a b).tokens ↔
      WrittenPair (loginFrom ++ bytes "','" ++ loginTo) a b := by
  have htext : (Query.insertSubscription loginFrom loginTo).text =
      insertSubscriptionTemplate.head.text ++
        (loginFrom ++ bytes "','" ++ loginTo ++ bytes "');") := by
    simp only [Query.text, insertSubscriptionTemplate, List.append_assoc]
  rw [lex, htext, ← lexFrom_pair_iff]
  exact lexFrom_append_iff insertSubscriptionTemplate.head.opens _ _

/-- A request that cannot break a feed: with its arguments the subscription to
itself is safe, and so is the one it asks for. -/
def FeedSafe (r : Request) : Prop :=
  r.Complete → SafePair r.login r.login ∧
    ∀ args, r = .subscribeTo args → SafePair r.login (getArg args "to")

/-- Where the follower has no quote, only two kinds of logins to be followed are
dangerous: the empty one, and one with quotes that are all doubled. -/
theorem safePair_iff {loginFrom loginTo : Bytes} (hfrom : quote ∉ loginFrom) :
    SafePair loginFrom loginTo ↔
      (loginFrom ≠ [] → loginTo ≠ [] ∧ (quote ∈ loginTo → ∀ b, loginTo ≠ escape b)) := by
  constructor
  · intro h hne
    refine ⟨?_, ?_⟩
    · rintro rfl
      have hwritten : WrittenPair (loginFrom ++ bytes "','" ++ []) loginFrom [] :=
        (writtenPair_clean hfrom).mpr ⟨rfl, rfl⟩
      exact (h loginFrom [] hwritten ⟨hne, hfrom⟩).1 rfl
    · rintro hquote b rfl
      have hb := h loginFrom b ((writtenPair_clean hfrom).mpr ⟨rfl, rfl⟩) ⟨hne, hfrom⟩
      rw [escape_clean hb.2] at hquote
      exact hb.2 hquote
  · intro h a b hwritten ha
    obtain ⟨rfl, rfl⟩ := (writtenPair_clean hfrom).mp hwritten
    obtain ⟨hne, hdoubled⟩ := h ha.1
    refine ⟨?_, fun hquote => ?_⟩
    · rintro rfl
      exact hne rfl
    · exact hdoubled (mem_escape hquote) b rfl

theorem FeedSafe.pair {r : Request} (h : FeedSafe r) {loginFrom loginTo : Bytes}
    (hsends : r.Sends (.insertSubscription loginFrom loginTo)) :
    SafePair loginFrom loginTo := by
  cases hsends with
  | self hcomplete => exact (h hcomplete).1
  | subscription hcomplete => exact (h hcomplete).2 _ rfl

/-- One step keeps the store safe if the client that takes it is safe. -/
theorem Safe.step {s t : Store} {r : Request} {q : Query} {reply : Reply} (h : Safe s)
    (hr : FeedSafe r) (hsends : r.Sends q) (replied : textual s q t reply) : Safe t := by
  rcases replied with ⟨q', hread, rows, -, hexec⟩ | ⟨-, rfl, -⟩
  · intro a b hfollows ha
    rcases hexec.subscription_origin hfollows with hold | rfl
    · exact h a b hold ha
    · obtain ⟨loginFrom, loginTo, rfl⟩ := insertSubscription_of_lex hread.1
      exact hr.pair hsends a b (lex_insertSubscription_iff.mp hread.1) ha
  · exact h

section Inserted

/-- What the text of this insert is read as, if it is accepted as an insert at
all, is stored. -/
def Landed (loginFrom loginTo : Bytes) (s : Store) : Prop :=
  ∀ a b, Accepts (.insertSubscription loginFrom loginTo) (.insertSubscription a b) →
    (a, b) ∈ s.subscriptions

/-- Every subscription that a text of `r` is read as is stored. -/
def Inserted (r : Request) (s : Store) : Prop :=
  ∀ loginFrom loginTo, r.Sends (.insertSubscription loginFrom loginTo) →
    Landed loginFrom loginTo s

theorem Landed.grows {loginFrom loginTo : Bytes} {s t : Store} (hgrows : s.Grows t)
    (h : Landed loginFrom loginTo s) : Landed loginFrom loginTo t :=
  fun a b hread => hgrows.subscriptions (h a b hread)

theorem Inserted.grows {r : Request} {s t : Store} (hgrows : s.Grows t) (h : Inserted r s) :
    Inserted r t :=
  fun loginFrom loginTo hsends => (h loginFrom loginTo hsends).grows hgrows

theorem textual_landed {s t : Store} {loginFrom loginTo : Bytes} {reply : Reply}
    (replied : textual s (.insertSubscription loginFrom loginTo) t reply) :
    Landed loginFrom loginTo t := by
  intro a b hread
  obtain ⟨rows, -, hexec⟩ := textual_accepts hread replied
  exact hexec.stores_subscription

theorem registerSelf_landed (i : Request) (login : Bytes) (s : Store) :
    (registerSelf login).Meets textualProtocol i (fun _ => Landed login login) s := by
  rw [registerSelf_eq]
  refine Program.Meets.call fun _ _ => ⟨trivial, fun _ _ _ => ?_⟩
  refine Program.Meets.call fun _ _ => ⟨trivial, fun t _ hself => ?_⟩
  exact Program.Meets.ret fun finish hfinish => (textual_landed hself).grows hfinish

/-- The inserts of a request are sent whatever the replies are. -/
theorem Request.inserts (r : Request) (s : Store) :
    r.handleRequest.Meets textualProtocol r (fun _ => Inserted r) s := by
  have hstable (p : Client Response) {t : Store} (ht : Inserted r t) :
      p.Meets textualProtocol r (fun _ => Inserted r) t :=
    Program.Meets.stable (fun _ _ _ => trivial) Inserted.grows p ht
  by_cases hcomplete : r.Complete
  · rw [Request.handleRequest_complete hcomplete]
    apply (registerSelf_landed r r.login s).bind
    intro _ t hself
    cases r with
    | showUsers => exact hcomplete.elim
    | postImage args =>
        apply hstable
        intro _ _ hsends
        cases hsends with
        | self => exact hself
    | getFeed args =>
        apply hstable
        intro _ _ hsends
        cases hsends with
        | self => exact hself
    | subscribeTo args =>
        refine Program.Meets.call fun s₁ h₁ => ⟨trivial, fun t₁ r₁ hr₁ => hstable _ ?_⟩
        intro _ _ hsends
        cases hsends with
        | self => exact hself.grows (h₁.trans (textual_grows hr₁))
        | subscription => exact textual_landed hr₁
  · apply hstable
    intro _ _ hsends
    cases hsends with
    | self h => exact absurd h hcomplete
    | subscription h => exact absurd h hcomplete

end Inserted

theorem safe_step {c c' : Server} (hinside : c.Inside Request.handleRequest)
    (h : (∀ r, Began c r → FeedSafe r) → Safe c.state)
    (hstep : Pool.Step (fun _ => textual) Request.handleRequest c c')
    (hsafe : ∀ r, Began c' r → FeedSafe r) : Safe c'.state := by
  have hbefore : Safe c.state := h fun r hbegan => hsafe r (hbegan.step hstep)
  cases hstep with
  | arrive i => exact hbefore
  | @turn n i q k t reply hn replied =>
      have hbegan : Began (c.advance n i t (k reply)) i :=
        ⟨k reply, List.mem_of_getElem? (Pool.advance_self hn t (k reply))⟩
      have hsends := Request.sends_of_issues ⟨k, hinside n i _ hn⟩
      exact hbefore.step (hsafe i hbegan) hsends replied

section Runs

variable {c : Server}
  (hrun : Pool.Run (fun _ => textual) Request.handleRequest (Pool.empty Store.empty) c)

include hrun

/-- Safe requests keep the store safe, in every reachable state. -/
theorem reachable_safe (hsafe : ∀ r, Began c r → FeedSafe r) : Safe c.state := by
  have hempty : Safe Store.empty := fun _ _ h => by cases h
  have hboth := hrun.invariant
    (I := fun d => d.Inside Request.handleRequest ∧
      ((∀ r, Began d r → FeedSafe r) → Safe d.state))
    (fun ⟨hinside, hd⟩ hstep => ⟨hinside.step hstep, safe_step hinside hd hstep⟩)
    ⟨Pool.empty_inside _, fun _ => hempty⟩
  exact hboth.2 hsafe

/-- A safe store shows that the requests that made it were safe. -/
theorem quiet_feedSafe (hquiet : c.Quiet) (hsafe : Safe c.state) :
    ∀ r, Began c r → FeedSafe r := by
  intro r hbegan hcomplete
  obtain ⟨p, hclient⟩ := hbegan
  obtain ⟨resp, rfl⟩ := hquiet r p hclient
  obtain ⟨m, hm⟩ := List.mem_iff_getElem?.mp hclient
  have hinserted : Inserted r c.state :=
    (Pool.Run.kept (P := textualProtocol) Request.inserts hrun (Pool.empty_kept _) m r _ hm).ended
  have hpair {loginFrom loginTo : Bytes}
      (hsends : r.Sends (.insertSubscription loginFrom loginTo)) :
      SafePair loginFrom loginTo := by
    intro a b hwritten ha
    have hread := lex_insertSubscription_iff.mpr hwritten
    exact hsafe a b (hinserted _ _ hsends a b ⟨hread, ha.1⟩) ha
  refine ⟨hpair (.self hcomplete), ?_⟩
  rintro args rfl
  exact hpair (.subscription hcomplete)

end Runs

/-- The requests of a run are all safe exactly when every feed works, now and in
every state that the requests in flight can still bring about. -/
theorem feeds_work_iff {c : Server}
    (hrun : Pool.Run (fun _ => textual) Request.handleRequest (Pool.empty Store.empty) c) :
    (∀ c' : Server, Pool.Run (fun _ => textual) Request.handleRequest c c' →
      c'.requests = c.requests → FeedsWork c'.state) ↔ ∀ r, Began c r → FeedSafe r := by
  constructor
  · intro hwork r hbegan
    obtain ⟨c', hlater, hrequests, hquiet⟩ := Pool.exists_quiet
      (fun _ : Request => textual_total) c
    have hsafe : Safe c'.state := (hwork c' hlater hrequests).safe
    apply quiet_feedSafe (hrun.trans hlater) hquiet hsafe
    exact (began_of_requests hrequests).mpr hbegan
  · intro hsafe c' hlater hrequests
    have hsafe' : ∀ r, Began c' r → FeedSafe r :=
      fun r hbegan => hsafe r ((began_of_requests hrequests).mp hbegan)
    exact (reachable_safe (hrun.trans hlater) hsafe').feedsWork

section Example

def followArgs (login to' : Bytes) : Args := fun name =>
  if name = "login" then some login else if name = "to" then some to' else none

/-- The store after one subscription, from the empty one. -/
def followStore (a b : Bytes) : Store :=
  ((Store.empty.addUser a).addSubscription a a).addSubscription a b

theorem follow_execution {a b : Bytes} (ha : Plain a) (hb : quote ∉ b) :
    (Request.subscribeTo (followArgs a b)).handleRequest.Execution textual Store.empty
      [.insertUser a, .insertSubscription a a, .insertSubscription a b]
      (followStore a b) .subscribed := by
  have hcomplete : (Request.subscribeTo (followArgs a b)).Complete := ⟨rfl, rfl⟩
  have hfollow : Accepts (.insertSubscription a b) (.insertSubscription a b) :=
    accepts_of_plain (by simpa [Query.args] using ⟨ha.2, hb⟩) ha.1
  rw [Request.handleRequest, SubscribeTo.handleRequest_eq hcomplete]
  refine .call (Or.inl ⟨_, accepts_user ha, [], rfl, .insertUser _ _⟩) ?_
  refine .call (Or.inl ⟨_, accepts_self ha, [], rfl, .insertSubscription _ _ _⟩) ?_
  refine .call (Or.inl ⟨_, hfollow, [], rfl, .insertSubscription _ _ _⟩) ?_
  exact .ret _ _

theorem feeds_work_ann : ∃ c : Server,
    Succeeded c 0 (.subscribeTo (followArgs (bytes "ann") (bytes "bob"))) ∧
    ((∀ c' : Server, Pool.Run (fun _ => textual) Request.handleRequest c c' →
      c'.requests = c.requests → FeedsWork c'.state) ↔ ∀ r, Began c r → FeedSafe r) := by
  have hann : Plain (bytes "ann") := ⟨by decide, by decide⟩
  have hbob : quote ∉ bytes "bob" := by decide
  have hrun := (Pool.run_alone (fun _ => textual) (follow_execution hann hbob)).head
    (.arrive _ _)
  exact ⟨_, ⟨.subscribed, rfl, by decide⟩, feeds_work_iff hrun⟩

/-- After ann has subscribed to the empty login her feed is a 404. -/
theorem feeds_work_counterexample :
    ¬ ∀ c : Server, Pool.Run (fun _ => textual) Request.handleRequest
      (Pool.empty Store.empty) c → FeedsWork c.state := by
  intro h
  have hann : Plain (bytes "ann") := ⟨by decide, by decide⟩
  have hempty : quote ∉ ([] : Bytes) := by decide
  have hrun := (Pool.run_alone (fun _ => textual) (follow_execution hann hempty)).head
    (.arrive _ _)
  have hfollows : (bytes "ann", []) ∈ (followStore (bytes "ann") []).subscriptions :=
    Finset.mem_insert_self _ _
  exact ((h _ hrun).safe _ _ hfollows hann).1 rfl

end Example

end Img2Web
