import Img2Web.Concurrency.Services

/-!
What a feed shows. `getFeed` reads the subscriptions and the images in two
queries, and other requests write both tables before, between and after them,
so a feed belongs to no single moment of the store. It is the newest images, at
one moment, of the authors followed at an earlier one. As rows are never
removed, that leaves it between what was stored when the request began and what
is stored when it ends.
-/

namespace Img2Web

open Text Interaction

/-- The authors `login` is subscribed to. -/
def Store.followed (s : Store) (login : Bytes) : Finset Bytes :=
  (s.subscriptions.filter fun pair => pair.1 = login).image Prod.snd

theorem Store.mem_followed {s : Store} {login author : Bytes} :
    author ∈ s.followed login ↔ (login, author) ∈ s.subscriptions := by
  simp [Store.followed]

theorem mem_subscriptionsWhere {s : Store} {login : Bytes} {pair : Bytes × Bytes} :
    pair ∈ s.subscriptionsWhere .loginFrom login ↔
      pair ∈ s.subscriptions ∧ pair.1 = login := by
  simp [Store.subscriptionsWhere, subscriptionRow]

/-- The query reads every followed author once. -/
theorem enumerates_followed {s : Store} {login : Bytes} {pairs : List (Bytes × Bytes)}
    (h : Enumerates pairs (s.subscriptionsWhere .loginFrom login)) :
    Enumerates (pairs.map Prod.snd) (s.followed login) where
  nodup := by
    refine h.nodup.map_on ?_
    intro pair hpair pair' hpair' heq
    have hfirst := (mem_subscriptionsWhere.mp ((h.mem_iff pair).mp hpair)).2
    have hfirst' := (mem_subscriptionsWhere.mp ((h.mem_iff pair').mp hpair')).2
    exact Prod.ext (hfirst.trans hfirst'.symm) heq
  mem_iff := by
    intro author
    rw [Store.mem_followed, List.mem_map]
    constructor
    · rintro ⟨pair, hpair, rfl⟩
      obtain ⟨hmem, rfl⟩ := mem_subscriptionsWhere.mp ((h.mem_iff pair).mp hpair)
      exact hmem
    · intro hmem
      exact ⟨_, (h.mem_iff _).mpr (mem_subscriptionsWhere.mpr ⟨hmem, rfl⟩), rfl⟩

/-- The rows of a feed read between two states of the store: the newest images
in `images` of the authors followed in `authors`, an earlier state. -/
def FeedBetween (start finish : Store) (login : Bytes) (limit : Nat)
    (rows : List ImageRow) : Prop :=
  ∃ authors images logins, start.Later authors ∧
    authors.Later images ∧ images.Later finish ∧
    Enumerates logins (authors.followed login) ∧
    NewestFirst (images.imagesIn logins) limit rows

section Sandwich

variable {start finish : Store} {login : Bytes} {limit : Nat} {rows : List ImageRow}

/-- Everything listed is stored, and its author is followed. -/
theorem FeedBetween.upper (h : FeedBetween start finish login limit rows) :
    ∀ r ∈ rows, r ∈ finish.images ∧ (login, r.login) ∈ finish.subscriptions := by
  obtain ⟨authors, images, logins, -, hbetween, hafter, hlogins, hrows⟩ := h
  intro r hr
  obtain ⟨himage, hlogin⟩ := Finset.mem_filter.mp (hrows.subset r hr)
  have hfollowed := Store.mem_followed.mp ((hlogins.mem_iff _).mp hlogin)
  exact ⟨hafter.images himage, (hbetween.trans hafter).subscriptions hfollowed⟩

/-- An image that was stored at the start, by an author followed at the start,
is listed unless `limit` newer ones are. -/
theorem FeedBetween.lower (h : FeedBetween start finish login limit rows) :
    ∀ r ∈ start.images, (login, r.login) ∈ start.subscriptions → r ∉ rows →
      rows.length = limit ∧ ∀ r' ∈ rows, r.ts < r'.ts := by
  obtain ⟨authors, images, logins, hbefore, hbetween, -, hlogins, hrows⟩ := h
  intro r hr hfollowed hnot
  have hlogin : r.login ∈ logins := by
    apply (hlogins.mem_iff _).mpr
    exact Store.mem_followed.mpr (hbefore.subscriptions hfollowed)
  have himage : r ∈ images.images := (hbefore.trans hbetween).images hr
  exact hrows.complete (Finset.mem_filter.mpr ⟨himage, hlogin⟩) hnot

theorem FeedBetween.sorted (h : FeedBetween start finish login limit rows) :
    rows.Pairwise (fun r r' => r'.ts < r.ts) := by
  obtain ⟨_, _, _, -, -, -, -, hrows⟩ := h
  exact hrows.sorted

theorem FeedBetween.length_le (h : FeedBetween start finish login limit rows) :
    rows.length ≤ limit := by
  obtain ⟨_, _, _, -, -, -, -, hrows⟩ := h
  exact hrows.length_le

end Sandwich

/-- What the rest of the handler answers, at any time after the request began.
Each of its two replies is either an error, which ends the request with 404, or
what the table says at that moment. -/
theorem GetFeed.own_meets (i : Request) (args : Args) {start s : Store}
    (hstart : start.Later s) :
    (Request.own (.getFeed args)).Meets risingProtocol i
      (fun resp finish => resp.Success → ∃ rows,
        resp = .items (rows.map ImageRow.description) ∧
        FeedBetween start finish (getArg args "login") (GetFeed.top args) rows) s := by
  refine Program.Meets.call fun s₁ h₁ => ⟨trivial, fun t₁ r₁ hr₁ => ?_⟩
  cases r₁ with
  | error rc =>
      exact Program.Meets.ret fun _ _ hsuccess => absurd hsuccess Response.notFound_not_success
  | ok rows₁ =>
      obtain ⟨rfl, pairs, hpairs, rfl⟩ := executes_selectSubscriptions.mp (faulty_ok hr₁)
      simp only [read_loginTo]
      refine Program.Meets.call fun s₂ h₂ => ⟨trivial, fun t₂ r₂ hr₂ => ?_⟩
      refine Program.Meets.ret fun finish hfinish hsuccess => ?_
      cases r₂ with
      | error rc => exact absurd hsuccess Response.notFound_not_success
      | ok rows₂ =>
          obtain ⟨rfl, rows, hrows, rfl⟩ := executes_selectFeed.mp (faulty_ok hr₂)
          have hauthors : start.Later t₁ := hstart.trans h₁
          refine ⟨rows, by simp only [read_images], ?_⟩
          exact ⟨t₁, t₂, _, hauthors, h₂, hfinish, enumerates_followed hpairs, hrows⟩

/-- The handler's contract, from the state in which it is called. How its
registration goes does not matter. -/
theorem GetFeed.meets (i : Request) (args : Args) (start : Store) :
    (GetFeed.handleRequest args).Meets risingProtocol i
      (fun resp finish => resp.Success → ∃ rows,
        resp = .items (rows.map ImageRow.description) ∧
        FeedBetween start finish (getArg args "login") (GetFeed.top args) rows) start := by
  by_cases hcomplete : (Request.getFeed args).Complete
  · have hregistered : (registerSelf (getArg args "login")).Meets risingProtocol i
        (fun _ s => start.Later s) start :=
      Program.Meets.stable (fun _ _ _ => trivial) (fun h hs => hs.trans h) _ (.refl start)
    have hprogram := Request.handleRequest_complete hcomplete
    rw [Request.handleRequest] at hprogram
    rw [hprogram]
    exact hregistered.bind fun _ _ hlater => GetFeed.own_meets i args hlater
  · rw [GetFeed.handleRequest_incomplete hcomplete]
    exact Program.Meets.ret fun _ _ hsuccess => absurd hsuccess Response.notFound_not_success

section Runs

variable {c c' : Server} {args : Args} {resp : Response}

/-- A feed that is answered was read between its arrival and its end. -/
theorem feed_between
    (hrun : Pool.Run (fun _ => faulty risingClock) Request.handleRequest
      (c.arrive Request.handleRequest (.getFeed args)) c')
    (hended : c'.clients[c.clients.length]? = some (.getFeed args, .ret resp))
    (hsuccess : resp.Success) :
    ∃ rows : List ImageRow, resp = .items (rows.map ImageRow.description) ∧
      FeedBetween c.state c'.state (getArg args "login") (GetFeed.top args) rows := by
  have hmain (i : Request) (s : Store) :
      i.handleRequest.Meets risingProtocol i (fun _ _ => True) s :=
    Program.Meets.trivial (fun _ _ _ => trivial) _ s
  have hkept : c.Kept risingProtocol (fun _ _ _ => True) :=
    fun _ _ p _ => Program.Meets.trivial (fun _ _ _ => trivial) p _
  have hcontract := Pool.Run.arrived hmain hrun hkept
    (GetFeed.meets (.getFeed args) args c.state) hended
  exact hcontract hsuccess

end Runs

section Example

def annArgs : Args := fun name => if name = "login" then some (bytes "ann") else none

def annImage : ImageRow := ⟨bytes "ann", 1, bytes "YQ=="⟩

end Example

end Img2Web
