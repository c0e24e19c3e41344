import Img2Web.Concurrency.Services

/-!
Which request writes what. The statements a request sends are fixed by its
arguments, whatever the replies are, so every row of the tables can be traced
to a request. Images need more care, since two requests may post the same one:
the ledger gives every answered `PostImage` a time stamp of its own.
-/

namespace Img2Web

open Text Interaction

/-- The statements the request `r` may send. -/
inductive Request.Sends : Request → Query → Prop
  | users : Sends .showUsers .selectUsers
  | user {r : Request} : r.Complete → Sends r (.insertUser r.login)
  | self {r : Request} : r.Complete → Sends r (.insertSubscription r.login r.login)
  | image {args : Args} : (Request.postImage args).Complete →
      Sends (.postImage args) (.insertImage (getArg args "login") (getArg args "image"))
  | subscription {args : Args} : (Request.subscribeTo args).Complete →
      Sends (.subscribeTo args) (.insertSubscription (getArg args "login") (getArg args "to"))
  | subscriptions {args : Args} : (Request.getFeed args).Complete →
      Sends (.getFeed args) (.selectSubscriptions .loginTo .loginFrom (getArg args "login"))
  | feed {args : Args} (logins : List Bytes) : (Request.getFeed args).Complete →
      Sends (.getFeed args) (.selectFeed logins (GetFeed.top args))

theorem Request.sends_of_own {r : Request} (hcomplete : r.Complete) {q : Query}
    (h : r.own.Issues q) : r.Sends q := by
  cases r with
  | showUsers => exact hcomplete.elim
  | postImage args =>
      obtain rfl : q = .insertImage (getArg args "login") (getArg args "image") := by
        simpa [Request.own] using h
      exact .image hcomplete
  | getFeed args =>
      rcases (Program.issues_call _ _ _).mp h with rfl | ⟨reply, hrest⟩
      · exact .subscriptions hcomplete
      · cases reply with
        | error rc => exact absurd hrest (Program.issues_ret _ _)
        | ok rows =>
            obtain rfl : q = .selectFeed _ (GetFeed.top args) := by simpa using hrest
            exact .feed _ hcomplete
  | subscribeTo args =>
      obtain rfl : q = .insertSubscription (getArg args "login") (getArg args "to") := by
        simpa [Request.own] using h
      exact .subscription hcomplete

theorem Request.sends_of_issues {r : Request} {q : Query} (h : r.handleRequest.Issues q) :
    r.Sends q := by
  by_cases hcomplete : r.Complete
  · rw [Request.handleRequest_complete hcomplete] at h
    rcases Program.issues_bind h with hregister | ⟨_, hown⟩
    · rcases (issues_registerSelf r.login q).mp hregister with rfl | rfl
      · exact .user hcomplete
      · exact .self hcomplete
    · exact Request.sends_of_own hcomplete hown
  · rcases Request.handleRequest_incomplete hcomplete with rfl | ⟨resp, hret, -⟩
    · rw [Request.handleRequest, ShowUsers.handleRequest_eq] at h
      obtain rfl : q = .selectUsers := by simpa using h
      exact .users
    · rw [hret] at h
      exact absurd h (Program.issues_ret _ _)

/-- Everything the request `r` is to write, apart from an image, is stored. -/
structure Effective (r : Request) (s : Store) : Prop where
  complete : r.Complete
  user : r.login ∈ s.users
  self : (r.login, r.login) ∈ s.subscriptions
  subscription : ∀ args, r = .subscribeTo args →
    (r.login, getArg args "to") ∈ s.subscriptions

section Images

/-- Only one reply ends a `PostImage` with success: that to the insertion of
its image, if it is no error. -/
theorem PostImage.posted_iff {args : Args} {q : Query} {k : Reply → Client Response}
    (h : (PostImage.handleRequest args).Residual (.call q k)) (r : Reply) :
    k r = .ret .posted ↔
      q = .insertImage (getArg args "login") (getArg args "image") ∧ ∃ rows, r = .ok rows := by
  by_cases hcomplete : (Request.postImage args).Complete
  · rw [PostImage.handleRequest_eq hcomplete] at h
    simp only [Program.residual_call, Program.residual_ret, Program.call.injEq, exists_const,
      reduceCtorEq, or_false] at h
    obtain ⟨rfl, rfl⟩ | ⟨rfl, rfl⟩ | ⟨rfl, rfl⟩ := h
    · simp
    · simp
    · have hfailed : Response.notFound ≠ .posted := by decide
      cases r with
      | error rc => simp [hfailed]
      | ok rows => simp
  · rw [PostImage.handleRequest_incomplete hcomplete, Program.residual_ret] at h
    cases h

/-- The client `m` is a `PostImage` that was answered with success. -/
def Answered (c : Server) (m : Nat) (args : Args) : Prop :=
  c.clients[m]? = some (.postImage args, .ret .posted)

/-- Only a request with its arguments is answered so. -/
theorem Answered.complete {c : Server} {m : Nat} {args : Args} (h : Answered c m args)
    (hinside : c.Inside Request.handleRequest) : (Request.postImage args).Complete := by
  by_contra hincomplete
  have hprogram := hinside m _ _ h
  rw [Request.handleRequest, PostImage.handleRequest_incomplete hincomplete,
    Program.residual_ret] at hprogram
  have hfailed : Response.posted ≠ .notFound := by decide
  exact hfailed (Program.ret.inj hprogram)

def postedRow (args : Args) (ts : Nat) : ImageRow :=
  ⟨getArg args "login", ts, getArg args "image"⟩

/-- The images stored since `start` are those of the answered `PostImage`
requests, one for each, told apart by their time stamps. -/
structure Ledger (start : Store) (c : Server) (stamp : Nat → Nat) : Prop where
  grows : start.Grows c.state
  stored : ∀ m args, Answered c m args →
    postedRow args (stamp m) ∈ c.state.images ∧ start.Fresh (stamp m)
  injective : ∀ m args m' args', Answered c m args → Answered c m' args' →
    stamp m = stamp m' → m = m'
  origin : ∀ row ∈ c.state.images, row ∈ start.images ∨
    ∃ m args, Answered c m args ∧ row = postedRow args (stamp m)

theorem Ledger.empty (start : Store) : Ledger start (Pool.empty start) id where
  grows := .refl start
  stored _ _ h := by simp [Answered, Pool.empty] at h
  injective _ _ _ _ h := by simp [Answered, Pool.empty] at h
  origin _ hrow := Or.inl hrow

/-- A step that neither adds an image nor answers a `PostImage` keeps the
ledger as it is. -/
theorem Ledger.unchanged {start : Store} {c c' : Server} {stamp : Nat → Nat}
    (h : Ledger start c stamp) (hgrows : c.state.Grows c'.state)
    (himages : c'.state.images = c.state.images)
    (hanswered : ∀ m args, Answered c' m args ↔ Answered c m args) :
    Ledger start c' stamp where
  grows := h.grows.trans hgrows
  stored m args hm := by
    rw [himages]
    exact h.stored m args ((hanswered m args).mp hm)
  injective m args m' args' hm hm' :=
    h.injective m args m' args' ((hanswered m args).mp hm) ((hanswered m' args').mp hm')
  origin row hrow := by
    rw [himages] at hrow
    rcases h.origin row hrow with hstart | ⟨m, args, hm, rfl⟩
    · exact Or.inl hstart
    · exact Or.inr ⟨m, args, (hanswered m args).mpr hm, rfl⟩

/-- Only the insertion of an image changes the images. -/
theorem Executes.images {clock : Store → Nat → Prop} {s t : Store} {q : Query}
    {rows : List CassRow} (h : Executes clock s q t rows)
    (hq : ∀ login base64, q ≠ .insertImage login base64) : t.images = s.images := by
  cases h with
  | insertImage => exact absurd rfl (hq _ _)
  | _ => rfl

theorem answered_arrive {c : Server} {i : Request} {m : Nat} {args : Args} :
    Answered (c.arrive Request.handleRequest i) m args ↔ Answered c m args := by
  have hnotYet : PostImage.handleRequest args ≠ .ret .posted := by
    by_cases hcomplete : (Request.postImage args).Complete
    · simp [PostImage.handleRequest_eq hcomplete]
    · have hfailed : Response.notFound ≠ .posted := by decide
      simp [PostImage.handleRequest_incomplete hcomplete, hfailed]
  rw [Answered, Answered, Pool.arrive_clients]
  by_cases hm : m < c.clients.length
  · rw [List.getElem?_append_left hm]
  · have hlen : c.clients.length ≤ m := Nat.le_of_not_lt hm
    rw [List.getElem?_append_right hlen, List.getElem?_eq_none hlen]
    constructor
    · intro h
      obtain ⟨rfl, hprogram⟩ := Prod.mk.inj (List.mem_singleton.mp (List.mem_of_getElem? h))
      exact absurd hprogram.symm hnotYet
    · intro h
      cases h

/-- After a reply, the client that got it may be answered; the others are as
they were. -/
theorem answered_advance {c : Server} {n : Nat} {i : Request} {q : Query}
    {k : Reply → Client Response} (hn : c.clients[n]? = some (i, .call q k)) (t : Store)
    (p : Client Response) (m : Nat) (args : Args) :
    Answered (c.advance n i t p) m args ↔
      (m = n ∧ i = .postImage args ∧ p = .ret .posted) ∨ Answered c m args := by
  have hwaiting : ¬ Answered c n args := by
    intro h
    rw [Answered, hn] at h
    simp at h
  by_cases hmn : m = n
  · subst hmn
    rw [Answered, Pool.advance_self hn]
    simp [hwaiting]
  · rw [Answered, Pool.advance_other c hmn]
    simp [hmn, Answered]

/-- The insertion of an image answers its client: the new row is its own. -/
theorem Ledger.add {start : Store} {c : Server} {stamp : Nat → Nat}
    (h : Ledger start c stamp) {n : Nat} {args : Args} {q : Query}
    {k : Reply → Client Response} (hn : c.clients[n]? = some (.postImage args, .call q k))
    {ts : Nat} (fresh : c.state.Fresh (postedRow args ts).ts) :
    Ledger start (c.advance n (.postImage args) (c.state.addImage (postedRow args ts) fresh)
      (.ret .posted)) (Function.update stamp n ts) := by
  have hwaiting (args' : Args) : ¬ Answered c n args' := by
    intro h
    rw [Answered, hn] at h
    simp at h
  have hother {m : Nat} {args' : Args} (hm : Answered c m args') :
      Function.update stamp n ts m = stamp m := by
    apply Function.update_of_ne
    rintro rfl
    exact hwaiting args' hm
  have hself : Function.update stamp n ts n = ts := Function.update_self n ts stamp
  have hnew {m : Nat} {args' : Args} (hm : Answered c m args') : stamp m ≠ ts :=
    fresh _ (h.stored m args' hm).1
  have hadded := Finset.mem_insert_self (postedRow args ts) c.state.images
  have hkept {row : ImageRow} (hrow : row ∈ c.state.images) :
      row ∈ insert (postedRow args ts) c.state.images := Finset.mem_insert_of_mem hrow
  refine ⟨?_, ?_, ?_, ?_⟩
  · exact ⟨h.grows.users, h.grows.subscriptions, fun row hrow => hkept (h.grows.images hrow)⟩
  · intro m args' hm
    rcases (answered_advance hn _ _ m args').mp hm with ⟨rfl, hargs, -⟩ | hold
    · obtain rfl := Request.postImage.inj hargs
      rw [hself]
      exact ⟨hadded, fun row hrow => fresh row (h.grows.images hrow)⟩
    · rw [hother hold]
      exact ⟨hkept (h.stored m args' hold).1, (h.stored m args' hold).2⟩
  · intro m args' m' args'' hm hm' hts
    rcases (answered_advance hn _ _ m args').mp hm with ⟨rfl, -, -⟩ | hold
    · rcases (answered_advance hn _ _ m' args'').mp hm' with ⟨rfl, -, -⟩ | hold'
      · rfl
      · rw [hself, hother hold'] at hts
        exact absurd hts.symm (hnew hold')
    · rcases (answered_advance hn _ _ m' args'').mp hm' with ⟨rfl, -, -⟩ | hold'
      · rw [hself, hother hold] at hts
        exact absurd hts (hnew hold)
      · rw [hother hold, hother hold'] at hts
        exact h.injective m args' m' args'' hold hold' hts
  · intro row hrow
    rcases Finset.mem_insert.mp hrow with rfl | hrow
    · refine Or.inr ⟨n, args, (answered_advance hn _ _ n args).mpr ?_, by rw [hself]⟩
      exact Or.inl ⟨rfl, rfl, rfl⟩
    · rcases h.origin row hrow with hstart | ⟨m, args', hm, rfl⟩
      · exact Or.inl hstart
      · refine Or.inr ⟨m, args', (answered_advance hn _ _ m args').mpr (Or.inr hm), ?_⟩
        rw [hother hm]

/-- Every step keeps some ledger, provided that the clients are inside their
own programs. -/
theorem Ledger.step {start : Store} {c c' : Server} {stamp : Nat → Nat}
    (h : Ledger start c stamp) (hinside : c.Inside Request.handleRequest)
    (hstep : Pool.Step (fun _ => faulty anyClock) Request.handleRequest c c') :
    ∃ stamp', Ledger start c' stamp' := by
  cases hstep with
  | arrive i =>
      exact ⟨stamp, h.unchanged (.refl _) rfl fun m args => answered_arrive⟩
  | @turn n i q k t r hn replied =>
      have hsends := Request.sends_of_issues ⟨k, hinside n i _ hn⟩
      by_cases hposts : ∃ args rows, i = .postImage args ∧ r = .ok rows ∧
          q = .insertImage (getArg args "login") (getArg args "image")
      · obtain ⟨args, rows, rfl, rfl, rfl⟩ := hposts
        obtain ⟨⟨ts, fresh, -, rfl⟩, rfl⟩ := executes_insertImage.mp (faulty_ok replied)
        have hk : k (.ok []) = .ret .posted :=
          (PostImage.posted_iff (hinside n _ _ hn) _).mpr ⟨rfl, [], rfl⟩
        rw [hk]
        exact ⟨_, h.add hn fresh⟩
      · refine ⟨stamp, h.unchanged (faulty_grows replied) ?_ ?_⟩
        · rcases replied with ⟨rfl, -⟩ | ⟨rows, rfl, hexec⟩
          · rfl
          · apply hexec.images
            rintro login base64 rfl
            cases hsends with
            | image hcomplete => exact hposts ⟨_, rows, rfl, rfl, rfl⟩
        · intro m args
          rw [answered_advance hn, or_iff_right]
          rintro ⟨rfl, rfl, hk⟩
          obtain ⟨rfl, rows, rfl⟩ := (PostImage.posted_iff (hinside m _ _ hn) r).mp hk
          exact hposts ⟨args, rows, rfl, rfl, rfl⟩

/-- In every reachable state the images are accounted for. -/
theorem exists_ledger {start : Store} {c : Server}
    (hrun : Pool.Run (fun _ => faulty anyClock) Request.handleRequest (Pool.empty start) c) :
    ∃ stamp, Ledger start c stamp := by
  have hboth := hrun.invariant
    (I := fun d => d.Inside Request.handleRequest ∧ ∃ stamp, Ledger start d stamp)
    (fun ⟨hinside, stamp, h⟩ hstep => ⟨hinside.step hstep, h.step hinside hstep⟩)
    ⟨Pool.empty_inside start, id, Ledger.empty start⟩
  exact hboth.2

end Images

end Img2Web
