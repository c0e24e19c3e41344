import Img2Web.Text.Extraction
import Img2Web.Interaction.Pool
import Img2Web.Model.Client

/-!
The four request handlers of `img2web.cpp`. A response starts with status 200
and an empty body; `setStatus`, `setContentType` and `write` change it. The
arguments of a request are a map from names to byte strings, and `getArg` gives
the empty string for a missing one.
-/

namespace Img2Web

open Text Interaction

abbrev Args := String → Option Bytes

def hasArg (args : Args) (name : String) : Bool := (args name).isSome

def getArg (args : Args) (name : String) : Bytes := (args name).getD []

structure Response where
  status : Nat
  contentType : Option String
  body : Bytes
  deriving DecidableEq

namespace Response

def initial : Response := ⟨200, none, []⟩

def setStatus (r : Response) (status : Nat) : Response := {r with status}

def setContentType (r : Response) (contentType : String) : Response :=
  {r with contentType := some contentType}

def write (r : Response) (body : Bytes) : Response := {r with body := r.body ++ body}

/-- No failure status was set. -/
def Success (r : Response) : Prop := r.status = 200

instance (r : Response) : Decidable r.Success := inferInstanceAs (Decidable (r.status = 200))

end Response

open Response

/-- The object an image takes in the feed, without a separator. -/
def feedItem (item : ImageDescription) : Bytes :=
  bytes "\x7b\"owner\":\"" ++ item.postedBy ++ bytes "\", \"image\": \"" ++
    item.image ++ bytes "\"\x7d"

/-- The body `GetFeed` writes. The loop condition `i + 1 < desc.size()` covers
every item but the last, which is appended without a comma. -/
def feedBody (desc : List ImageDescription) : Bytes :=
  let res := bytes "\x7b \"items\" : ["
  let res := desc.dropLast.foldl (fun res item => res ++ (feedItem item ++ bytes ",")) res
  let res := match desc.getLast? with
    | some back => res ++ feedItem back
    | none => res
  res ++ bytes " ] \x7d"

def ShowUsers.handleRequest : Client Response := do
  match ← getUsers with
  | .error _ => return initial.setStatus 404
  | .ok v => return (initial.setContentType "text/plain").write (joinUsers v)

def PostImage.handleRequest (args : Args) : Client Response := do
  if !hasArg args "login" || !hasArg args "image" then
    return initial.setStatus 404
  else
    registerSelf (getArg args "login")
    match ← postImage (getArg args "login") (getArg args "image") with
    | .error _ => return initial.setStatus 404
    | .ok _ => return (initial.setContentType "text/plain").write (bytes "POST!")

/-- The limit `GetFeed` passes on. Nothing puts failures into the stream's
exception mask, so the `catch` branch is there but never taken. -/
def GetFeed.top (args : Args) : Nat :=
  if hasArg args "top" then
    match extract false (getArg args "top") 10 with
    | .ok top => top
    | .error () => 10
  else 10

def GetFeed.handleRequest (args : Args) : Client Response := do
  if !hasArg args "login" then
    return initial.setStatus 404
  else
    let top := GetFeed.top args
    registerSelf (getArg args "login")
    match ← getFeed (getArg args "login") top with
    | .error _ => return initial.setStatus 404
    | .ok desc => return (initial.setContentType "application/json").write (feedBody desc)

/-- Missing arguments are only logged: the response keeps its status. -/
def SubscribeTo.handleRequest (args : Args) : Client Response := do
  if !hasArg args "login" || !hasArg args "to" then
    return initial
  else
    registerSelf (getArg args "login")
    match ← execQuery (.insertSubscription (getArg args "login") (getArg args "to")) with
    | .error _ => return initial.setStatus 404
    | .ok _ => return (initial.setContentType "text/plain").write (bytes "SUBSCRIBED!")

inductive Request where
  | showUsers
  | postImage (args : Args)
  | getFeed (args : Args)
  | subscribeTo (args : Args)

namespace Request

def handleRequest : Request → Client Response
  | .showUsers => ShowUsers.handleRequest
  | .postImage args => PostImage.handleRequest args
  | .getFeed args => GetFeed.handleRequest args
  | .subscribeTo args => SubscribeTo.handleRequest args

/-- The login a request acts for. -/
def login : Request → Bytes
  | .showUsers => []
  | .postImage args | .getFeed args | .subscribeTo args => getArg args "login"

/-- A `PostImage`, `GetFeed` or `SubscribeTo` request with all the arguments
its handler requires. -/
def Complete : Request → Prop
  | .showUsers => False
  | .postImage args => hasArg args "login" ∧ hasArg args "image"
  | .getFeed args => hasArg args "login"
  | .subscribeTo args => hasArg args "login" ∧ hasArg args "to"

end Request

namespace Response

def notFound : Response := initial.setStatus 404

def users (v : List Bytes) : Response :=
  (initial.setContentType "text/plain").write (joinUsers v)

def posted : Response := (initial.setContentType "text/plain").write (bytes "POST!")

def items (desc : List ImageDescription) : Response :=
  (initial.setContentType "application/json").write (feedBody desc)

def subscribed : Response :=
  (initial.setContentType "text/plain").write (bytes "SUBSCRIBED!")

theorem notFound_not_success : ¬ notFound.Success := by decide

theorem items_success (desc : List ImageDescription) : (items desc).Success := rfl

end Response

/-! Each handler as the sequence of its calls. -/

theorem ShowUsers.handleRequest_eq :
    ShowUsers.handleRequest = .call .selectUsers fun r => .ret (match r with
      | .error _ => notFound
      | .ok rows => .users (rows.map fun row => getString (columnByName row .login))) := by
  simp only [ShowUsers.handleRequest, getUsers, execQuery, Program.send_bind,
    Program.call_bind]
  congr 1
  funext r
  cases r <;> rfl

theorem PostImage.handleRequest_eq {args : Args} (h : (Request.postImage args).Complete) :
    PostImage.handleRequest args =
      .call (.insertUser (getArg args "login")) fun _ =>
      .call (.insertSubscription (getArg args "login") (getArg args "login")) fun _ =>
      .call (.insertImage (getArg args "login") (getArg args "image")) fun r =>
        .ret (match r with
          | .error _ => notFound
          | .ok _ => posted) := by
  obtain ⟨hlogin, himage⟩ := h
  simp only [PostImage.handleRequest, hlogin, himage, registerSelf, execQuery, postImage,
    Bool.not_true, Bool.or_self, Bool.false_eq_true, if_false, Program.send_bind,
    Program.call_bind, Program.pure_eq, Program.ret_bind]
  congr 1; funext _
  congr 1; funext _
  congr 1; funext r
  cases r <;> rfl

theorem GetFeed.handleRequest_eq {args : Args} (h : (Request.getFeed args).Complete) :
    GetFeed.handleRequest args =
      .call (.insertUser (getArg args "login")) fun _ =>
      .call (.insertSubscription (getArg args "login") (getArg args "login")) fun _ =>
      .call (.selectSubscriptions .loginTo .loginFrom (getArg args "login")) fun r =>
        match r with
        | .error _ => .ret notFound
        | .ok rows =>
            .call (.selectFeed (rows.map fun row => getString (columnByName row .loginTo))
              (GetFeed.top args)) fun r => .ret (match r with
                | .error _ => notFound
                | .ok rows => .items (rows.map fun row =>
                    ⟨getString (columnByName row .login),
                      getString (columnByName row .img)⟩)) := by
  have hlogin : hasArg args "login" = true := h
  simp only [GetFeed.handleRequest, hlogin, registerSelf, execQuery, getFeed,
    getSubscriptionsCommon, Bool.not_true, Bool.false_eq_true, if_false,
    Program.send_bind, Program.call_bind, Program.pure_eq, Program.ret_bind]
  congr 1; funext _
  congr 1; funext _
  congr 1; funext r
  cases r with
  | error rc => rfl
  | ok rows =>
      simp only [Program.ret_bind, Program.call_bind]
      congr 1; funext r
      cases r <;> rfl

theorem SubscribeTo.handleRequest_eq {args : Args}
    (h : (Request.subscribeTo args).Complete) :
    SubscribeTo.handleRequest args =
      .call (.insertUser (getArg args "login")) fun _ =>
      .call (.insertSubscription (getArg args "login") (getArg args "login")) fun _ =>
      .call (.insertSubscription (getArg args "login") (getArg args "to")) fun r =>
        .ret (match r with
          | .error _ => notFound
          | .ok _ => subscribed) := by
  obtain ⟨hlogin, hto⟩ := h
  simp only [SubscribeTo.handleRequest, hlogin, hto, registerSelf, execQuery,
    Bool.not_true, Bool.or_self, Bool.false_eq_true, if_false, Program.send_bind,
    Program.call_bind, Program.pure_eq, Program.ret_bind]
  congr 1; funext _
  congr 1; funext _
  congr 1; funext r
  cases r <;> rfl

/-! A request without its required arguments ends at once. -/

theorem PostImage.handleRequest_incomplete {args : Args}
    (h : ¬ (Request.postImage args).Complete) :
    PostImage.handleRequest args = .ret notFound := by
  have hmissing : (!hasArg args "login" || !hasArg args "image") = true := by
    simpa [Request.Complete, imp_iff_not_or] using h
  simp [PostImage.handleRequest, hmissing, notFound]

theorem GetFeed.handleRequest_incomplete {args : Args}
    (h : ¬ (Request.getFeed args).Complete) :
    GetFeed.handleRequest args = .ret notFound := by
  have hmissing : (!hasArg args "login") = true := by
    simpa [Request.Complete] using h
  simp [GetFeed.handleRequest, hmissing, notFound]

/-- Unlike the others, `SubscribeTo` sets no failure status here. -/
theorem SubscribeTo.handleRequest_incomplete {args : Args}
    (h : ¬ (Request.subscribeTo args).Complete) :
    SubscribeTo.handleRequest args = .ret initial := by
  have hmissing : (!hasArg args "login" || !hasArg args "to") = true := by
    simpa [Request.Complete, imp_iff_not_or] using h
  simp [SubscribeTo.handleRequest, hmissing]

/-! The three handlers that take arguments have one shape: refuse a request
that lacks some, register its login, and go on with its own calls. -/

/-- What a request does once its login is registered. -/
def Request.own : Request → Client Response
  | .showUsers => ShowUsers.handleRequest
  | .postImage args =>
      .call (.insertImage (getArg args "login") (getArg args "image")) fun r =>
        .ret (match r with
          | .error _ => notFound
          | .ok _ => posted)
  | .getFeed args =>
      .call (.selectSubscriptions .loginTo .loginFrom (getArg args "login")) fun r =>
        match r with
        | .error _ => .ret notFound
        | .ok rows =>
            .call (.selectFeed (rows.map fun row => getString (columnByName row .loginTo))
              (GetFeed.top args)) fun r => .ret (match r with
                | .error _ => notFound
                | .ok rows => .items (rows.map fun row =>
                    ⟨getString (columnByName row .login),
                      getString (columnByName row .img)⟩))
  | .subscribeTo args =>
      .call (.insertSubscription (getArg args "login") (getArg args "to")) fun r =>
        .ret (match r with
          | .error _ => notFound
          | .ok _ => subscribed)

theorem Request.handleRequest_complete {r : Request} (h : r.Complete) :
    r.handleRequest = registerSelf r.login >>= fun _ => r.own := by
  cases r with
  | showUsers => exact h.elim
  | postImage args => exact PostImage.handleRequest_eq h
  | getFeed args => exact GetFeed.handleRequest_eq h
  | subscribeTo args => exact SubscribeTo.handleRequest_eq h

/-- Of the requests that lack an argument only a `SubscribeTo` ends without a
failure status. -/
theorem Request.handleRequest_incomplete {r : Request} (h : ¬ r.Complete) :
    r = .showUsers ∨ ∃ resp, r.handleRequest = .ret resp ∧
      (resp.Success → ∃ args, r = .subscribeTo args) := by
  cases r with
  | showUsers => exact Or.inl rfl
  | postImage args =>
      refine Or.inr ⟨_, PostImage.handleRequest_incomplete h, ?_⟩
      exact fun hsuccess => absurd hsuccess notFound_not_success
  | getFeed args =>
      refine Or.inr ⟨_, GetFeed.handleRequest_incomplete h, ?_⟩
      exact fun hsuccess => absurd hsuccess notFound_not_success
  | subscribeTo args =>
      exact Or.inr ⟨_, SubscribeTo.handleRequest_incomplete h, fun _ => ⟨args, rfl⟩⟩

theorem issues_registerSelf (login : Bytes) (q : Query) :
    (registerSelf login).Issues q ↔
      q = .insertUser login ∨ q = .insertSubscription login login := by
  simp [registerSelf, execQuery]

/-- The pool of requests being handled over one keyspace. -/
abbrev Server := Pool Request Store Query Reply Response

end Img2Web
