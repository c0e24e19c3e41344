import Img2Web.Statements.UserList
import Img2Web.Model.Handlers

/-!
What Cassandra reads when a statement text arrives. Each statement is a
template whose slots are filled with the arguments as they are, so one fact
about templates and one about user lists settle all of them: a text is read as
the statement that was meant exactly when no argument has a single quote.
-/

namespace Img2Web

open Text Cql Interaction

section Templates

/-- The end of a `VALUES` list. -/
def valuesEnd : Tail := ⟨bytes ");", [symbol ')', symbol ';'], rfl, by decide⟩

def insertUserTemplate : Template where
  head := ⟨bytes "insert into img2web.users (login) VALUES ('",
    [word "insert", word "into", word "img2web", symbol '.', word "users",
      symbol '(', word "login", symbol ')', word "values", symbol '('], rfl, by decide⟩
  gaps := []
  tail := valuesEnd

def insertSubscriptionTemplate : Template where
  head := ⟨bytes "insert into img2web.subscriptions (login_from, login_to) VALUES ('",
    [word "insert", word "into", word "img2web", symbol '.', word "subscriptions",
      symbol '(', word "login_from", symbol ',', word "login_to", symbol ')',
      word "values", symbol '('], rfl, by decide⟩
  gaps := [comma]
  tail := valuesEnd

def insertImageTemplate : Template where
  head := ⟨bytes "INSERT INTO img2web.images (login, ts, img) VALUES ('",
    [word "insert", word "into", word "img2web", symbol '.', word "images",
      symbol '(', word "login", symbol ',', word "ts", symbol ',', word "img",
      symbol ')', word "values", symbol '('], rfl, by decide⟩
  gaps := [⟨bytes ", now(),'", [symbol ',', word "now", symbol '(', symbol ')', symbol ','],
    rfl, by decide⟩]
  tail := valuesEnd

def selectSubscriptionsTemplate (first scd : Column) : Template where
  head := {
    text := bytes "SELECT " ++ bytes first.name ++ bytes " FROM img2web.subscriptions  WHERE " ++
      bytes scd.name ++ bytes " = '"
    tokens := [word "select", word first.name, word "from", word "img2web", symbol '.',
      word "subscriptions", word "where", word scd.name, symbol '=']
    opens := by cases first <;> cases scd <;> rfl
    unquoted := by
      change some (83 : UInt8) ≠ some quote
      decide
  }
  gaps := []
  tail := ⟨bytes ";", [symbol ';'], rfl, by decide⟩

end Templates

/-- The text after the user list of the feed statement. -/
theorem lexFrom_feedEnd (limit : Nat) :
    lexFrom .start (bytes " ORDER BY ts DESC LIMIT " ++ (decimal limit ++ bytes ";")) =
      some [word "order", word "by", word "ts", word "desc", word "limit",
        .number limit, symbol ';'] := by
  have horder : scan .start (bytes " ORDER BY ts DESC LIMIT ") =
      (.start, [word "order", word "by", word "ts", word "desc", word "limit"]) := rfl
  have hlimit : lexFrom (.number limit) (bytes ";") = some [.number limit, symbol ';'] := rfl
  refine (lexFrom_append_iff horder _ [.number limit, symbol ';']).mpr ?_
  exact (lexFrom_append_iff (scan_decimal limit) _ _).mpr hlimit

/-- A statement text is read as the statement that was meant exactly when no
argument has a single quote. -/
theorem Query.lex_text_iff (q : Query) :
    lex q.text = some q.tokens ↔ ∀ a ∈ q.args, quote ∉ a := by
  cases q with
  | insertUser login =>
      have h := insertUserTemplate.lex_fill_iff (List.length_nil (α := Bytes)) login
      rw [Query.text, List.append_assoc]
      apply h.trans
      simp [Query.args]
  | insertSubscription loginFrom loginTo =>
      have h := insertSubscriptionTemplate.lex_fill_iff
        (List.length_singleton (a := loginFrom)) loginTo
      rw [Query.text, List.append_assoc, List.append_assoc, List.append_assoc]
      apply h.trans
      simp [Query.args]
  | insertImage login base64 =>
      have h := insertImageTemplate.lex_fill_iff (List.length_singleton (a := login)) base64
      rw [Query.text, List.append_assoc, List.append_assoc, List.append_assoc]
      apply h.trans
      simp [Query.args]
  | selectUsers =>
      have h : lex Query.selectUsers.text = some Query.selectUsers.tokens := rfl
      simp [h, Query.args]
  | selectSubscriptions first scd login =>
      have h := (selectSubscriptionsTemplate first scd).lex_fill_iff
        (List.length_nil (α := Bytes)) login
      rw [Query.text, List.append_assoc]
      apply h.trans
      simp [Query.args]
  | selectFeed logins limit =>
      have hfront : scan .start (bytes "SELECT * from img2web.images WHERE login IN ") =
          (.start, [word "select", symbol '*', word "from", word "img2web", symbol '.',
            word "images", word "where", word "login", word "in"]) := rfl
      have h := lexFrom_joinUsers_iff (lexFrom_feedEnd limit) logins
      rw [Query.args, ← h, lex, Query.text, Query.tokens, List.append_assoc,
        List.append_assoc, List.append_assoc, List.append_assoc]
      apply lexFrom_append_iff hfront

/-- The places that hand a statement to `execQuery` for a request. -/
inductive CallSite where
  | registerUser
  | subscribeSelf
  | subscribeTo
  | postImage
  | getSubscriptions (toFlag : Bool)

def CallSite.statement (args : Args) : CallSite → Query
  | .registerUser => .insertUser (getArg args "login")
  | .subscribeSelf => .insertSubscription (getArg args "login") (getArg args "login")
  | .subscribeTo => .insertSubscription (getArg args "login") (getArg args "to")
  | .postImage => .insertImage (getArg args "login") (getArg args "image")
  | .getSubscriptions true => .selectSubscriptions .loginFrom .loginTo (getArg args "login")
  | .getSubscriptions false => .selectSubscriptions .loginTo .loginFrom (getArg args "login")

/-- `RegisterSelf`, `SubscribeTo`, `postImage` or `getSubscriptionsCommon`,
called for these arguments, sends `q`. -/
inductive HandsOver (args : Args) (q : Query) : Prop
  | registerSelf : (registerSelf (getArg args "login")).Issues q → HandsOver args q
  | subscribeTo : (SubscribeTo.handleRequest args).Issues q → HandsOver args q
  | postImage :
      (postImage (getArg args "login") (getArg args "image")).Issues q → HandsOver args q
  | getSubscriptions (toFlag : Bool) :
      (getSubscriptionsCommon (getArg args "login") toFlag).Issues q → HandsOver args q

/-- Which call sites are reached: those of `SubscribeTo` need its arguments. -/
def CallSite.Reached (args : Args) : CallSite → Prop
  | .subscribeTo => (Request.subscribeTo args).Complete
  | _ => True

theorem issues_subscribeTo (args : Args) (q : Query) :
    (SubscribeTo.handleRequest args).Issues q ↔ (Request.subscribeTo args).Complete ∧
      (q = .insertUser (getArg args "login") ∨
        q = .insertSubscription (getArg args "login") (getArg args "login") ∨
        q = .insertSubscription (getArg args "login") (getArg args "to")) := by
  by_cases hcomplete : (Request.subscribeTo args).Complete
  · simp [SubscribeTo.handleRequest_eq hcomplete, hcomplete]
  · simp [SubscribeTo.handleRequest_incomplete hcomplete, hcomplete]

theorem issues_getSubscriptions (args : Args) (toFlag : Bool) (q : Query) :
    (getSubscriptionsCommon (getArg args "login") toFlag).Issues q ↔
      q = (CallSite.getSubscriptions toFlag).statement args := by
  have hsend : ∃ k, getSubscriptionsCommon (getArg args "login") toFlag =
      .call ((CallSite.getSubscriptions toFlag).statement args) k ∧
      ∀ r, ∃ a, k r = .ret a := by
    cases toFlag <;>
    · refine ⟨_, rfl, fun r => ?_⟩
      cases r <;> exact ⟨_, rfl⟩
  obtain ⟨k, hcall, hret⟩ := hsend
  rw [hcall, Program.issues_call, or_iff_left]
  rintro ⟨r, hissues⟩
  obtain ⟨a, ha⟩ := hret r
  rw [ha] at hissues
  exact Program.issues_ret a q hissues

/-- The statements handed over are those of the call sites that are reached. -/
theorem handsOver_iff (args : Args) (q : Query) :
    HandsOver args q ↔ ∃ site : CallSite, site.Reached args ∧ q = site.statement args := by
  constructor
  · intro h
    cases h with
    | registerSelf h =>
        rcases (issues_registerSelf _ q).mp h with rfl | rfl
        · exact ⟨.registerUser, trivial, rfl⟩
        · exact ⟨.subscribeSelf, trivial, rfl⟩
    | subscribeTo h =>
        obtain ⟨hcomplete, rfl | rfl | rfl⟩ := (issues_subscribeTo args q).mp h
        · exact ⟨.registerUser, trivial, rfl⟩
        · exact ⟨.subscribeSelf, trivial, rfl⟩
        · exact ⟨.subscribeTo, hcomplete, rfl⟩
    | postImage h =>
        refine ⟨.postImage, trivial, ?_⟩
        exact (Program.issues_send _ q).mp h
    | getSubscriptions toFlag h =>
        exact ⟨.getSubscriptions toFlag, trivial, (issues_getSubscriptions args toFlag q).mp h⟩
  · rintro ⟨site, hreached, rfl⟩
    cases site with
    | registerUser => exact .registerSelf ((issues_registerSelf _ _).mpr (Or.inl rfl))
    | subscribeSelf => exact .registerSelf ((issues_registerSelf _ _).mpr (Or.inr rfl))
    | subscribeTo =>
        exact .subscribeTo ((issues_subscribeTo args _).mpr ⟨hreached, Or.inr (Or.inr rfl)⟩)
    | postImage => exact .postImage ((Program.issues_send _ _).mpr rfl)
    | getSubscriptions toFlag =>
        exact .getSubscriptions toFlag ((issues_getSubscriptions args toFlag _).mpr rfl)

theorem CallSite.tokens_blank (site : CallSite) (args args' : Args) :
    (site.statement args).tokens.map Token.blank =
      (site.statement args').tokens.map Token.blank := by
  cases site with
  | getSubscriptions toFlag => cases toFlag <;> rfl
  | _ => rfl

/-- What arrives is what was meant, for every statement of a request, exactly
when no argument that reaches a statement has a single quote. Each statement
for itself depends on its own arguments only, and what was meant differs
between two requests in nothing but the values of the literals. -/
theorem statement_integrity_iff (args : Args) :
    ((∀ q, HandsOver args q → lex q.text = some q.tokens) ↔
      quote ∉ getArg args "login" ∧ quote ∉ getArg args "image" ∧
        ((Request.subscribeTo args).Complete → quote ∉ getArg args "to")) ∧
    (∀ q, HandsOver args q → ∃ site : CallSite, q = site.statement args ∧
      (lex q.text = some q.tokens ↔ ∀ a ∈ q.args, quote ∉ a) ∧
      ∀ args', q.tokens.map Token.blank = (site.statement args').tokens.map Token.blank) := by
  refine ⟨⟨?_, ?_⟩, ?_⟩
  · intro h
    have hargs (site : CallSite) (hreached : site.Reached args) :
        ∀ a ∈ (site.statement args).args, quote ∉ a := by
      apply (Query.lex_text_iff _).mp
      exact h _ ((handsOver_iff args _).mpr ⟨site, hreached, rfl⟩)
    have himage := hargs .postImage trivial
    refine ⟨hargs .registerUser trivial _ (List.mem_singleton_self _), ?_, ?_⟩
    · exact himage _ (List.mem_cons_of_mem _ (List.mem_singleton_self _))
    · intro hcomplete
      apply hargs .subscribeTo hcomplete
      exact List.mem_cons_of_mem _ (List.mem_singleton_self _)
  · rintro ⟨hlogin, himage, hto⟩ q hq
    obtain ⟨site, hreached, rfl⟩ := (handsOver_iff args q).mp hq
    apply (Query.lex_text_iff _).mpr
    cases site with
    | getSubscriptions toFlag =>
        cases toFlag <;> simpa [CallSite.statement, Query.args] using hlogin
    | subscribeTo => simpa [CallSite.statement, Query.args] using ⟨hlogin, hto hreached⟩
    | postImage => simpa [CallSite.statement, Query.args] using ⟨hlogin, himage⟩
    | _ => simpa [CallSite.statement, Query.args] using hlogin
  · intro q hq
    obtain ⟨site, -, rfl⟩ := (handsOver_iff args q).mp hq
    exact ⟨site, rfl, Query.lex_text_iff _, fun args' => site.tokens_blank args args'⟩

/-- With a quote in `to` no statement arrives: the text ends inside a literal. -/
theorem statement_integrity_counterexample :
    ¬ ∀ (args : Args) (q : Query), HandsOver args q → lex q.text = some q.tokens := by
  intro h
  let args : Args := fun name =>
    if name = "login" then some (bytes "eve")
    else if name = "to" then some (bytes "o'brien") else none
  have hq : HandsOver args (.insertSubscription (bytes "eve") (bytes "o'brien")) :=
    (handsOver_iff args _).mpr ⟨.subscribeTo, ⟨rfl, rfl⟩, rfl⟩
  have hread : lex (Query.insertSubscription (bytes "eve") (bytes "o'brien")).text = none := by
    decide
  have hmeant := h args _ hq
  rw [hread] at hmeant
  cases hmeant

/-- `JoinUsers` is a faithful encoding of a list exactly when no element has a
single quote, and so is the list that `getFeed` writes after `IN`. Two such
lists never make `ShowUsers` write the same body. -/
theorem joinUsers_faithful_iff (v : List Bytes) :
    (decodeList (joinUsers v) = some v ↔ ∀ s ∈ v, quote ∉ s) ∧
    (∀ limit, lex (Query.selectFeed v limit).text = some (Query.selectFeed v limit).tokens ↔
      ∀ s ∈ v, quote ∉ s) ∧
    ((∀ s ∈ v, quote ∉ s) → ∀ w, (∀ s ∈ w, quote ∉ s) →
      (Response.users w).body = (Response.users v).body → w = v) := by
  refine ⟨decodeList_joinUsers_iff v, fun limit => Query.lex_text_iff _, ?_⟩
  intro hv w hw hbody
  have hsame : joinUsers w = joinUsers v := hbody
  have hdecode := (decodeList_joinUsers_iff w).mpr hw
  rw [hsame, (decodeList_joinUsers_iff v).mpr hv] at hdecode
  exact (Option.some.inj hdecode).symm

/-- One user named `a','b` and two users `a` and `b` are written alike. -/
theorem joinUsers_counterexample :
    ¬ (∀ v, decodeList (joinUsers v) = some v) ∧ ¬ Function.Injective joinUsers := by
  have hsame : joinUsers [bytes "a','b"] = joinUsers [bytes "a", bytes "b"] := rfl
  refine ⟨fun h => ?_, fun h => ?_⟩
  · have hone := h [bytes "a','b"]
    rw [hsame, h [bytes "a", bytes "b"]] at hone
    simp at hone
  · exact absurd (h hsame) (by simp)

end Img2Web
