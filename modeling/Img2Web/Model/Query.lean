import Img2Web.Cql.Literal

/-!
The statements of `cassandra_db.cpp` and `img2web.cpp`: what each one asks for,
and the text handed to `execQuery`. Arguments are pasted between quotes as they
are. `tokens` is the statement that was meant: its fixed words and symbols, and
one string literal for each argument.
-/

namespace Img2Web

open Text Cql

/-- The columns the service reads. -/
inductive Column where
  | login
  | loginFrom
  | loginTo
  | img
  deriving DecidableEq

def Column.name : Column → String
  | .login => "login"
  | .loginFrom => "login_from"
  | .loginTo => "login_to"
  | .img => "img"

inductive Query where
  | insertUser (login : Bytes)
  | insertSubscription (loginFrom loginTo : Bytes)
  | insertImage (login base64 : Bytes)
  | selectUsers
  | selectSubscriptions (first scd : Column) (login : Bytes)
  | selectFeed (logins : List Bytes) (limit : Nat)
  deriving DecidableEq

/-- `JoinUsers`. The loop condition `i + 1 < v.size()` covers every element
but the last, which is appended without a comma. -/
def joinUsers (v : List Bytes) : Bytes :=
  let result := bytes "("
  let result := v.dropLast.foldl
    (fun result user => result ++ (bytes "'" ++ user ++ bytes "',")) result
  let result := match v.getLast? with
    | some back => result ++ (bytes "'" ++ back ++ bytes "'")
    | none => result
  result ++ bytes ")"

/-- The text of a statement, as its call site builds it. -/
def Query.text : Query → Bytes
  | .insertUser login =>
      bytes "insert into img2web.users (login) VALUES ('" ++ login ++ bytes "');"
  | .insertSubscription loginFrom loginTo =>
      bytes "insert into img2web.subscriptions (login_from, login_to) VALUES ('" ++
        loginFrom ++ bytes "','" ++ loginTo ++ bytes "');"
  | .insertImage login base64 =>
      bytes "INSERT INTO img2web.images (login, ts, img) VALUES ('" ++ login ++
        bytes "', now(),'" ++ base64 ++ bytes "');"
  | .selectUsers => bytes "SELECT login FROM img2web.users;"
  | .selectSubscriptions first scd login =>
      bytes "SELECT " ++ bytes first.name ++ bytes " FROM img2web.subscriptions  WHERE " ++
        bytes scd.name ++ bytes " = '" ++ login ++ bytes "';"
  | .selectFeed logins limit =>
      bytes "SELECT * from img2web.images WHERE login IN " ++ joinUsers logins ++
        bytes " ORDER BY ts DESC LIMIT " ++ decimal limit ++ bytes ";"

/-- The arguments a statement carries as string literals. -/
def Query.args : Query → List Bytes
  | .insertUser login => [login]
  | .insertSubscription loginFrom loginTo => [loginFrom, loginTo]
  | .insertImage login base64 => [login, base64]
  | .selectUsers => []
  | .selectSubscriptions _ _ login => [login]
  | .selectFeed logins _ => logins

def word (s : String) : Token := .word (bytes s)

def symbol (c : Char) : Token := .symbol (UInt8.ofNat c.toNat)

/-- A parenthesised, comma-separated list of string literals. -/
def listTokens : List Bytes → List Token
  | [] => [symbol '(', symbol ')']
  | s :: rest => symbol '(' :: .literal s ::
      (rest.flatMap fun t => [symbol ',', .literal t]) ++ [symbol ')']

def Query.tokens : Query → List Token
  | .insertUser login =>
      [word "insert", word "into", word "img2web", symbol '.', word "users",
        symbol '(', word "login", symbol ')', word "values",
        symbol '(', .literal login, symbol ')', symbol ';']
  | .insertSubscription loginFrom loginTo =>
      [word "insert", word "into", word "img2web", symbol '.', word "subscriptions",
        symbol '(', word "login_from", symbol ',', word "login_to", symbol ')',
        word "values", symbol '(', .literal loginFrom, symbol ',', .literal loginTo,
        symbol ')', symbol ';']
  | .insertImage login base64 =>
      [word "insert", word "into", word "img2web", symbol '.', word "images",
        symbol '(', word "login", symbol ',', word "ts", symbol ',', word "img",
        symbol ')', word "values", symbol '(', .literal login, symbol ',',
        word "now", symbol '(', symbol ')', symbol ',', .literal base64,
        symbol ')', symbol ';']
  | .selectUsers =>
      [word "select", word "login", word "from", word "img2web", symbol '.',
        word "users", symbol ';']
  | .selectSubscriptions first scd login =>
      [word "select", word first.name, word "from", word "img2web", symbol '.',
        word "subscriptions", word "where", word scd.name, symbol '=',
        .literal login, symbol ';']
  | .selectFeed logins limit =>
      [word "select", symbol '*', word "from", word "img2web", symbol '.',
        word "images", word "where", word "login", word "in"] ++ listTokens logins ++
        [word "order", word "by", word "ts", word "desc", word "limit",
          .number limit, symbol ';']

/-- Cassandra refuses a statement that names an empty partition key. -/
def Query.namesEmptyKey : Query → Prop
  | .insertUser login => login = []
  | .insertSubscription loginFrom _ => loginFrom = []
  | .insertImage login _ => login = []
  | .selectUsers => False
  | .selectSubscriptions _ scd login => scd = .loginFrom ∧ login = []
  | .selectFeed logins _ => [] ∈ logins

@[simp] theorem word_inj {s t : String} : word s = word t ↔ s = t := by
  simp [word]

theorem listTokens_literals (v : List Bytes) :
    (listTokens v).filterMap Token.literal? = v := by
  cases v with
  | nil => rfl
  | cons s rest =>
      have hrest : (rest.flatMap fun t => [symbol ',', .literal t]).filterMap
          Token.literal? = rest := by
        induction rest with
        | nil => rfl
        | cons t rest ih => exact congrArg (t :: ·) ih
      rw [listTokens, List.filterMap_append, ← List.append_nil (s :: rest)]
      exact congrArg (fun l => s :: l ++ []) hrest

theorem listTokens_numbers (v : List Bytes) :
    (listTokens v).filterMap Token.number? = [] := by
  cases v with
  | nil => rfl
  | cons s rest =>
      have hrest : (rest.flatMap fun t => [symbol ',', .literal t]).filterMap
          Token.number? = [] := by
        induction rest with
        | nil => rfl
        | cons t rest ih => exact ih
      rw [listTokens, List.filterMap_append]
      exact congrArg (· ++ []) hrest

/-- The literals of a statement's tokens are its arguments. -/
theorem Query.tokens_literals (q : Query) :
    q.tokens.filterMap Token.literal? = q.args := by
  cases q with
  | selectFeed logins limit =>
      rw [Query.tokens, List.filterMap_append, List.filterMap_append, listTokens_literals]
      exact List.append_nil logins
  | _ => rfl

theorem Column.name_injective : Function.Injective Column.name := by
  intro c d h
  cases c <;> cases d <;> first | rfl | simp [Column.name] at h

/-- No two statements have the same tokens. -/
theorem Query.tokens_injective : Function.Injective Query.tokens := by
  intro q q' h
  have hargs : q.args = q'.args := by
    rw [← q.tokens_literals, ← q'.tokens_literals, h]
  cases q <;> cases q'
  case selectFeed.selectFeed logins limit logins' limit' =>
    have hnumbers := congrArg (List.filterMap Token.number?) h
    simp only [Query.tokens, List.filterMap_append, listTokens_numbers] at hnumbers
    obtain rfl : limit = limit' := (List.cons.inj hnumbers).1
    obtain rfl : logins = logins' := hargs
    rfl
  case selectSubscriptions.selectSubscriptions =>
    simp only [Query.tokens, List.cons.injEq, word_inj, Column.name_injective.eq_iff] at h
    simp only [Query.args, List.cons.injEq] at hargs
    simp [h, hargs]
  all_goals first
    | rfl
    | (simp [Query.tokens, symbol] at h; done)
    | (simp only [Query.args, List.cons.injEq] at hargs; simp [hargs])

end Img2Web
