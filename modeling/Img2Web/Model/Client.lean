import Img2Web.Interaction.Program
import Img2Web.Model.Store

/-!
`CassandraDBClient` of `cassandra_db.cpp`, as programs over `execQuery`. A
function that fills an output vector returns its contents instead; every caller
passes an empty vector. A return code other than `CASS_OK` is an error value,
and it is passed on or dropped exactly where the source does so.
-/

namespace Img2Web

open Text Interaction

abbrev Client := Program Query Reply

structure ImageDescription where
  postedBy : Bytes
  image : Bytes
  deriving DecidableEq

def execQuery (query : Query) : Client Reply := Program.send query

/-- `cass_row_get_column_by_name`: null if the row has no such column. -/
def columnByName (row : CassRow) (column : Column) : Option Bytes := row.lookup column

/-- `cass_value_get_string`; the columns asked for below are always there. -/
def getString (value : Option Bytes) : Bytes := value.getD []

/-- The flag `to` asks who is subscribed to `login`, otherwise to whom `login`
is subscribed. -/
def getSubscriptionsCommon (login : Bytes) (toFlag : Bool) :
    Client (Except CassError (List Bytes)) := do
  let first := if toFlag then Column.loginFrom else Column.loginTo
  let scd := if toFlag then Column.loginTo else Column.loginFrom
  match ← execQuery (.selectSubscriptions first scd login) with
  | .error rc => return .error rc
  | .ok rows => return .ok (rows.map fun row => getString (columnByName row first))

def getUsers : Client (Except CassError (List Bytes)) := do
  match ← execQuery .selectUsers with
  | .error rc => return .error rc
  | .ok rows => return .ok (rows.map fun row => getString (columnByName row .login))

def getFeed (login : Bytes) (limit : Nat) :
    Client (Except CassError (List ImageDescription)) := do
  match ← getSubscriptionsCommon login false with
  | .error rc => return .error rc
  | .ok subscriptions =>
      match ← execQuery (.selectFeed subscriptions limit) with
      | .error rc => return .error rc
      | .ok rows => return .ok (rows.map fun row =>
          ⟨getString (columnByName row .login), getString (columnByName row .img)⟩)

def postImage (login base64 : Bytes) : Client Reply := execQuery (.insertImage login base64)

/-- `RegisterSelf` makes both calls and looks at neither result. -/
def registerSelf (login : Bytes) : Client Unit := do
  let _ ← execQuery (.insertUser login)
  let _ ← execQuery (.insertSubscription login login)
  return ()

theorem registerSelf_eq (login : Bytes) :
    registerSelf login = .call (.insertUser login) fun _ =>
      .call (.insertSubscription login login) fun _ => .ret () := rfl

def ImageRow.description (row : ImageRow) : ImageDescription := ⟨row.login, row.img⟩

/-- Reading the selected column of a subscription row gives that column. -/
theorem read_loginTo (pairs : List (Bytes × Bytes)) :
    ((pairs.map fun pair =>
        (subscriptionRow pair).filter fun entry => entry.1 = Column.loginTo).map
      fun row => getString (columnByName row .loginTo)) = pairs.map Prod.snd := by
  rw [List.map_map]
  rfl

theorem read_users (logins : List Bytes) :
    ((logins.map userRow).map fun row => getString (columnByName row .login)) = logins := by
  rw [List.map_map]
  exact List.map_id logins

theorem read_images (rows : List ImageRow) :
    ((rows.map imageRow).map fun row => (⟨getString (columnByName row .login),
        getString (columnByName row .img)⟩ : ImageDescription)) =
      rows.map ImageRow.description := by
  rw [List.map_map]
  rfl

end Img2Web
