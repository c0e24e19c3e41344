import Mathlib.Data.Finset.Insert
import Mathlib.Data.Finset.Filter
import Mathlib.Data.Finset.Lattice.Fold
import Mathlib.Data.List.Perm.Subperm
import Img2Web.Model.Query

/-!
The three tables of the keyspace, with the primary keys of the README, and what
Cassandra does with each statement when its arguments are literal values. The
time stamp that `now()` gives an image is chosen by the database: it is one no
stored image has, and `clock` may say more about it. Rows of an unordered
SELECT come in any order.
-/

namespace Img2Web

open Text

structure ImageRow where
  login : Bytes
  ts : Nat
  img : Bytes
  deriving DecidableEq

/-- `users` and `subscriptions` are keyed by all their columns, so they are
sets of rows. An image is keyed by login and time stamp; time stamps do not
repeat at all. -/
structure Store where
  users : Finset Bytes
  subscriptions : Finset (Bytes × Bytes)
  images : Finset ImageRow
  ts_unique : ∀ r ∈ images, ∀ r' ∈ images, r.ts = r'.ts → r = r'

namespace Store

def empty : Store where
  users := ∅
  subscriptions := ∅
  images := ∅
  ts_unique := by simp

/-- No stored image has this time stamp. -/
def Fresh (s : Store) (ts : Nat) : Prop := ∀ r ∈ s.images, r.ts ≠ ts

/-- Every stored image is older. -/
def Newest (s : Store) (ts : Nat) : Prop := ∀ r ∈ s.images, r.ts < ts

theorem Newest.fresh {s : Store} {ts : Nat} (h : s.Newest ts) : s.Fresh ts :=
  fun r hr => Nat.ne_of_lt (h r hr)

def addUser (s : Store) (login : Bytes) : Store :=
  {s with users := insert login s.users}

def addSubscription (s : Store) (loginFrom loginTo : Bytes) : Store :=
  {s with subscriptions := insert (loginFrom, loginTo) s.subscriptions}

def addImage (s : Store) (row : ImageRow) (fresh : s.Fresh row.ts) : Store where
  users := s.users
  subscriptions := s.subscriptions
  images := insert row s.images
  ts_unique := by
    intro r hr r' hr' hts
    rcases Finset.mem_insert.mp hr with hnew | hold
    · rcases Finset.mem_insert.mp hr' with hnew' | hold'
      · exact hnew.trans hnew'.symm
      · exact absurd (hts.symm.trans (congrArg ImageRow.ts hnew)) (fresh r' hold')
    · rcases Finset.mem_insert.mp hr' with hnew' | hold'
      · exact absurd (hts.trans (congrArg ImageRow.ts hnew')) (fresh r hold)
      · exact s.ts_unique r hold r' hold' hts

/-- Rows are only ever added. -/
structure Grows (s t : Store) : Prop where
  users : s.users ⊆ t.users
  subscriptions : s.subscriptions ⊆ t.subscriptions
  images : s.images ⊆ t.images

theorem Grows.refl (s : Store) : Grows s s :=
  ⟨Finset.Subset.refl _, Finset.Subset.refl _, Finset.Subset.refl _⟩

theorem Grows.trans {s t u : Store} (h : Grows s t) (h' : Grows t u) : Grows s u :=
  ⟨h.users.trans h'.users, h.subscriptions.trans h'.subscriptions,
    h.images.trans h'.images⟩

/-- Rows are only added, and an image that is added is newer than every image
that was there. -/
structure Later (s t : Store) : Prop extends Grows s t where
  newer : ∀ r ∈ t.images, r ∉ s.images → s.Newest r.ts

theorem Later.refl (s : Store) : Later s s :=
  ⟨.refl s, fun _ hr hnot => absurd hr hnot⟩

theorem Later.trans {s t u : Store} (h : Later s t) (h' : Later t u) : Later s u where
  toGrows := h.toGrows.trans h'.toGrows
  newer := by
    intro r hr hnot
    by_cases ht : r ∈ t.images
    · exact h.newer r ht hnot
    · exact fun old hold => h'.newer r hr ht old (h.images hold)

end Store

/-- A result row: the selected columns and their values. -/
abbrev CassRow := List (Column × Bytes)

def userRow (login : Bytes) : CassRow := [(.login, login)]

def subscriptionRow (pair : Bytes × Bytes) : CassRow :=
  [(.loginFrom, pair.1), (.loginTo, pair.2)]

def imageRow (row : ImageRow) : CassRow := [(.login, row.login), (.img, row.img)]

/-- The list has the elements of the set, each once, in some order. -/
structure Enumerates {α : Type} (l : List α) (s : Finset α) : Prop where
  nodup : l.Nodup
  mem_iff : ∀ x, x ∈ l ↔ x ∈ s

def Store.subscriptionsWhere (s : Store) (scd : Column) (login : Bytes) :
    Finset (Bytes × Bytes) :=
  s.subscriptions.filter fun pair => (subscriptionRow pair).lookup scd = some login

def Store.imagesIn (s : Store) (logins : List Bytes) : Finset ImageRow :=
  s.images.filter fun row => row.login ∈ logins

/-- The `limit` rows of largest time stamp among the candidates, newest first. -/
def NewestFirst (candidates : Finset ImageRow) (limit : Nat) (rows : List ImageRow) :
    Prop :=
  ∃ all : List ImageRow, Enumerates all candidates ∧
    all.Pairwise (fun r r' => r'.ts < r.ts) ∧ rows = all.take limit

/-- A statement executed in `s` leaves `t` and returns `rows`. -/
inductive Executes (clock : Store → Nat → Prop) :
    Store → Query → Store → List CassRow → Prop
  | insertUser (s login) :
      Executes clock s (.insertUser login) (s.addUser login) []
  | insertSubscription (s loginFrom loginTo) :
      Executes clock s (.insertSubscription loginFrom loginTo)
        (s.addSubscription loginFrom loginTo) []
  | insertImage (s : Store) (login ts base64) (fresh : s.Fresh ts) :
      clock s ts →
      Executes clock s (.insertImage login base64)
        (s.addImage ⟨login, ts, base64⟩ fresh) []
  | selectUsers (s : Store) (logins) :
      Enumerates logins s.users →
      Executes clock s .selectUsers s (logins.map userRow)
  | selectSubscriptions (s : Store) (first scd login pairs) :
      Enumerates pairs (s.subscriptionsWhere scd login) →
      Executes clock s (.selectSubscriptions first scd login) s
        (pairs.map fun pair => (subscriptionRow pair).filter fun entry => entry.1 = first)
  | selectFeed (s : Store) (logins limit rows) :
      NewestFirst (s.imagesIn logins) limit rows →
      Executes clock s (.selectFeed logins limit) s (rows.map imageRow)

/-- An error code of the driver other than `CASS_OK`. -/
abbrev CassError := Nat

/-- What a call of `execQuery` leaves the caller with. -/
abbrev Reply := Except CassError (List CassRow)

/-- A call fails, leaves the store alone and reports some error. -/
def Fails (s t : Store) (r : Reply) : Prop := t = s ∧ ∃ rc, r = .error rc

def Succeeds (clock : Store → Nat → Prop) (s : Store) (q : Query) (t : Store)
    (r : Reply) : Prop :=
  ∃ rows, r = .ok rows ∧ Executes clock s q t rows

/-- `now()` gives a time stamp that was not used before, and nothing more. -/
def anyClock (_ : Store) (_ : Nat) : Prop := True

/-- `now()` gives time stamps that only increase. -/
def risingClock (s : Store) (ts : Nat) : Prop := s.Newest ts

theorem Enumerates.exists {α : Type} (s : Finset α) : ∃ l : List α, Enumerates l s :=
  ⟨s.toList, s.nodup_toList, fun _ => Finset.mem_toList⟩

theorem Enumerates.singleton {α : Type} (x : α) : Enumerates [x] {x} :=
  ⟨List.nodup_singleton x, fun _ => by simp⟩

theorem Enumerates.perm {α : Type} {l l' : List α} {s : Finset α}
    (h : Enumerates l s) (hperm : l'.Perm l) : Enumerates l' s :=
  ⟨hperm.nodup_iff.mpr h.nodup, fun x => hperm.mem_iff.trans (h.mem_iff x)⟩

section Executes

variable {clock : Store → Nat → Prop} {s t : Store} {rows : List CassRow}

theorem executes_insertUser {login : Bytes} :
    Executes clock s (.insertUser login) t rows ↔ t = s.addUser login ∧ rows = [] := by
  constructor
  · intro h
    cases h
    exact ⟨rfl, rfl⟩
  · rintro ⟨rfl, rfl⟩
    exact .insertUser s login

theorem executes_insertSubscription {loginFrom loginTo : Bytes} :
    Executes clock s (.insertSubscription loginFrom loginTo) t rows ↔
      t = s.addSubscription loginFrom loginTo ∧ rows = [] := by
  constructor
  · intro h
    cases h
    exact ⟨rfl, rfl⟩
  · rintro ⟨rfl, rfl⟩
    exact .insertSubscription s loginFrom loginTo

theorem executes_insertImage {login base64 : Bytes} :
    Executes clock s (.insertImage login base64) t rows ↔
      (∃ ts, ∃ fresh : s.Fresh ts, clock s ts ∧ t = s.addImage ⟨login, ts, base64⟩ fresh) ∧
        rows = [] := by
  constructor
  · intro h
    cases h with
    | insertImage _ _ _ fresh htick => exact ⟨⟨_, fresh, htick, rfl⟩, rfl⟩
  · rintro ⟨⟨ts, fresh, htick, rfl⟩, rfl⟩
    exact .insertImage s login ts base64 fresh htick

theorem executes_selectUsers :
    Executes clock s .selectUsers t rows ↔
      t = s ∧ ∃ logins, Enumerates logins s.users ∧ rows = logins.map userRow := by
  constructor
  · intro h
    cases h with
    | selectUsers logins hlogins => exact ⟨rfl, _, hlogins, rfl⟩
  · rintro ⟨rfl, logins, hlogins, rfl⟩
    exact .selectUsers _ logins hlogins

theorem executes_selectSubscriptions {first scd : Column} {login : Bytes} :
    Executes clock s (.selectSubscriptions first scd login) t rows ↔
      t = s ∧ ∃ pairs, Enumerates pairs (s.subscriptionsWhere scd login) ∧
        rows = pairs.map fun pair =>
          (subscriptionRow pair).filter fun entry => entry.1 = first := by
  constructor
  · intro h
    cases h with
    | selectSubscriptions _ _ _ pairs hpairs => exact ⟨rfl, _, hpairs, rfl⟩
  · rintro ⟨rfl, pairs, hpairs, rfl⟩
    exact .selectSubscriptions _ first scd login pairs hpairs

theorem executes_selectFeed {logins : List Bytes} {limit : Nat} :
    Executes clock s (.selectFeed logins limit) t rows ↔
      t = s ∧ ∃ images, NewestFirst (s.imagesIn logins) limit images ∧
        rows = images.map imageRow := by
  constructor
  · intro h
    cases h with
    | selectFeed _ _ images himages => exact ⟨rfl, _, himages, rfl⟩
  · rintro ⟨rfl, images, himages, rfl⟩
    exact .selectFeed _ logins limit images himages

end Executes

theorem Executes.grows {clock : Store → Nat → Prop} {s t : Store} {q : Query}
    {rows : List CassRow} (h : Executes clock s q t rows) : s.Grows t := by
  cases h with
  | insertUser =>
      exact ⟨Finset.subset_insert _ _, Finset.Subset.refl _, Finset.Subset.refl _⟩
  | insertSubscription =>
      exact ⟨Finset.Subset.refl _, Finset.subset_insert _ _, Finset.Subset.refl _⟩
  | insertImage =>
      exact ⟨Finset.Subset.refl _, Finset.Subset.refl _, Finset.subset_insert _ _⟩
  | selectUsers => exact .refl _
  | selectSubscriptions => exact .refl _
  | selectFeed => exact .refl _

section Origin

variable {clock : Store → Nat → Prop} {s t : Store} {q : Query} {rows : List CassRow}

/-! A row that is there afterwards was there before, or is the one inserted. -/

theorem Executes.user_origin (h : Executes clock s q t rows) {login : Bytes}
    (hlogin : login ∈ t.users) : login ∈ s.users ∨ q = .insertUser login := by
  cases h with
  | insertUser login' =>
      rcases Finset.mem_insert.mp hlogin with hnew | hold
      · exact Or.inr (congrArg Query.insertUser hnew.symm)
      · exact Or.inl hold
  | _ => exact Or.inl hlogin

theorem Executes.subscription_origin (h : Executes clock s q t rows) {a b : Bytes}
    (hpair : (a, b) ∈ t.subscriptions) :
    (a, b) ∈ s.subscriptions ∨ q = .insertSubscription a b := by
  cases h with
  | insertSubscription loginFrom loginTo =>
      rcases Finset.mem_insert.mp hpair with hnew | hold
      · obtain ⟨rfl, rfl⟩ := Prod.mk.inj hnew
        exact Or.inr rfl
      · exact Or.inl hold
  | _ => exact Or.inl hpair

theorem Executes.image_origin (h : Executes clock s q t rows) {row : ImageRow}
    (hrow : row ∈ t.images) :
    row ∈ s.images ∨ q = .insertImage row.login row.img := by
  cases h with
  | insertImage login ts base64 =>
      rcases Finset.mem_insert.mp hrow with hnew | hold
      · rw [hnew]
        exact Or.inr rfl
      · exact Or.inl hold
  | _ => exact Or.inl hrow

/-! And the row inserted is there afterwards. -/

theorem Executes.stores_user {login : Bytes}
    (h : Executes clock s (.insertUser login) t rows) : login ∈ t.users := by
  obtain ⟨rfl, -⟩ := executes_insertUser.mp h
  exact Finset.mem_insert_self _ _

theorem Executes.stores_subscription {loginFrom loginTo : Bytes}
    (h : Executes clock s (.insertSubscription loginFrom loginTo) t rows) :
    (loginFrom, loginTo) ∈ t.subscriptions := by
  obtain ⟨rfl, -⟩ := executes_insertSubscription.mp h
  exact Finset.mem_insert_self _ _

end Origin

/-- With increasing time stamps every statement leaves a later store. -/
theorem Executes.later {s t : Store} {q : Query} {rows : List CassRow}
    (h : Executes risingClock s q t rows) : s.Later t := by
  refine ⟨h.grows, ?_⟩
  cases h with
  | insertImage _ _ _ _ htick =>
      intro r hr hnot
      rcases Finset.mem_insert.mp hr with rfl | hr
      · exact htick
      · exact absurd hr hnot
  | insertUser => exact fun r hr hnot => absurd hr hnot
  | insertSubscription => exact fun r hr hnot => absurd hr hnot
  | selectUsers => exact fun r hr hnot => absurd hr hnot
  | selectSubscriptions => exact fun r hr hnot => absurd hr hnot
  | selectFeed => exact fun r hr hnot => absurd hr hnot

section NewestFirst

variable {candidates : Finset ImageRow} {limit : Nat} {rows : List ImageRow}

theorem NewestFirst.sorted (h : NewestFirst candidates limit rows) :
    rows.Pairwise (fun r r' => r'.ts < r.ts) := by
  obtain ⟨all, -, hsorted, rfl⟩ := h
  exact hsorted.sublist (List.take_sublist limit all)

theorem NewestFirst.length_le (h : NewestFirst candidates limit rows) :
    rows.length ≤ limit := by
  obtain ⟨all, -, -, rfl⟩ := h
  simp

theorem NewestFirst.subset (h : NewestFirst candidates limit rows) :
    ∀ r ∈ rows, r ∈ candidates := by
  obtain ⟨all, hall, -, rfl⟩ := h
  exact fun r hr => (hall.mem_iff r).mp (List.mem_of_mem_take hr)

/-- A candidate that is left out is older than `limit` rows that are not. -/
theorem NewestFirst.complete (h : NewestFirst candidates limit rows) {r : ImageRow}
    (hr : r ∈ candidates) (hnot : r ∉ rows) :
    rows.length = limit ∧ ∀ r' ∈ rows, r.ts < r'.ts := by
  obtain ⟨all, hall, hsorted, rfl⟩ := h
  have hdrop : r ∈ all.drop limit := by
    have hmem := (hall.mem_iff r).mpr hr
    rw [← List.take_append_drop limit all, List.mem_append] at hmem
    exact hmem.resolve_left hnot
  constructor
  · have := List.length_pos_of_mem hdrop
    simp only [List.length_drop] at this
    simp only [List.length_take]
    omega
  · intro r' hr'
    rw [← List.take_append_drop limit all] at hsorted
    exact (List.pairwise_append.mp hsorted).2.2 r' hr' r hdrop

/-- Time stamps do not repeat, so there is always an answer. -/
theorem NewestFirst.exists (s : Store) (logins : List Bytes) (limit : Nat) :
    ∃ rows, NewestFirst (s.imagesIn logins) limit rows := by
  obtain ⟨l, hl⟩ := Enumerates.exists (s.imagesIn logins)
  let sorted := l.mergeSort (fun r r' => decide (r'.ts ≤ r.ts))
  have hperm : sorted.Perm l := List.mergeSort_perm _ _
  have henum : Enumerates sorted (s.imagesIn logins) := hl.perm hperm
  have hweak : sorted.Pairwise (fun r r' => r'.ts ≤ r.ts) := by
    have h : sorted.Pairwise fun r r' => decide (r'.ts ≤ r.ts) = true :=
      List.pairwise_mergeSort (by simp; omega) (by simp; omega) l
    exact h.imp (by simp)
  refine ⟨sorted.take limit, sorted, henum, ?_, rfl⟩
  refine (hweak.and henum.nodup).imp_of_mem ?_
  intro r r' hr hr' ⟨hle, hne⟩
  refine Nat.lt_of_le_of_ne hle fun hts => hne ?_
  have hin {x : ImageRow} (hx : x ∈ sorted) : x ∈ s.images :=
    (Finset.mem_filter.mp ((henum.mem_iff x).mp hx)).1
  exact s.ts_unique r (hin hr) r' (hin hr') hts.symm

end NewestFirst

/-- Every statement can be executed in every store. -/
theorem Executes.exists (s : Store) (q : Query) : ∃ t rows, Executes anyClock s q t rows := by
  cases q with
  | insertUser login => exact ⟨_, _, .insertUser s login⟩
  | insertSubscription loginFrom loginTo => exact ⟨_, _, .insertSubscription s loginFrom loginTo⟩
  | insertImage login base64 =>
      have hfresh : s.Fresh (s.images.sup ImageRow.ts + 1) := by
        intro r hr
        have := Finset.le_sup (f := ImageRow.ts) hr
        omega
      exact ⟨_, _, .insertImage s login _ base64 hfresh trivial⟩
  | selectUsers =>
      obtain ⟨l, hl⟩ := Enumerates.exists s.users
      exact ⟨_, _, .selectUsers s l hl⟩
  | selectSubscriptions first scd login =>
      obtain ⟨l, hl⟩ := Enumerates.exists (s.subscriptionsWhere scd login)
      exact ⟨_, _, .selectSubscriptions s first scd login l hl⟩
  | selectFeed logins limit =>
      obtain ⟨rows, hrows⟩ := NewestFirst.exists s logins limit
      exact ⟨_, _, .selectFeed s logins limit rows hrows⟩

end Img2Web
