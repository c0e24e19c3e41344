import Img2Web.Model.Handlers

/-!
Cassandra as a service that many requests share, with argument strings taken as
literal values. A call of a faulty service may fail; a reliable one never does.
Rows are only ever added, so what a request has read or written stays true
while the others go on.
-/

namespace Img2Web

open Text Interaction

/-- Every call may fail, returning an error and leaving the store unchanged. -/
def faulty (clock : Store → Nat → Prop) : Service Store Query Reply :=
  fun s q t r => Fails s t r ∨ Succeeds clock s q t r

/-- No call fails. -/
def reliable : Service Store Query Reply := Succeeds anyClock

theorem Succeeds.grows {clock : Store → Nat → Prop} {s t : Store} {q : Query} {r : Reply}
    (h : Succeeds clock s q t r) : s.Grows t := by
  obtain ⟨rows, -, hexec⟩ := h
  exact hexec.grows

theorem faulty_grows {clock : Store → Nat → Prop} {s t : Store} {q : Query} {r : Reply}
    (h : faulty clock s q t r) : s.Grows t := by
  rcases h with ⟨rfl, -⟩ | h
  · exact .refl _
  · exact h.grows

theorem faulty_later {s t : Store} {q : Query} {r : Reply}
    (h : faulty risingClock s q t r) : s.Later t := by
  rcases h with ⟨rfl, -⟩ | ⟨rows, -, hexec⟩
  · exact .refl _
  · exact hexec.later

theorem Executes.faulty {clock : Store → Nat → Prop} {s t : Store} {q : Query}
    {rows : List CassRow} (h : Executes clock s q t rows) : faulty clock s q t (.ok rows) :=
  Or.inr ⟨rows, rfl, h⟩

/-- What is possible with some clock is possible with any. -/
theorem Executes.anyClock {clock : Store → Nat → Prop} {s t : Store} {q : Query}
    {rows : List CassRow} (h : Executes clock s q t rows) : Executes anyClock s q t rows := by
  cases h with
  | insertUser => exact .insertUser _ _
  | insertSubscription => exact .insertSubscription _ _ _
  | insertImage _ _ _ fresh _ => exact .insertImage _ _ _ _ fresh trivial
  | selectUsers _ hlogins => exact .selectUsers _ _ hlogins
  | selectSubscriptions _ _ _ _ hpairs => exact .selectSubscriptions _ _ _ _ _ hpairs
  | selectFeed _ _ _ hrows => exact .selectFeed _ _ _ _ hrows

theorem faulty_anyClock {clock : Store → Nat → Prop} {s t : Store} {q : Query} {r : Reply}
    (h : faulty clock s q t r) : faulty anyClock s q t r := by
  apply h.imp_right
  rintro ⟨rows, hrows, hexec⟩
  exact ⟨rows, hrows, hexec.anyClock⟩

/-- What a reply other than an error says. -/
theorem faulty_ok {clock : Store → Nat → Prop} {s t : Store} {q : Query}
    {rows : List CassRow} (h : faulty clock s q t (.ok rows)) : Executes clock s q t rows := by
  rcases h with ⟨-, rc, hrc⟩ | ⟨rows', hrows, hexec⟩
  · cases hrc
  · obtain rfl := Except.ok.inj hrows
    exact hexec

/-- Nothing is owed, and time stamps increase. -/
def risingProtocol : Protocol Request Store Query Reply where
  service _ := faulty risingClock
  pre _ _ _ := True
  later := Store.Later
  later_refl := Store.Later.refl
  later_trans := Store.Later.trans
  guarantee _ h := faulty_later h

end Img2Web
