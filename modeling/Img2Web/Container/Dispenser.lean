import Mathlib.Data.List.Rotate

/-!
Things handed out one at a time. A `Rotation` goes once round a list. A
dispenser is any state that answers each call with a thing or with none; what
it may still hand out (`ahead`) only shrinks, and some of it is `due` before
the rest. What a call may do then decides what a whole run hands out.
-/

/-- From the items before a call to what it gave and the items after it: those
in front that will not do are skipped. -/
def Passes {α : Type*} (ok : α → Bool) (before : List α) : Option α → List α → Prop
  | some a, after =>
      ok a = true ∧ ∃ skipped, (∀ b ∈ skipped, ok b = false) ∧ before = skipped ++ a :: after
  | none, after => after = [] ∧ ∀ b ∈ before, ok b = false

namespace Passes

variable {α : Type*} {ok : α → Bool} {before after : List α} {given : Option α} {a : α}

theorem after_subset (h : Passes ok before given after) : after ⊆ before := by
  cases given with
  | none => simp [h.1]
  | some b =>
      obtain ⟨-, skipped, -, rfl⟩ := h
      exact fun x hx => List.mem_append_right _ (List.mem_cons_of_mem _ hx)

theorem given_mem (h : Passes ok before (some a) after) : a ∈ before := by
  obtain ⟨-, skipped, -, rfl⟩ := h
  simp

theorem given_notMem (h : Passes ok before (some a) after) (hbefore : before.Nodup) :
    a ∉ after := by
  obtain ⟨-, skipped, -, rfl⟩ := h
  exact (List.nodup_cons.mp (List.nodup_append.mp hbefore).2.1).1

theorem nodup (h : Passes ok before given after) (hbefore : before.Nodup) : after.Nodup := by
  cases given with
  | none => simp [h.1]
  | some b =>
      obtain ⟨-, skipped, -, rfl⟩ := h
      exact (List.nodup_cons.mp (List.nodup_append.mp hbefore).2.1).2

theorem kept (h : Passes ok before given after) (ha : a ∈ before) :
    a ∈ after ∨ given = some a ∨ ok a = false := by
  cases given with
  | none => exact Or.inr (Or.inr (h.2 a ha))
  | some b =>
      obtain ⟨-, skipped, hskipped, rfl⟩ := h
      rcases List.mem_append.mp ha with hmem | hmem
      · exact Or.inr (Or.inr (hskipped a hmem))
      · rcases List.mem_cons.mp hmem with rfl | hmem
        · exact Or.inr (Or.inl rfl)
        · exact Or.inl hmem

theorem length_lt (h : Passes ok before (some a) after) : after.length < before.length := by
  obtain ⟨-, skipped, -, rfl⟩ := h
  simp only [List.length_append, List.length_cons]
  omega

end Passes

structure Rotation (α : Type*) where
  items : List α
  index : Nat
  remaining : Nat

namespace Rotation

variable {α : Type*} {r : Rotation α}

/-- Once round, from an index. -/
def new (items : List α) (index : Nat) : Rotation α := ⟨items, index, items.length⟩

def nextFrom (ok : α → Bool) (items : List α) (index : Nat) : Nat → Option α × Rotation α
  | 0 => (none, ⟨items, index, 0⟩)
  | remaining + 1 =>
      match items[index % items.length]? with
      | none => (none, ⟨items, index + 1, remaining⟩)
      | some a =>
          if ok a then (some a, ⟨items, index + 1, remaining⟩)
          else nextFrom ok items (index + 1) remaining

/-- The next item that will do. -/
def next (ok : α → Bool) (r : Rotation α) : Option α × Rotation α :=
  nextFrom ok r.items r.index r.remaining

def Fits (r : Rotation α) : Prop := r.remaining ≤ r.items.length

def ahead (r : Rotation α) : List α := (r.items.rotate r.index).take r.remaining

theorem new_fits (items : List α) (index : Nat) : (new items index).Fits := Nat.le_refl _

theorem ahead_new (items : List α) (index : Nat) : (new items index).ahead = items.rotate index :=
  List.take_of_length_le (List.length_rotate items index).le

theorem ahead_subset : r.ahead ⊆ r.items := fun _ ha =>
  List.mem_rotate.mp (List.mem_of_mem_take ha)

theorem nodup_ahead (h : r.items.Nodup) : r.ahead.Nodup :=
  (List.nodup_rotate.mpr h).sublist (List.take_sublist ..)

/-- The first item ahead is the one at the index. -/
theorem ahead_succ {items : List α} (index : Nat) {remaining : Nat}
    (h : remaining + 1 ≤ items.length) :
    ∃ a, items[index % items.length]? = some a ∧
      ahead ⟨items, index, remaining + 1⟩ = a :: ahead ⟨items, index + 1, remaining⟩ := by
  have hlt : index % items.length < items.length := Nat.mod_lt _ (by omega)
  have hhead : (items.rotate index).head? = items[index % items.length]? := by
    rw [← List.rotate_mod]
    exact List.head?_rotate hlt
  have hlength := List.length_rotate items index
  have hnext : items.rotate (index + 1) = (items.rotate index).rotate 1 :=
    (List.rotate_rotate ..).symm
  cases hrotate : items.rotate index with
  | nil =>
      rw [hrotate] at hlength
      simp only [List.length_nil] at hlength
      omega
  | cons a rest =>
      rw [hrotate] at hhead hlength hnext
      rw [List.rotate_cons_succ, List.rotate_zero] at hnext
      rw [List.length_cons] at hlength
      refine ⟨a, hhead.symm, ?_⟩
      rw [ahead, ahead, hrotate, hnext, List.take_succ_cons]
      have hle : remaining ≤ rest.length := by omega
      rw [List.take_append_of_le_length hle]

theorem nextFrom_passes (ok : α → Bool) {items : List α} (index : Nat) {remaining : Nat}
    (h : remaining ≤ items.length) :
    (nextFrom ok items index remaining).2.items = items ∧
      (nextFrom ok items index remaining).2.Fits ∧
      Passes ok (ahead ⟨items, index, remaining⟩) (nextFrom ok items index remaining).1
        (nextFrom ok items index remaining).2.ahead := by
  induction remaining generalizing index with
  | zero => exact ⟨rfl, Nat.zero_le _, by simp [nextFrom, ahead, Passes]⟩
  | succ remaining ih =>
      obtain ⟨a, hitem, hahead⟩ := ahead_succ index h
      rw [nextFrom, hitem, hahead]
      dsimp only
      split
      case isTrue hok =>
        have hfits : remaining ≤ items.length := by omega
        exact ⟨rfl, hfits, hok, [], by simp, rfl⟩
      case isFalse hok =>
        obtain ⟨hitems, hfits, hpasses⟩ := ih (index + 1) (by omega)
        refine ⟨hitems, hfits, ?_⟩
        have ha : ok a = false := Bool.not_eq_true _ ▸ hok
        cases hgiven : (nextFrom ok items (index + 1) remaining).1 with
        | none =>
            rw [hgiven] at hpasses
            refine ⟨hpasses.1, fun b hb => ?_⟩
            rcases List.mem_cons.mp hb with rfl | hb
            · exact ha
            · exact hpasses.2 b hb
        | some b =>
            rw [hgiven] at hpasses
            obtain ⟨hb, skipped, hskipped, hbefore⟩ := hpasses
            refine ⟨hb, a :: skipped, fun c hc => ?_, by rw [hbefore]; rfl⟩
            rcases List.mem_cons.mp hc with rfl | hc
            · exact ha
            · exact hskipped c hc

theorem next_items (ok : α → Bool) (h : r.Fits) : (r.next ok).2.items = r.items :=
  (nextFrom_passes ok r.index h).1

theorem next_fits (ok : α → Bool) (h : r.Fits) : (r.next ok).2.Fits :=
  (nextFrom_passes ok r.index h).2.1

theorem next_passes (ok : α → Bool) (h : r.Fits) :
    Passes ok r.ahead (r.next ok).1 (r.next ok).2.ahead :=
  (nextFrom_passes ok r.index h).2.2

theorem length_ahead (h : r.Fits) : r.ahead.length = r.remaining := by
  rw [ahead, List.length_take, List.length_rotate]
  exact Nat.min_eq_left h

/-- A rotation that gives an item has fewer of them left. -/
theorem next_remaining {ok : α → Bool} {a : α} (h : r.Fits) (hgiven : (r.next ok).1 = some a) :
    (r.next ok).2.remaining < r.remaining := by
  have hpasses := next_passes ok h
  rw [hgiven] at hpasses
  have hless := hpasses.length_lt
  rwa [length_ahead (next_fits ok h), length_ahead h] at hless

theorem remaining_of_ahead (h : r.Fits) (hnil : r.ahead = []) : r.remaining = 0 := by
  rw [← length_ahead h, hnil, List.length_nil]

end Rotation

namespace Dispenser

/-- What one call does, from `s` to `s'`. -/
structure Call {σ α : Type*} (usable : α → Bool) (size : σ → Nat) (valid : σ → Prop)
    (ahead due : σ → α → Prop) (s : σ) (given : Option α) (s' : σ) : Prop where
  keeps : valid s'
  fit : ∀ x, given = some x → usable x = true
  shrinks : ∀ x, ahead s' x → ahead s x
  once : ∀ x, given = some x → ahead s x ∧ ¬ ahead s' x
  decreases : ∀ x, given = some x → size s' < size s
  still_due : ∀ x, ahead s' x → due s x → due s' x
  due_of : ∀ x, due s' x → due s x
  kept : ∀ x, due s x → due s' x ∨ given = some x ∨ usable x = false
  first : ∀ x, given = some x → due s x ∨ ∀ y, ¬ due s' y
  ended : given = none → ∀ y, ¬ due s' y

namespace Call

variable {σ α : Type*} {usable : α → Bool} {size : σ → Nat} {valid : σ → Prop}
  {ahead due : σ → α → Prop} {s s' s'' : σ} {given : Option α}

/-- A call that gives nothing, as nothing that was due will do. -/
theorem nothing (hkeeps : valid s') (hshrinks : ∀ x, ahead s' x → ahead s x)
    (hlost : ∀ x, ahead s' x → ¬ due s x) (hunfit : ∀ x, due s x → usable x = false)
    (hended : ∀ x, ¬ due s' x) : Call usable size valid ahead due s none s' where
  keeps := hkeeps
  fit _ hgiven := nomatch hgiven
  shrinks := hshrinks
  once _ hgiven := nomatch hgiven
  decreases _ hgiven := nomatch hgiven
  still_due x hx hdue := (hlost x hx hdue).elim
  due_of x hx := (hended x hx).elim
  kept x hx := Or.inr (Or.inr (hunfit x hx))
  first _ hgiven := nomatch hgiven
  ended _ := hended

/-- A call where nothing is due. -/
theorem nothing_due (hkeeps : valid s') (hfit : ∀ x, given = some x → usable x = true)
    (hshrinks : ∀ x, ahead s' x → ahead s x)
    (honce : ∀ x, given = some x → ahead s x ∧ ¬ ahead s' x)
    (hdecreases : ∀ x, given = some x → size s' < size s) :
    Call usable size valid ahead (fun _ _ => False) s given s' where
  keeps := hkeeps
  fit := hfit
  shrinks := hshrinks
  once := honce
  decreases := hdecreases
  still_due _ _ hdue := hdue
  due_of _ hdue := hdue
  kept _ hdue := hdue.elim
  first _ _ := Or.inr fun _ hdue => hdue
  ended _ _ hdue := hdue

/-- A call that gives nothing, and then another, are one. -/
theorem andThen (h : Call usable size valid ahead due s none s') (hsize : size s' ≤ size s)
    (h' : Call usable size valid ahead due s' given s'') :
    Call usable size valid ahead due s given s'' where
  keeps := h'.keeps
  fit := h'.fit
  shrinks x hx := h.shrinks x (h'.shrinks x hx)
  once x hx := (h'.once x hx).imp_left (h.shrinks x)
  decreases x hx := (h'.decreases x hx).trans_le hsize
  still_due x hx hdue := h'.still_due x hx (h.still_due x (h'.shrinks x hx) hdue)
  due_of x hx := h.due_of x (h'.due_of x hx)
  kept x hdue := by
    rcases h.kept x hdue with hstill | hgiven | hunfit
    · exact h'.kept x hstill
    · cases hgiven
    · exact Or.inr (Or.inr hunfit)
  first x hx := (h'.first x hx).imp_left (h.due_of x)
  ended := h'.ended

/-- Seen without what is to be skipped, a call that gives nothing of it. -/
theorem unskipped {skip : α → Bool} (h : Call usable size valid ahead due s given s')
    (hskip : ∀ x, given = some x → skip x = false) :
    Call usable size valid (fun s x => ahead s x ∧ skip x = false)
      (fun s x => due s x ∧ skip x = false) s given s' where
  keeps := h.keeps
  fit := h.fit
  shrinks x hx := hx.imp_left (h.shrinks x)
  once x hx := ⟨⟨(h.once x hx).1, hskip x hx⟩, fun hstill => (h.once x hx).2 hstill.1⟩
  decreases := h.decreases
  still_due x hx hdue := hdue.imp_left (h.still_due x hx.1)
  due_of x hx := hx.imp_left (h.due_of x)
  kept x hdue := (h.kept x hdue.1).imp_left fun hstill => ⟨hstill, hdue.2⟩
  first x hx := (h.first x hx).imp (fun hdue => ⟨hdue, hskip x hx⟩) fun hnone y hy =>
    hnone y hy.1
  ended hnone y hy := h.ended hnone y hy.1

/-- A call whose answer is to be skipped, and then the next one that is not. -/
theorem skippedThen {skip : α → Bool} {x : α}
    (h : Call usable size valid ahead due s (some x) s') (hskip : skip x = true)
    (h' : Call usable size valid (fun s x => ahead s x ∧ skip x = false)
      (fun s x => due s x ∧ skip x = false) s' given s'') :
    Call usable size valid (fun s x => ahead s x ∧ skip x = false)
      (fun s x => due s x ∧ skip x = false) s given s'' where
  keeps := h'.keeps
  fit := h'.fit
  shrinks y hy := (h'.shrinks y hy).imp_left (h.shrinks y)
  once y hy := ⟨(h'.once y hy).1.imp_left (h.shrinks y), (h'.once y hy).2⟩
  decreases y hy := (h'.decreases y hy).trans (h.decreases x rfl)
  still_due y hy hdue := h'.still_due y hy
    ⟨h.still_due y (h'.shrinks y hy).1 hdue.1, hdue.2⟩
  due_of y hy := (h'.due_of y hy).imp_left (h.due_of y)
  kept y hdue := by
    rcases h.kept y hdue.1 with hstill | hgiven | hunfit
    · exact h'.kept y ⟨hstill, hdue.2⟩
    · cases hgiven
      exact Bool.noConfusion (hskip.symm.trans hdue.2)
    · exact Or.inr (Or.inr hunfit)
  first y hy := (h'.first y hy).imp_left fun hdue => hdue.imp_left (h.due_of y)
  ended := h'.ended

end Call

/-- Every call in a world that is `sound` does so, from a state that is `valid`.
`size` bounds how often something can be given. -/
structure Dispenses {σ ε α : Type*} (next : ε → σ → Option α × σ) (sound : ε → Prop)
    (usable : ε → α → Bool) (size : ε → σ → Nat) (valid : σ → Prop) (ahead due : σ → α → Prop) :
    Prop where
  call : ∀ e s, sound e → valid s →
    Call (usable e) (size e) valid ahead due s (next e s).1 (next e s).2
  due_ahead : ∀ s x, valid s → due s x → ahead s x

section Runs

variable {σ ε α : Type*} {next : ε → σ → Option α × σ} {sound : ε → Prop}
  {usable : ε → α → Bool} {size : ε → σ → Nat} {valid : σ → Prop} {ahead due : σ → α → Prop}
  {es : List ε} {s : σ} {x : α}

/-- The next thing that is not to be skipped, of the next `n`. -/
def nextExcept (next : ε → σ → Option α × σ) (skip : α → Bool) (e : ε) : Nat → σ → Option α × σ
  | 0, s => (none, s)
  | n + 1, s =>
      match next e s with
      | (some x, s) => if skip x then nextExcept next skip e n s else (some x, s)
      | (none, s) => (none, s)

/-- The answers of a run. -/
def answers (next : ε → σ → Option α × σ) : List ε → σ → List (Option α)
  | [], _ => []
  | e :: es, s => (next e s).1 :: answers next es (next e s).2

/-- What a run hands out. -/
def handedOut (next : ε → σ → Option α × σ) (es : List ε) (s : σ) : List α :=
  (answers next es s).filterMap id

theorem handedOut_none {e : ε} (h : (next e s).1 = none) :
    handedOut next (e :: es) s = handedOut next es (next e s).2 := by
  rw [handedOut, answers, h]
  rfl

theorem handedOut_some {e : ε} (h : (next e s).1 = some x) :
    handedOut next (e :: es) s = x :: handedOut next es (next e s).2 := by
  rw [handedOut, answers, h]
  rfl

/-- A run hands out nothing twice, only what will do, and what is preferred
before the rest; once it gives nothing, everything that is preferred has been
handed out, or would not do at one of the calls. -/
structure HandsOut (next : ε → σ → Option α × σ) (usable : ε → α → Bool) (es : List ε) (s : σ)
    (preferred : α → Prop) : Prop where
  once : (handedOut next es s).Nodup
  fit : List.Forall₂ (fun e given => ∀ x, given = some x → usable e x = true) es
    (answers next es s)
  order : ∃ firsts others, handedOut next es s = firsts ++ others ∧ (∀ x ∈ firsts, preferred x) ∧
    ∀ x ∈ others, ¬ preferred x
  complete : none ∈ answers next es s → ∀ x, preferred x →
    x ∈ handedOut next es s ∨ ∃ e ∈ es, usable e x = false

namespace Dispenses

variable (h : Dispenses next sound usable size valid ahead due)
include h

theorem handedOut_ahead (hes : ∀ e ∈ es, sound e) (hs : valid s)
    (hx : x ∈ handedOut next es s) : ahead s x := by
  induction es generalizing s with
  | nil => cases hx
  | cons e es ih =>
      obtain ⟨he, hes⟩ := List.forall_mem_cons.mp hes
      have hcall := h.call e s he hs
      have hrest : x ∈ handedOut next es (next e s).2 → ahead s x := fun hx =>
        hcall.shrinks x (ih hes hcall.keeps hx)
      cases hgiven : (next e s).1 with
      | none =>
          rw [handedOut_none hgiven] at hx
          exact hrest hx
      | some y =>
          rw [handedOut_some hgiven] at hx
          rcases List.mem_cons.mp hx with rfl | hx
          · exact (hcall.once x hgiven).1
          · exact hrest hx

/-- Nothing is handed out twice. -/
theorem nodup_handedOut (hes : ∀ e ∈ es, sound e) (hs : valid s) :
    (handedOut next es s).Nodup := by
  induction es generalizing s with
  | nil => exact List.nodup_nil
  | cons e es ih =>
      obtain ⟨he, hes⟩ := List.forall_mem_cons.mp hes
      have hcall := h.call e s he hs
      have hrest := ih hes hcall.keeps
      cases hgiven : (next e s).1 with
      | none =>
          rw [handedOut_none hgiven]
          exact hrest
      | some y =>
          rw [handedOut_some hgiven]
          refine List.nodup_cons.mpr ⟨fun hy => ?_, hrest⟩
          exact (hcall.once y hgiven).2 (h.handedOut_ahead hes hcall.keeps hy)

/-- What is handed out will do at that time. -/
theorem answers_usable (hes : ∀ e ∈ es, sound e) (hs : valid s) :
    List.Forall₂ (fun e given => ∀ x, given = some x → usable e x = true) es
      (answers next es s) := by
  induction es generalizing s with
  | nil => exact .nil
  | cons e es ih =>
      obtain ⟨he, hes⟩ := List.forall_mem_cons.mp hes
      have hcall := h.call e s he hs
      exact .cons hcall.fit (ih hes hcall.keeps)

/-- What is due comes before the rest. -/
theorem handedOut_order (hes : ∀ e ∈ es, sound e) (hs : valid s) :
    ∃ firsts others, handedOut next es s = firsts ++ others ∧ (∀ x ∈ firsts, due s x) ∧
      ∀ x ∈ others, ¬ due s x := by
  induction es generalizing s with
  | nil => exact ⟨[], [], rfl, by simp, by simp⟩
  | cons e es ih =>
      obtain ⟨he, hes⟩ := List.forall_mem_cons.mp hes
      have hcall := h.call e s he hs
      obtain ⟨firsts, others, hsplit, hfirsts, hothers⟩ := ih hes hcall.keeps
      have hfirsts' : ∀ x ∈ firsts, due s x := fun x hx => hcall.due_of x (hfirsts x hx)
      have hothers' : ∀ x ∈ others, ¬ due s x := by
        intro x hx hdue
        have hmem : x ∈ handedOut next es (next e s).2 := hsplit ▸ List.mem_append_right _ hx
        exact hothers x hx (hcall.still_due x (h.handedOut_ahead hes hcall.keeps hmem) hdue)
      cases hgiven : (next e s).1 with
      | none =>
          rw [handedOut_none hgiven]
          exact ⟨firsts, others, hsplit, hfirsts', hothers'⟩
      | some y =>
          rw [handedOut_some hgiven, hsplit]
          by_cases hy : due s y
          · exact ⟨y :: firsts, others, rfl, List.forall_mem_cons.mpr ⟨hy, hfirsts'⟩, hothers'⟩
          · -- Nothing is due any more, so nothing that follows was.
            have hnone := (hcall.first y hgiven).resolve_left hy
            obtain rfl : firsts = [] :=
              List.eq_nil_iff_forall_not_mem.mpr fun x hx => hnone x (hfirsts x hx)
            exact ⟨[], y :: others, rfl, by simp, List.forall_mem_cons.mpr ⟨hy, hothers'⟩⟩

/-- Once nothing is given, everything that was due has been given, or would not
do at one of the calls. -/
theorem due_handedOut (hes : ∀ e ∈ es, sound e) (hs : valid s)
    (hnone : none ∈ answers next es s) (hdue : due s x) :
    x ∈ handedOut next es s ∨ ∃ e ∈ es, usable e x = false := by
  induction es generalizing s with
  | nil => cases hnone
  | cons e es ih =>
      obtain ⟨he, hes⟩ := List.forall_mem_cons.mp hes
      have hcall := h.call e s he hs
      rcases hcall.kept x hdue with hstill | hgiven | hskipped
      · have hnone' : none ∈ answers next es (next e s).2 := by
          rcases List.mem_cons.mp hnone with hnow | hlater
          · exact absurd hstill (hcall.ended hnow.symm x)
          · exact hlater
        rcases ih hes hcall.keeps hnone' hstill with hx | ⟨e', he', hx⟩
        · refine Or.inl ?_
          cases hgiven : (next e s).1 with
          | none =>
              rw [handedOut_none hgiven]
              exact hx
          | some y =>
              rw [handedOut_some hgiven]
              exact List.mem_cons_of_mem y hx
        · exact Or.inr ⟨e', List.mem_cons_of_mem e he', hx⟩
      · refine Or.inl ?_
        rw [handedOut_some hgiven]
        exact List.mem_cons_self
      · exact Or.inr ⟨e, List.mem_cons_self, hskipped⟩

theorem handsOut (hes : ∀ e ∈ es, sound e) (hs : valid s) {preferred : α → Prop}
    (hdue : ∀ x, preferred x ↔ due s x) : HandsOut next usable es s preferred := by
  obtain rfl : preferred = due s := funext fun x => propext (hdue x)
  exact ⟨h.nodup_handedOut hes hs, h.answers_usable hes hs, h.handedOut_order hes hs,
    fun hnone _ hx => h.due_handedOut hes hs hnone hx⟩

/-- A dispenser of which nothing is due. -/
theorem nothing_due : Dispenses next sound usable size valid ahead fun _ _ => False where
  call e s he hs := by
    have hcall := h.call e s he hs
    exact .nothing_due hcall.keeps hcall.fit hcall.shrinks hcall.once hcall.decreases
  due_ahead _ _ _ hdue := hdue.elim

/-- Leaving things out leaves a dispenser of the others. -/
theorem nextExcept_call {e : ε} {n : Nat} (skip : α → Bool) (he : sound e) (hs : valid s)
    (hn : size e s < n) :
    Call (usable e) (size e) valid (fun s x => ahead s x ∧ skip x = false)
      (fun s x => due s x ∧ skip x = false) s (nextExcept next skip e n s).1
      (nextExcept next skip e n s).2 := by
  induction n generalizing s with
  | zero => exact absurd hn (Nat.not_lt_zero _)
  | succ n ih =>
      have hcall := h.call e s he hs
      obtain ⟨given, s', hnext⟩ : ∃ given s', next e s = (given, s') := ⟨_, _, rfl⟩
      rw [hnext] at hcall
      dsimp only at hcall
      cases given with
      | none =>
          simp only [nextExcept, hnext]
          exact hcall.unskipped fun _ hgiven => nomatch hgiven
      | some x =>
          simp only [nextExcept, hnext]
          split
          case isFalse hskip =>
            refine hcall.unskipped ?_
            rintro y ⟨⟩
            exact Bool.not_eq_true _ ▸ hskip
          case isTrue hskip =>
            have hless := hcall.decreases x rfl
            exact hcall.skippedThen hskip (ih hcall.keeps (by omega))

end Dispenses

end Runs

end Dispenser
