import Mathlib.Tactic.Common

/-!
Sequential clients of a shared service. A program is a finite tree of queries:
it ends with a result, or sends one query and continues with the reply. What a
query does is not part of the program; a `Service` says which next states and
replies each query may have, so the same program can be run against a faulty,
a reliable or a text-level service.

A program is judged in three ways below: by the queries it can send
(`Residual`), by its uninterrupted executions (`Execution`), and by what it
guarantees while other clients move the service between its queries (`Meets`).
-/

namespace Img2Web.Interaction

inductive Program (Q R α : Type) where
  | ret : α → Program Q R α
  | call : Q → (R → Program Q R α) → Program Q R α

/-- `svc s q t r`: in state `s` the query `q` may leave state `t` and reply `r`. -/
abbrev Service (σ Q R : Type) := σ → Q → σ → R → Prop

def Service.Total {σ Q R : Type} (svc : Service σ Q R) : Prop :=
  ∀ s q, ∃ t r, svc s q t r

namespace Program

variable {σ Q R α β : Type}

def bind : Program Q R α → (α → Program Q R β) → Program Q R β
  | .ret a, next => next a
  | .call q k, next => .call q (fun r => (k r).bind next)

instance : Monad (Program Q R) where
  pure := .ret
  bind := bind

/-- Send one query and return its reply. -/
def send (q : Q) : Program Q R R := .call q .ret

@[simp] theorem pure_eq (a : α) : (pure a : Program Q R α) = .ret a := rfl

@[simp] theorem ret_bind (a : α) (next : α → Program Q R β) :
    (Program.ret a >>= next) = next a := rfl

@[simp] theorem call_bind (q : Q) (k : R → Program Q R α) (next : α → Program Q R β) :
    (Program.call q k >>= next) = .call q (fun r => k r >>= next) := rfl

@[simp] theorem send_bind (q : Q) (next : R → Program Q R β) :
    (send q >>= next) = .call q next := rfl

/-- `p.Residual p'`: after some replies, `p'` is what remains of `p`. -/
inductive Residual : Program Q R α → Program Q R α → Prop
  | refl (p) : Residual p p
  | reply (q) (k : R → Program Q R α) (r) (p) :
      Residual (k r) p → Residual (.call q k) p

/-- The query `q` is sent on some path through `p`. -/
def Issues (p : Program Q R α) (q : Q) : Prop := ∃ k, p.Residual (.call q k)

@[simp] theorem residual_ret (a : α) (p : Program Q R α) :
    Residual (.ret a) p ↔ p = .ret a := by
  constructor
  · intro h
    cases h
    rfl
  · rintro rfl
    exact .refl _

@[simp] theorem residual_call (q : Q) (k : R → Program Q R α) (p : Program Q R α) :
    Residual (.call q k) p ↔ p = .call q k ∨ ∃ r, (k r).Residual p := by
  constructor
  · intro h
    cases h with
    | refl => exact Or.inl rfl
    | reply _ _ r _ rest => exact Or.inr ⟨r, rest⟩
  · rintro (rfl | ⟨r, rest⟩)
    · exact .refl _
    · exact .reply q k r p rest

@[simp] theorem issues_ret (a : α) (q : Q) : ¬ (Program.ret a : Program Q R α).Issues q := by
  rintro ⟨k, h⟩
  cases (residual_ret a _).mp h

@[simp] theorem issues_call (q : Q) (k : R → Program Q R α) (q' : Q) :
    (Program.call q k).Issues q' ↔ q' = q ∨ ∃ r, (k r).Issues q' := by
  constructor
  · rintro ⟨k', h⟩
    rcases (residual_call q k _).mp h with same | ⟨r, rest⟩
    · injection same with hq
      exact Or.inl hq
    · exact Or.inr ⟨r, k', rest⟩
  · rintro (rfl | ⟨r, k', rest⟩)
    · exact ⟨k, .refl _⟩
    · exact ⟨k', .reply q k r _ rest⟩

@[simp] theorem issues_send (q q' : Q) :
    (send q : Program Q R R).Issues q' ↔ q' = q := by
  simp [send]

/-- A query of a sequence is sent by its first part or by its second. -/
theorem issues_bind {p : Program Q R α} {next : α → Program Q R β} {q : Q}
    (h : (p >>= next).Issues q) : p.Issues q ∨ ∃ a, (next a).Issues q := by
  induction p with
  | ret a => exact Or.inr ⟨a, h⟩
  | call q' k ih =>
      rcases (issues_call q' _ q).mp h with rfl | ⟨r, hrest⟩
      · exact Or.inl ((issues_call q k q).mpr (Or.inl rfl))
      · apply (ih r hrest).imp_left
        intro hissues
        exact (issues_call q' k q).mpr (Or.inr ⟨r, hissues⟩)

theorem Residual.answer {p : Program Q R α} {q : Q} {k : R → Program Q R α}
    (h : p.Residual (.call q k)) (r : R) : p.Residual (k r) := by
  induction p with
  | ret a =>
      rw [residual_ret] at h
      cases h
  | call q' k' ih =>
      rcases (residual_call q' k' _).mp h with same | ⟨r', rest⟩
      · injection same with hq hk
        subst hq hk
        exact .reply _ _ r _ (.refl _)
      · exact .reply q' k' r' _ (ih r' rest)

/-- One uninterrupted execution: `p` takes `s` to `t`, sends the listed
queries in order and ends with `a`. -/
inductive Execution (svc : Service σ Q R) :
    Program Q R α → σ → List Q → σ → α → Prop
  | ret (a) (s) : Execution svc (.ret a) s [] s a
  | call {q : Q} {k : R → Program Q R α} {s s' t : σ} {r : R} {qs : List Q} {a : α} :
      svc s q s' r → Execution svc (k r) s' qs t a →
      Execution svc (.call q k) s (q :: qs) t a

@[simp] theorem execution_ret (svc : Service σ Q R) (b : α) (s : σ) (qs : List Q)
    (t : σ) (a : α) :
    Execution svc (.ret b) s qs t a ↔ qs = [] ∧ t = s ∧ a = b := by
  constructor
  · intro h
    cases h
    exact ⟨rfl, rfl, rfl⟩
  · rintro ⟨rfl, rfl, rfl⟩
    exact .ret _ _

@[simp] theorem execution_call (svc : Service σ Q R) (q : Q)
    (k : R → Program Q R α) (s : σ) (qs : List Q) (t : σ) (a : α) :
    Execution svc (.call q k) s qs t a ↔
      ∃ s' r rest, svc s q s' r ∧ qs = q :: rest ∧ Execution svc (k r) s' rest t a := by
  constructor
  · intro h
    cases h with
    | call replied rest => exact ⟨_, _, _, replied, rfl, rest⟩
  · rintro ⟨s', r, rest, replied, rfl, remaining⟩
    exact .call replied remaining

/-- A service that always answers lets every program run to its end. -/
theorem exists_execution {svc : Service σ Q R} (htotal : svc.Total)
    (p : Program Q R α) (s : σ) : ∃ qs t a, Execution svc p s qs t a := by
  induction p generalizing s with
  | ret a => exact ⟨[], s, a, .ret a s⟩
  | call q k ih =>
      obtain ⟨s', r, replied⟩ := htotal s q
      obtain ⟨qs, t, a, rest⟩ := ih r s'
      exact ⟨q :: qs, t, a, .call replied rest⟩

end Program

/-- What the clients of one service agree on. Client `i` may rely on every
state change being within `later`, and owes `pre` whenever it sends a query;
`guarantee` is why keeping `pre` keeps every change within `later`. -/
structure Protocol (ι σ Q R : Type) where
  service : ι → Service σ Q R
  pre : ι → Q → σ → Prop
  later : σ → σ → Prop
  later_refl : ∀ s, later s s
  later_trans : ∀ {s t u}, later s t → later t u → later s u
  guarantee : ∀ {i s q t r}, pre i q s → service i s q t r → later s t

namespace Program

variable {ι σ Q R α β : Type} (P : Protocol ι σ Q R) (i : ι)

/-- Client `i`, left with this program in state `s`, keeps the protocol and
ends only in results and states satisfying `post`, however the other clients
move the service in between. -/
def Meets (post : α → σ → Prop) : Program Q R α → σ → Prop
  | .ret a, s => ∀ s', P.later s s' → post a s'
  | .call q k, s => ∀ s', P.later s s' → P.pre i q s' ∧
      ∀ t r, P.service i s' q t r → (k r).Meets post t

variable {P i}

theorem Meets.ret {post : α → σ → Prop} {a : α} {s : σ}
    (h : ∀ s', P.later s s' → post a s') :
    (Program.ret a : Program Q R α).Meets P i post s := h

theorem Meets.call {post : α → σ → Prop} {q : Q} {k : R → Program Q R α} {s : σ}
    (h : ∀ s', P.later s s' → P.pre i q s' ∧
      ∀ t r, P.service i s' q t r → (k r).Meets P i post t) :
    (Program.call q k).Meets P i post s := h

theorem Meets.later {post : α → σ → Prop} {p : Program Q R α} {s s' : σ}
    (h : p.Meets P i post s) (hlater : P.later s s') : p.Meets P i post s' := by
  cases p with
  | ret a => exact fun t ht => h t (P.later_trans hlater ht)
  | call q k => exact fun t ht => h t (P.later_trans hlater ht)

theorem Meets.ended {post : α → σ → Prop} {a : α} {s : σ}
    (h : (Program.ret a : Program Q R α).Meets P i post s) : post a s :=
  h s (P.later_refl s)

theorem Meets.sends {post : α → σ → Prop} {q : Q} {k : R → Program Q R α} {s : σ}
    (h : (Program.call q k).Meets P i post s) : P.pre i q s :=
  (h s (P.later_refl s)).1

theorem Meets.answered {post : α → σ → Prop} {q : Q} {k : R → Program Q R α}
    {s t : σ} {r : R} (h : (Program.call q k).Meets P i post s)
    (replied : P.service i s q t r) : (k r).Meets P i post t :=
  (h s (P.later_refl s)).2 t r replied

theorem Meets.weaken {post weaker : α → σ → Prop} {p : Program Q R α} {s : σ}
    (h : p.Meets P i post s) (himp : ∀ a t, post a t → weaker a t) :
    p.Meets P i weaker s := by
  induction p generalizing s with
  | ret a => exact fun t ht => himp a t (h t ht)
  | call q k ih =>
      intro s' hs'
      obtain ⟨hpre, hnext⟩ := h s' hs'
      exact ⟨hpre, fun t r replied => ih r (hnext t r replied)⟩

/-- Where nothing is owed, a fact that no client can undo holds at the end of
every program that begins with it. -/
theorem Meets.stable (hpre : ∀ i q s, P.pre i q s) {fact : σ → Prop}
    (hfact : ∀ {s t}, P.later s t → fact s → fact t) (p : Program Q R α) {s : σ}
    (h : fact s) : p.Meets P i (fun _ t => fact t) s := by
  induction p generalizing s with
  | ret a => exact fun s' hs' => hfact hs' h
  | call q k ih =>
      intro s' hs'
      refine ⟨hpre i q s', fun t r replied => ih r ?_⟩
      exact hfact (P.guarantee (hpre i q s') replied) (hfact hs' h)

/-- A program that sends only queries it may always send keeps the protocol. -/
theorem Meets.of_issues {p : Program Q R α} (hpre : ∀ q, p.Issues q → ∀ s, P.pre i q s)
    (s : σ) : p.Meets P i (fun _ _ => True) s := by
  induction p generalizing s with
  | ret a => exact fun _ _ => True.intro
  | call q k ih =>
      intro s' _
      refine ⟨hpre q ((issues_call q k q).mpr (Or.inl rfl)) s', fun t r _ => ih r ?_ t⟩
      intro q' hissues
      exact hpre q' ((issues_call q k q').mpr (Or.inr ⟨r, hissues⟩))

/-- Where nothing is owed, every program keeps the protocol. -/
theorem Meets.trivial (hpre : ∀ i q s, P.pre i q s) (p : Program Q R α) (s : σ) :
    p.Meets P i (fun _ _ => True) s :=
  Meets.of_issues (fun q _ s => hpre i q s) s

/-- Sequencing: the second part starts where the first part ends. -/
theorem Meets.bind {p : Program Q R α} {next : α → Program Q R β}
    {mid : α → σ → Prop} {post : β → σ → Prop} {s : σ} (h : p.Meets P i mid s)
    (hnext : ∀ a t, mid a t → (next a).Meets P i post t) :
    (p >>= next).Meets P i post s := by
  induction p generalizing s with
  | ret a => exact hnext a s h.ended
  | call q k ih =>
      intro s' hs'
      obtain ⟨hpre, hrest⟩ := h s' hs'
      exact ⟨hpre, fun t r replied => ih r (hrest t r replied)⟩

/-- An uninterrupted execution is a special case of an interrupted one. -/
theorem Meets.execution {post : α → σ → Prop} {p : Program Q R α} {s t : σ}
    {qs : List Q} {a : α} (h : p.Meets P i post s)
    (ran : Execution (P.service i) p s qs t a) : post a t := by
  induction ran with
  | ret a s => exact h.ended
  | call replied _ ih => exact ih (h.answered replied)

end Program

end Img2Web.Interaction
