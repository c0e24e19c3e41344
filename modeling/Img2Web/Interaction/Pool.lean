import Mathlib.Logic.Relation
import Img2Web.Interaction.Program

/-!
A pool of clients of one service. A client may arrive at any time, and one
query of one client is one atomic step, so a run of the pool is an arbitrary
interleaving of the queries of any number of clients.

The rules below reduce a fact about every run to facts about one client at a
time: a client that `Meets` its contract when it arrives still meets what is
left of it after any run, because the other clients keep the protocol too.
-/

namespace Img2Web.Interaction

open Relation

/-- The state of the service and, in order of arrival, every client with what
remains of its program. A client is never forgotten: it ends as `.ret`. -/
structure Pool (ι σ Q R α : Type) where
  state : σ
  clients : List (ι × Program Q R α)

namespace Pool

variable {ι σ Q R α : Type}

def empty (s : σ) : Pool ι σ Q R α := ⟨s, []⟩

def arrive (main : ι → Program Q R α) (c : Pool ι σ Q R α) (i : ι) :
    Pool ι σ Q R α :=
  {c with clients := c.clients ++ [(i, main i)]}

/-- Client `n` received reply `r` and the service moved to `t`. -/
def advance (c : Pool ι σ Q R α) (n : Nat) (i : ι) (t : σ)
    (p : Program Q R α) : Pool ι σ Q R α :=
  ⟨t, c.clients.set n (i, p)⟩

inductive Step (svc : ι → Service σ Q R) (main : ι → Program Q R α) :
    Pool ι σ Q R α → Pool ι σ Q R α → Prop
  | arrive (c : Pool ι σ Q R α) (i : ι) : Step svc main c (c.arrive main i)
  | turn {c : Pool ι σ Q R α} {n : Nat} {i : ι} {q : Q}
      {k : R → Program Q R α} {t : σ} {r : R} :
      c.clients[n]? = some (i, .call q k) → svc i c.state q t r →
      Step svc main c (c.advance n i t (k r))

def Run (svc : ι → Service σ Q R) (main : ι → Program Q R α) :
    Pool ι σ Q R α → Pool ι σ Q R α → Prop :=
  ReflTransGen (Step svc main)

/-- Every client in the pool has ended. -/
def Quiet (c : Pool ι σ Q R α) : Prop :=
  ∀ i p, (i, p) ∈ c.clients → ∃ a, p = .ret a

/-- Who the clients are. -/
def requests (c : Pool ι σ Q R α) : List ι := c.clients.map Prod.fst

@[simp] theorem advance_state (c : Pool ι σ Q R α) (n : Nat) (i : ι) (t : σ)
    (p : Program Q R α) : (c.advance n i t p).state = t := rfl

theorem arrive_clients (main : ι → Program Q R α) (c : Pool ι σ Q R α) (i : ι) :
    (c.arrive main i).clients = c.clients ++ [(i, main i)] := rfl

theorem arrive_new (main : ι → Program Q R α) (c : Pool ι σ Q R α) (i : ι) :
    (c.arrive main i).clients[c.clients.length]? = some (i, main i) := by
  simp [arrive]

theorem advance_self {c : Pool ι σ Q R α} {n : Nat} {i j : ι}
    {p : Program Q R α} (hn : c.clients[n]? = some (j, p)) (t : σ)
    (p' : Program Q R α) : (c.advance n i t p').clients[n]? = some (i, p') := by
  obtain ⟨hlt, _⟩ := List.getElem?_eq_some_iff.mp hn
  simp [advance, hlt]

theorem advance_other (c : Pool ι σ Q R α) {n m : Nat} (hne : m ≠ n) (i : ι)
    (t : σ) (p : Program Q R α) :
    (c.advance n i t p).clients[m]? = c.clients[m]? := by
  simp [advance, List.getElem?_set_ne (Ne.symm hne)]

theorem advance_requests {c : Pool ι σ Q R α} {n : Nat} {i : ι} {p : Program Q R α}
    (hn : c.clients[n]? = some (i, p)) (t : σ) (p' : Program Q R α) :
    (c.advance n i t p').requests = c.requests := by
  obtain ⟨hlt, hget⟩ := List.getElem?_eq_some_iff.mp hn
  have hself : (c.clients.map Prod.fst).set n i = c.clients.map Prod.fst := by
    apply List.ext_getElem
    · simp
    · intro m hm hm'
      by_cases hmn : n = m
      · subst hmn
        simp [hget]
      · simp [hmn]
  simpa [requests, advance, List.map_set] using hself

/-- What one step does to a client that was already there: nothing, or its
own query is answered. -/
theorem Step.client {svc : ι → Service σ Q R} {main : ι → Program Q R α}
    {c c' : Pool ι σ Q R α} (h : Step svc main c c') {m : Nat} {i : ι}
    {p : Program Q R α} (hm : c.clients[m]? = some (i, p)) :
    c'.clients[m]? = some (i, p) ∨
      ∃ q k t r, p = .call q k ∧ svc i c.state q t r ∧
        c' = c.advance m i t (k r) := by
  cases h with
  | arrive j =>
      left
      rw [arrive_clients, List.getElem?_append_left]
      · exact hm
      · exact (List.getElem?_eq_some_iff.mp hm).1
  | @turn n j q k t r hn replied =>
      by_cases hmn : m = n
      · subst hmn
        obtain ⟨rfl, rfl⟩ : j = i ∧ .call q k = p := by simpa [hn] using hm
        exact Or.inr ⟨q, k, t, r, rfl, replied, rfl⟩
      · exact Or.inl ((advance_other c hmn j t (k r)).trans hm)

/-- Where a client seen after one step comes from: it just arrived, it was
already there, or its query was just answered. -/
theorem Step.origin {svc : ι → Service σ Q R} {main : ι → Program Q R α}
    {c c' : Pool ι σ Q R α} (h : Step svc main c c') {m : Nat} {i : ι}
    {p' : Program Q R α} (hm : c'.clients[m]? = some (i, p')) :
    (m = c.clients.length ∧ p' = main i ∧ c' = c.arrive main i) ∨
      c.clients[m]? = some (i, p') ∨
      ∃ q k t r, c.clients[m]? = some (i, .call q k) ∧ p' = k r ∧
        svc i c.state q t r ∧ c' = c.advance m i t (k r) := by
  cases h with
  | arrive j =>
      rw [arrive_clients] at hm
      rcases Nat.lt_trichotomy m c.clients.length with hlt | heq | hgt
      · rw [List.getElem?_append_left hlt] at hm
        exact Or.inr (Or.inl hm)
      · subst heq
        obtain ⟨rfl, rfl⟩ : j = i ∧ main j = p' := by simpa using hm
        exact Or.inl ⟨rfl, rfl, rfl⟩
      · rw [List.getElem?_eq_none (by simp; omega)] at hm
        cases hm
  | @turn n j q k t r hn replied =>
      by_cases hmn : m = n
      · subst hmn
        rw [advance_self hn] at hm
        obtain ⟨rfl, rfl⟩ : j = i ∧ k r = p' := by simpa using hm
        exact Or.inr (Or.inr ⟨q, k, t, r, hn, rfl, replied, rfl⟩)
      · rw [advance_other c hmn] at hm
        exact Or.inr (Or.inl hm)

/-- A property of the pool that holds at the start and survives every step
holds in every state of the run. -/
theorem Run.invariant {svc : ι → Service σ Q R} {main : ι → Program Q R α}
    {c c' : Pool ι σ Q R α} (h : Run svc main c c') {I : Pool ι σ Q R α → Prop}
    (hstep : ∀ {d d'}, I d → Step svc main d d' → I d') (hinit : I c) : I c' := by
  induction h with
  | refl => exact hinit
  | tail _ hlast ih => exact hstep ih hlast

/-- A run of a service is a run of every service that allows more. -/
theorem Run.mono {svc svc' : ι → Service σ Q R} {main : ι → Program Q R α}
    {c c' : Pool ι σ Q R α} (h : Run svc main c c')
    (hsvc : ∀ i s q t r, svc i s q t r → svc' i s q t r) : Run svc' main c c' := by
  induction h with
  | refl => exact .refl
  | tail _ hlast ih =>
      cases hlast with
      | arrive i => exact .tail ih (.arrive _ i)
      | turn hn replied => exact .tail ih (.turn hn (hsvc _ _ _ _ _ replied))

section Residual

variable {svc : ι → Service σ Q R} {main : ι → Program Q R α}

/-- Every client is somewhere inside its own program. -/
def Inside (main : ι → Program Q R α) (c : Pool ι σ Q R α) : Prop :=
  ∀ (m : Nat) (i : ι) (p : Program Q R α),
    c.clients[m]? = some (i, p) → (main i).Residual p

theorem Inside.step {c c' : Pool ι σ Q R α} (hc : c.Inside main)
    (h : Step svc main c c') : c'.Inside main := by
  intro m i p hm
  rcases h.origin hm with ⟨_, rfl, _⟩ | hold | ⟨q, k, t, r, hold, rfl, _, _⟩
  · exact .refl _
  · exact hc m i p hold
  · exact (hc m i _ hold).answer r

theorem Run.inside {c c' : Pool ι σ Q R α} (h : Run svc main c c')
    (hc : c.Inside main) : c'.Inside main :=
  h.invariant Inside.step hc

theorem empty_inside (s : σ) : (empty s : Pool ι σ Q R α).Inside main := by
  intro m i p hm
  simp [empty] at hm

variable (svc) in
/-- An uninterrupted execution of one client is a run of the pool. -/
theorem run_of_execution {p : Program Q R α} {s t : σ} {qs : List Q} {a : α}
    {i : ι} (h : p.Execution (svc i) s qs t a) {c : Pool ι σ Q R α} {n : Nat}
    (hs : c.state = s) (hn : c.clients[n]? = some (i, p)) :
    Run svc main c (c.advance n i t (.ret a)) := by
  induction h generalizing c with
  | ret a s =>
      obtain ⟨hlt, hget⟩ := List.getElem?_eq_some_iff.mp hn
      have hsame : c.advance n i s (.ret a) = c := by
        cases c
        subst hs
        simp only [advance, mk.injEq, true_and]
        rw [← hget]
        exact List.set_getElem_self hlt
      rw [hsame]
      exact .refl
  | @call q k s s' t r qs a replied _ ih =>
      subst hs
      have hstep : Step svc main c (c.advance n i s' (k r)) := .turn hn replied
      have hrest := ih (c := c.advance n i s' (k r)) rfl (advance_self hn s' (k r))
      have htwice : (c.advance n i s' (k r)).advance n i t (.ret a) =
          c.advance n i t (.ret a) := by
        simp [advance]
      rw [htwice] at hrest
      exact .head hstep hrest

variable (svc) in
/-- A pool in which one client arrived and ran to its end. -/
theorem run_alone {i : ι} {s t : σ} {qs : List Q} {a : α}
    (h : (main i).Execution (svc i) s qs t a) :
    Run svc main ((empty s).arrive main i) ⟨t, [(i, .ret a)]⟩ :=
  run_of_execution svc h rfl (arrive_new main (empty s) i)

/-- If the service always answers, the clients that are there can be run to
their ends, with nobody arriving meanwhile. -/
theorem exists_quiet (htotal : ∀ i, (svc i).Total) (c : Pool ι σ Q R α) :
    ∃ c', Run svc main c c' ∧ c'.requests = c.requests ∧ c'.Quiet := by
  have hfirst (n : Nat) : ∃ c', Run svc main c c' ∧ c'.requests = c.requests ∧
      ∀ m < n, ∀ i p, c'.clients[m]? = some (i, p) → ∃ a, p = .ret a := by
    induction n with
    | zero => exact ⟨c, .refl, rfl, fun m hm => absurd hm (Nat.not_lt_zero m)⟩
    | succ n ih =>
        obtain ⟨c', hrun, hrequests, hended⟩ := ih
        cases hn : c'.clients[n]? with
        | none =>
            refine ⟨c', hrun, hrequests, fun m hm i p hclient => ?_⟩
            rcases Nat.lt_succ_iff_lt_or_eq.mp hm with hlt | rfl
            · exact hended m hlt i p hclient
            · rw [hn] at hclient
              cases hclient
        | some client =>
            obtain ⟨j, q⟩ := client
            obtain ⟨qs, t, a, hexecution⟩ := Program.exists_execution (htotal j) q c'.state
            have hrest : Run svc main c' (c'.advance n j t (.ret a)) :=
              run_of_execution svc hexecution rfl hn
            refine ⟨_, hrun.trans hrest, (advance_requests hn t _).trans hrequests, ?_⟩
            intro m hm i p hclient
            rcases Nat.lt_succ_iff_lt_or_eq.mp hm with hlt | rfl
            · rw [advance_other c' (Nat.ne_of_lt hlt)] at hclient
              exact hended m hlt i p hclient
            · rw [advance_self hn] at hclient
              obtain ⟨-, rfl⟩ := Prod.mk.inj (Option.some.inj hclient)
              exact ⟨a, rfl⟩
  obtain ⟨c', hrun, hrequests, hended⟩ := hfirst c.clients.length
  refine ⟨c', hrun, hrequests, fun i p hclient => ?_⟩
  obtain ⟨m, hm⟩ := List.mem_iff_getElem?.mp hclient
  have hlength : c'.clients.length = c.clients.length := by
    simpa [requests] using congrArg List.length hrequests
  apply hended m _ i p hm
  rw [← hlength]
  exact (List.getElem?_eq_some_iff.mp hm).1

end Residual

section Contracts

variable {P : Protocol ι σ Q R} {main : ι → Program Q R α}
  {post : ι → α → σ → Prop}

/-- Every client in the pool meets what is left of its contract. -/
def Kept (P : Protocol ι σ Q R) (post : ι → α → σ → Prop)
    (c : Pool ι σ Q R α) : Prop :=
  ∀ (m : Nat) (i : ι) (p : Program Q R α),
    c.clients[m]? = some (i, p) → p.Meets P i (post i) c.state

theorem empty_kept (s : σ) : (empty s : Pool ι σ Q R α).Kept P post := by
  intro m i p hm
  simp [empty] at hm

theorem Kept.later {c c' : Pool ι σ Q R α} (hc : c.Kept P post)
    (h : Step P.service main c c') : P.later c.state c'.state := by
  cases h with
  | arrive j => exact P.later_refl _
  | turn hn replied => exact P.guarantee (hc _ _ _ hn).sends replied

theorem Kept.step (hmain : ∀ i s, (main i).Meets P i (post i) s)
    {c c' : Pool ι σ Q R α} (hc : c.Kept P post) (h : Step P.service main c c') :
    c'.Kept P post := by
  intro m i p hm
  rcases h.origin hm with ⟨_, rfl, rfl⟩ | hold | ⟨q, k, t, r, hold, rfl, replied, rfl⟩
  · exact hmain i _
  · exact (hc m i p hold).later (hc.later h)
  · exact (hc m i _ hold).answered replied

theorem Run.kept (hmain : ∀ i s, (main i).Meets P i (post i) s)
    {c c' : Pool ι σ Q R α} (h : Run P.service main c c') (hc : c.Kept P post) :
    c'.Kept P post :=
  h.invariant (Kept.step hmain) hc

theorem Run.later (hmain : ∀ i s, (main i).Meets P i (post i) s)
    {c c' : Pool ι σ Q R α} (h : Run P.service main c c') (hc : c.Kept P post) :
    P.later c.state c'.state := by
  induction h with
  | refl => exact P.later_refl _
  | tail hinit hlast ih =>
      exact P.later_trans ih ((Run.kept hmain hinit hc).later hlast)

/-- One client may be held to a contract of its own, for instance one that
names the state in which it arrived. -/
theorem Run.follows (hmain : ∀ i s, (main i).Meets P i (post i) s)
    {c c' : Pool ι σ Q R α} (h : Run P.service main c c') (hc : c.Kept P post)
    {m : Nat} {i : ι} {p : Program Q R α} {own : α → σ → Prop}
    (hm : c.clients[m]? = some (i, p)) (hp : p.Meets P i own c.state) :
    ∃ p', c'.clients[m]? = some (i, p') ∧ p'.Meets P i own c'.state := by
  induction h with
  | refl => exact ⟨p, hm, hp⟩
  | tail hinit hlast ih =>
      obtain ⟨p', hp', hmeets⟩ := ih
      rcases hlast.client hp' with hsame | ⟨q, k, t, r, rfl, replied, rfl⟩
      · exact ⟨p', hsame, hmeets.later ((Run.kept hmain hinit hc).later hlast)⟩
      · exact ⟨k r, advance_self hp' t (k r), hmeets.answered replied⟩

/-- The contract of a client that arrives now, seen when it has ended. -/
theorem Run.arrived (hmain : ∀ i s, (main i).Meets P i (post i) s)
    {c c' : Pool ι σ Q R α} {i : ι} (h : Run P.service main (c.arrive main i) c')
    (hc : c.Kept P post) {own : α → σ → Prop}
    (hown : (main i).Meets P i own c.state) {a : α}
    (hended : c'.clients[c.clients.length]? = some (i, .ret a)) :
    own a c'.state := by
  have hkept : (c.arrive main i).Kept P post := hc.step hmain (.arrive c i)
  obtain ⟨p', hp', hmeets⟩ :=
    Run.follows hmain h hkept (arrive_new main c i) hown
  obtain rfl : p' = .ret a := by simpa [hp'] using hended
  exact hmeets.ended

end Contracts

end Pool

end Img2Web.Interaction
