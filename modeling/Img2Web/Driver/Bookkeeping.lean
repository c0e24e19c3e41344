import Img2Web.Driver.Protocol

/-!
What a connection knows of its requests and of the frames on their way, and
how the calls of `Connection` change it: of the pending writes, of the request
a call is about, of the other requests, and of the socket.
-/

namespace Img2Web.Driver

namespace Connection

variable {ι κ ρ : Type}

/-! ### Pending writes -/

theorem handlersOf_append (front : List (PendingWrite ι κ)) (back : PendingWrite ι κ) :
    handlersOf (front ++ [back]) = handlersOf front ++ back.handlers := by
  simp [handlersOf]

theorem unflushedOf_append (front : List (PendingWrite ι κ)) (back : PendingWrite ι κ)
    (hback : back.flushed = false) :
    unflushedOf (front ++ [back]) = unflushedOf front ++ back.buffers := by
  simp [unflushedOf, hback]

theorem unflushedOf_append_flushed (front : List (PendingWrite ι κ)) (back : PendingWrite ι κ)
    (hback : back.flushed = true) : unflushedOf (front ++ [back]) = unflushedOf front := by
  simp [unflushedOf, hback]

/-- The open write is the back of the list, or a new and empty one. -/
theorem openWrite_spec (writes : List (PendingWrite ι κ)) :
    (openWrite writes).2.flushed = false ∧
      handlersOf ((openWrite writes).1 ++ [(openWrite writes).2]) = handlersOf writes ∧
      unflushedOf ((openWrite writes).1 ++ [(openWrite writes).2]) = unflushedOf writes ∧
      (∀ p ∈ (openWrite writes).1, p ∈ writes) ∧
      ((openWrite writes).2 ∈ writes ∨ (openWrite writes).2 = ⟨false, false, [], []⟩) := by
  cases hlast : writes.getLast? with
  | none =>
      have hnil : writes = [] := List.getLast?_eq_none_iff.mp hlast
      subst hnil
      simp [openWrite, handlersOf, unflushedOf]
  | some back =>
      obtain ⟨front, rfl⟩ := List.getLast?_eq_some_iff.mp hlast
      by_cases hflushed : back.flushed = true
      · simp only [openWrite, hlast, hflushed, if_true, handlersOf_append, unflushedOf_append,
          List.append_nil]
        simp
      · rw [Bool.not_eq_true] at hflushed
        simp only [openWrite, hlast, hflushed, if_false, List.dropLast_concat, Bool.false_eq_true]
        exact ⟨trivial, trivial, trivial, fun p hp => List.mem_append_left _ hp,
          Or.inl (by simp)⟩

/-- Adding a request to the open write leaves the other writes as they are. -/
theorem addWrite_spec (writes : List (PendingWrite ι κ)) (f : Frame κ) (h : ι) :
    handlersOf (addWrite writes f h) = handlersOf writes ++ [h] ∧
      unflushedOf (addWrite writes f h) = unflushedOf writes ++ [f] ∧
      ∀ p ∈ addWrite writes f h, p ∈ writes ∨
        ∃ back : PendingWrite ι κ, (back ∈ writes ∨ back = ⟨false, false, [], []⟩) ∧
          back.flushed = false ∧
          p = {back with buffers := back.buffers ++ [f], handlers := back.handlers ++ [h]} := by
  obtain ⟨hback, hhandlersOf, hunflushedOf, hfront, hmem⟩ := openWrite_spec writes
  unfold addWrite
  generalize openWrite writes = parts at *
  obtain ⟨front, back⟩ := parts
  simp only at hback hhandlersOf hunflushedOf hfront hmem ⊢
  refine ⟨?_, ?_, ?_⟩
  · rw [← hhandlersOf]
    simp only [handlersOf_append, List.append_assoc]
  · rw [← hunflushedOf, unflushedOf_append _ _ hback]
    simp only [List.append_assoc, unflushedOf_append, hback]
  · intro p hp
    rcases List.mem_append.mp hp with hp | hp
    · exact Or.inl (hfront p hp)
    · exact Or.inr ⟨back, hmem, hback, List.mem_singleton.mp hp⟩

/-- Flushing moves frames from the open write to the socket, if it is still
open, and changes nothing else. -/
structure Flushed (c c' : Connection ι κ ρ) : Prop where
  handlers : c'.handlers = c.handlers
  refs : c'.refs = c.refs
  streams : c'.streams = c.streams
  pendingReads : c'.pendingReads = c.pendingReads
  closing : c'.closing = c.closing
  task : c'.task = c.task
  history : c'.history = c.history
  handlersOf : handlersOf c'.pendingWrites = handlersOf c.pendingWrites
  opened : ∀ p ∈ c'.pendingWrites, p.flushed = false → p ∈ c.pendingWrites
  less : ∀ s, c'.unflushed.countP (fun f => f.stream = s) ≤
    c.unflushed.countP (fun f => f.stream = s)
  subset : ∀ f ∈ c'.unflushed, f ∈ c.unflushed
  moved : c.closing = false → (c'.unflushed ++ c'.outbound).Perm (c.unflushed ++ c.outbound)

theorem Flushed.refl (c : Connection ι κ ρ) : Flushed c c :=
  ⟨rfl, rfl, rfl, rfl, rfl, rfl, rfl, rfl, fun _ h _ => h, fun _ => Nat.le_refl _,
    fun _ h => h, fun _ => .refl _⟩

theorem flush_spec (c : Connection ι κ ρ) : Flushed c c.flush := by
  cases hlast : c.pendingWrites.getLast? with
  | none =>
      simp only [flush, hlast]
      exact .refl c
  | some back =>
      simp only [flush, hlast]
      split
      case isTrue => exact .refl c
      case isFalse hflush =>
        simp only [Bool.or_eq_true, not_or, Bool.not_eq_true] at hflush
        obtain ⟨front, hwrites⟩ := List.getLast?_eq_some_iff.mp hlast
        have hbefore : c.unflushed = unflushedOf front ++ back.buffers := by
          rw [unflushed, hwrites, unflushedOf_append _ _ hflush.1]
        have hafter : unflushedOf (front ++ [{back with
            flushed := true, submitted := !c.closing}]) = unflushedOf front :=
          unflushedOf_append_flushed _ _ rfl
        rw [hwrites, List.dropLast_concat]
        constructor
        case handlers | refs | streams | pendingReads | closing | task | history => rfl
        case handlersOf => rw [hwrites, handlersOf_append, handlersOf_append]
        case opened =>
          intro p hp hopen
          rcases List.mem_append.mp hp with hfront | hback
          · rw [hwrites]
            exact List.mem_append_left _ hfront
          · rw [List.mem_singleton] at hback
            subst hback
            simp at hopen
        case less =>
          intro s
          rw [hbefore, unflushed, hafter, List.countP_append]
          exact Nat.le_add_right _ _
        case subset =>
          intro f hf
          rw [unflushed, hafter] at hf
          rw [hbefore]
          exact List.mem_append_left _ hf
        case moved =>
          intro hopen
          rw [unflushed, hafter, hbefore, hopen]
          simp only [Bool.false_eq_true, if_false, List.append_assoc]
          exact List.perm_append_comm.append_left _

/-- Requests of an open write that keep their stream and their wait. -/
theorem open_of_same {c c' : Connection ι κ ρ} {p : PendingWrite ι κ} (hp : c.Open p)
    (hsame : ∀ h ∈ p.handlers, (c'.handlers h).stream = (c.handlers h).stream ∧
      ((c.state h).waiting = true → (c'.state h).waiting = true)) : c'.Open p where
  streams := by
    rw [hp.streams]
    apply List.map_congr_left
    intro h hh
    rw [(hsame h hh).1]
  waiting := fun h hh => (hsame h hh).2 (hp.waiting h hh)

theorem open_of_other {c c' : Connection ι κ ρ} {p : PendingWrite ι κ} {h : ι} (hp : c.Open p)
    (hhandlers : ∀ h' ≠ h, c'.handlers h' = c.handlers h') (hmem : h ∉ p.handlers) :
    c'.Open p := by
  apply open_of_same hp
  intro h' hh'
  have hne : h' ≠ h := fun heq => hmem (heq ▸ hh')
  rw [state, state, hhandlers h' hne]
  exact ⟨rfl, id⟩

/-! ### The streams of the other requests -/

/-- Erasing the stream of one request leaves the other requests theirs. -/
theorem lookup_erase_other {table : Finmap fun _ : Nat => ι} {h h' : ι} {s₀ : Nat}
    (hs : table.lookup s₀ = some h) (hne : h' ≠ h) (s : Nat) :
    (table.erase s₀).lookup s = some h' ↔ table.lookup s = some h' := by
  by_cases hss : s = s₀
  · subst hss
    rw [Finmap.lookup_erase, hs]
    simp only [reduceCtorEq, Option.some.injEq, false_iff]
    exact fun h => hne h.symm
  · rw [Finmap.lookup_erase_ne hss]

theorem lookup_insert_other {table : Finmap fun _ : Nat => ι} {h h' : ι} {s₀ : Nat}
    (hs : s₀ ∉ table) (hne : h' ≠ h) (s : Nat) :
    (table.insert s₀ h).lookup s = some h' ↔ table.lookup s = some h' := by
  by_cases hss : s = s₀
  · subst hss
    rw [Finmap.lookup_insert, Finmap.lookup_eq_none.mpr hs]
    simp only [reduceCtorEq, Option.some.injEq, iff_false]
    exact fun h => hne h.symm
  · rw [Finmap.lookup_insert_of_ne _ hss]

theorem erase_insert {table : Finmap fun _ : Nat => ι} {s : Nat} (hs : s ∉ table) (h : ι) :
    (table.insert s h).erase s = table := by
  apply Finmap.ext_lookup
  intro s'
  by_cases hss : s' = s
  · subst hss
    rw [Finmap.lookup_erase, Finmap.lookup_eq_none.mpr hs]
  · rw [Finmap.lookup_erase_ne hss, Finmap.lookup_insert_of_ne _ hss]

/-- What `c'` may not change of `c` while a request is worked on. -/
structure Keeps (c c' : Connection ι κ ρ) : Prop where
  task : c'.task = c.task
  writes : c'.pendingWrites = c.pendingWrites
  closing : c.closing = true → c'.closing = true

theorem Keeps.refl (c : Connection ι κ ρ) : c.Keeps c := ⟨rfl, rfl, id⟩

theorem Keeps.trans {c₁ c₂ c₃ : Connection ι κ ρ} (h : c₁.Keeps c₂) (h' : c₂.Keeps c₃) :
    c₁.Keeps c₃ :=
  ⟨h'.task.trans h.task, h'.writes.trans h.writes, fun hclosing => h'.closing (h.closing hclosing)⟩

theorem Keeps.closeIf {c c' : Connection ι κ ρ} (h : c.Keeps c') (defunct : Bool) :
    c.Keeps (c'.closeIf defunct) := by
  cases defunct with
  | false => exact h
  | true => exact ⟨h.task, h.writes, fun _ => rfl⟩

theorem Keeps.note {c c' : Connection ι κ ρ} (h : c.Keeps c') (n : Note ι κ ρ) :
    c.Keeps (c'.note n) :=
  ⟨h.task, h.writes, h.closing⟩

variable [DecidableEq ι]

/-! ### One request at a time -/

/-- What is known of a request stays true while a call leaves it alone. -/
theorem Consistent.of_same {c c' : Connection ι κ ρ} {h : ι} (hc : c.Consistent h)
    (hhandlers : c'.handlers h = c.handlers h) (hrefs : c'.refs h = c.refs h)
    (hreads : c'.pendingReads.count h = c.pendingReads.count h)
    (hqueue : c'.queue.count h = c.queue.count h)
    (htable : ∀ s, c'.streams.pending.lookup s = some h ↔ c.streams.pending.lookup s = some h)
    (hhistory : outstanding c'.history h = outstanding c.history h) : c'.Consistent h := by
  have hstate : c'.state h = c.state h := by rw [state, state, hhandlers]
  constructor
  case reads => rw [hreads, hstate]; exact hc.reads
  case queue => rw [hqueue, hstate]; exact hc.queue
  case refs => rw [hrefs, hstate]; exact hc.refs
  case timer => rw [hhandlers, hstate]; exact hc.timer
  case numbered => rw [hhandlers, hstate]; exact hc.numbered
  case table =>
    intro s
    rw [htable, hhandlers, hstate]
    exact hc.table s
  case history => rw [hhistory, hstate]; exact hc.history

/-- Of the other requests nothing is known that a call did not leave as it was. -/
theorem consistent_of_self {c c' : Connection ι κ ρ} {h : ι} (hc : ∀ h', c.Consistent h')
    (hhandlers : ∀ h' ≠ h, c'.handlers h' = c.handlers h')
    (hrefs : ∀ h' ≠ h, c'.refs h' = c.refs h')
    (hreads : ∀ h' ≠ h, c'.pendingReads.count h' = c.pendingReads.count h')
    (hqueue : ∀ h' ≠ h, c'.queue.count h' = c.queue.count h')
    (htable : ∀ h' ≠ h, ∀ s, c'.streams.pending.lookup s = some h' ↔
      c.streams.pending.lookup s = some h')
    (hhistory : ∀ h' ≠ h, outstanding c'.history h' = outstanding c.history h')
    (hself : c'.Consistent h) (h' : ι) : c'.Consistent h' := by
  by_cases hh : h' = h
  · subst hh
    exact hself
  · exact (hc h').of_same (hhandlers h' hh) (hrefs h' hh) (hreads h' hh) (hqueue h' hh)
      (htable h' hh) (hhistory h' hh)

/-- The holder of a stream, found by its number. -/
theorem Consistent.holder {c : Connection ι κ ρ} {h : ι} {s : Nat} (hc : c.Consistent h)
    (hs : c.streams.pending.lookup s = some h) :
    (c.handlers h).stream = some s ∧ (c.state h).waiting = true := (hc.table s).mp hs

/-- A request that gave its stream back has none. -/
theorem Consistent.erased {c : Connection ι κ ρ} {h : ι} {s : Nat} (hc : c.Consistent h)
    (hlookup : c.streams.pending.lookup s = some h) (s' : Nat) :
    (c.streams.pending.erase s).lookup s' ≠ some h := by
  intro hs'
  by_cases hss : s' = s
  · subst hss
    rw [Finmap.lookup_erase] at hs'
    simp at hs'
  · rw [Finmap.lookup_erase_ne hss] at hs'
    have hstream := ((hc.table s').mp hs').1
    rw [(hc.holder hlookup).1, Option.some.injEq] at hstream
    exact hss hstream.symm

/-- A request that does not wait for a response any more: all that is left to
know is where it is filed. -/
theorem consistent_of_not_waiting {c : Connection ι κ ρ} {h : ι}
    (hwaiting : (c.state h).waiting = false)
    (hreads : c.pendingReads.count h = 0) (hqueue : c.queue.count h = (c.state h).queued.toNat)
    (hrefs : c.refs h = (c.state h).queued.toNat) (htimer : (c.handlers h).timer = false)
    (htable : ∀ s, c.streams.pending.lookup s ≠ some h)
    (hhistory : outstanding c.history h = none) : c.Consistent h := by
  have hnot : (c.state h).active = false ∧ (c.state h).inReads = false := by
    revert hwaiting
    cases c.state h <;> decide
  constructor
  case reads => rw [hreads, hnot.2]; rfl
  case queue => exact hqueue
  case refs => rw [hrefs, hnot.2, Bool.toNat_false, Nat.zero_add]
  case timer => rw [htimer, hnot.1]
  case numbered =>
    rw [hwaiting]
    exact fun h => Bool.noConfusion h
  case table =>
    intro s
    rw [hwaiting]
    exact ⟨fun hs => absurd hs (htable s), fun hs => Bool.noConfusion hs.2⟩
  case history => rw [hhistory, hnot.1]; rfl

/-! ### Frames and messages on their way -/

section Wire

variable {answers : κ → ρ → Prop} {c c' : Connection ι κ ρ} {frames frames' : List (Frame κ)}
  {messages messages' : List (Message ρ)}

theorem Wire.mono (hw : c.Wire answers frames messages)
    (hcount : ∀ s : Nat, frames'.countP (fun f => f.stream = s) +
        messages'.countP (fun m => m.stream = (s : Int)) ≤
      frames.countP (fun f => f.stream = s) + messages.countP (fun m => m.stream = (s : Int)))
    (hframes : ∀ f ∈ frames', f ∈ frames) (hmessages : ∀ m ∈ messages', m ∈ messages) :
    c.Wire answers frames' messages' where
  once := fun s => (hcount s).trans (hw.once s)
  frame := fun f hf => hw.frame f (hframes f hf)
  message := fun m hm => hw.message m (hmessages m hm)

/-- A call that leaves the streams alone, and at most ends the wait of some
request. -/
theorem Wire.change (hw : c.Wire answers frames messages)
    (htable : c'.streams.pending = c.streams.pending)
    (hactive : ∀ h, (c'.state h).active = true → (c.state h).active = true ∧
      outstanding c'.history h = outstanding c.history h) :
    c'.Wire answers frames messages where
  once := by rw [htable]; exact hw.once
  frame := by
    intro f hf h hlookup hh
    rw [htable] at hlookup
    rw [(hactive h hh).2]
    exact hw.frame f hf h hlookup (hactive h hh).1
  message := by
    intro m hm s hs h hlookup hh
    rw [htable] at hlookup
    rw [(hactive h hh).2]
    exact hw.message m hm s hs h hlookup (hactive h hh).1

theorem Wire.of_eq (hw : c.Wire answers frames messages) (hhandlers : c'.handlers = c.handlers)
    (hpending : c'.streams.pending = c.streams.pending) (hhistory : c'.history = c.history) :
    c'.Wire answers frames messages := by
  apply hw.change hpending
  · intro h hh
    rw [state, hhandlers] at hh
    rw [hhistory]
    exact ⟨hh, rfl⟩

/-- Giving back a stream that nothing on the way carries. -/
theorem Wire.release {s₀ : Nat} (hw : c.Wire answers frames messages)
    (hnone : frames.countP (fun f => f.stream = s₀) +
      messages.countP (fun m => m.stream = (s₀ : Int)) = 0)
    (htable : c'.streams.pending = c.streams.pending.erase s₀)
    (hactive : ∀ h, (c'.state h).active = true → (c.state h).active = true ∧
      outstanding c'.history h = outstanding c.history h) :
    c'.Wire answers frames messages := by
  have hsub : ∀ s h, c'.streams.pending.lookup s = some h →
      c.streams.pending.lookup s = some h := by
    intro s h hlookup
    rw [htable] at hlookup
    by_cases hs : s = s₀
    · rw [hs, Finmap.lookup_erase] at hlookup
      simp at hlookup
    · rwa [Finmap.lookup_erase_ne hs] at hlookup
  constructor
  case once =>
    intro s
    by_cases hs : s = s₀
    · subst hs
      rw [hnone]
      exact Nat.zero_le _
    · have hmem : s ∈ c'.streams.pending ↔ s ∈ c.streams.pending := by
        rw [htable, Finmap.mem_erase]
        exact and_iff_right hs
      simp only [hmem]
      exact hw.once s
  case frame =>
    intro f hf h hlookup hh
    rw [(hactive h hh).2]
    exact hw.frame f hf h (hsub _ _ hlookup) (hactive h hh).1
  case message =>
    intro m hm s hs h hlookup hh
    rw [(hactive h hh).2]
    exact hw.message m hm s hs h (hsub _ _ hlookup) (hactive h hh).1

/-- The message that is consumed was the only one with its stream. -/
theorem Wire.consumed {m : Message ρ} {s₀ : Nat} (hw : c.Wire answers frames (m :: messages))
    (hm : m.stream = (s₀ : Int))
    (htable : c'.streams.pending = c.streams.pending.erase s₀)
    (hactive : ∀ h, (c'.state h).active = true → (c.state h).active = true ∧
      outstanding c'.history h = outstanding c.history h) :
    c'.Wire answers frames messages := by
  have hone := hw.once s₀
  rw [List.countP_cons, if_pos (by simpa using hm)] at hone
  have hnone : frames.countP (fun f => f.stream = s₀) +
      messages.countP (fun m => m.stream = (s₀ : Int)) = 0 := by
    split at hone <;> omega
  have hrest : c.Wire answers frames messages := by
    apply hw.mono
    · intro s
      rw [List.countP_cons]
      omega
    · exact fun _ hf => hf
    · exact fun _ hm => List.mem_cons_of_mem _ hm
  exact hrest.release hnone htable hactive

/-- A request that is written takes a stream that nothing on the way carries. -/
theorem Wire.acquired {s₀ : Nat} {h₀ : ι} {request : κ} (hw : c.Wire answers frames messages)
    (hfree : s₀ ∉ c.streams.pending)
    (hidle : ∀ s, c.streams.pending.lookup s ≠ some h₀)
    (htable : c'.streams.pending = c.streams.pending.insert s₀ h₀)
    (hwritten : outstanding c'.history h₀ = some request)
    (hactive : ∀ h ≠ h₀, (c'.state h).active = true → (c.state h).active = true ∧
      outstanding c'.history h = outstanding c.history h) :
    c'.Wire answers (frames ++ [⟨s₀, request⟩]) messages := by
  have hnone := hw.once s₀
  rw [if_neg hfree] at hnone
  have hold : ∀ s h, s ≠ s₀ → c'.streams.pending.lookup s = some h →
      c.streams.pending.lookup s = some h ∧ h ≠ h₀ := by
    intro s h hs hlookup
    rw [htable, Finmap.lookup_insert_of_ne _ hs] at hlookup
    exact ⟨hlookup, fun hh => hidle s (hh ▸ hlookup)⟩
  constructor
  case once =>
    intro s
    rw [List.countP_append, List.countP_singleton]
    by_cases hs : s = s₀
    · subst hs
      rw [if_pos (by simp), if_pos (by rw [htable]; exact Finmap.mem_insert.mpr (Or.inl rfl))]
      omega
    · have hmem : s ∈ c'.streams.pending ↔ s ∈ c.streams.pending := by
        rw [htable, Finmap.mem_insert]
        exact or_iff_right hs
      have hskip : ¬ s₀ = s := fun h => hs h.symm
      have hbound := hw.once s
      simp only [hmem, hskip, decide_false, Bool.false_eq_true, if_false, Nat.add_zero]
      exact hbound
  case frame =>
    intro f hf h hlookup hh
    rcases List.mem_append.mp hf with hf | hf
    · have hne : f.stream ≠ s₀ := by
        intro heq
        have hpos : 0 < frames.countP (fun f => f.stream = s₀) :=
          List.countP_pos_iff.mpr ⟨f, hf, by simpa using heq⟩
        omega
      obtain ⟨hlookup', hh₀⟩ := hold _ _ hne hlookup
      rw [(hactive h hh₀ hh).2]
      exact hw.frame f hf h hlookup' (hactive h hh₀ hh).1
    · rw [List.mem_singleton] at hf
      subst hf
      rw [htable, Finmap.lookup_insert, Option.some.injEq] at hlookup
      subst hlookup
      exact hwritten
  case message =>
    intro m hm s hs h hlookup hh
    have hne : s ≠ s₀ := by
      intro heq
      subst heq
      have hpos : 0 < messages.countP (fun m => m.stream = (s : Int)) :=
        List.countP_pos_iff.mpr ⟨m, hm, by simpa using hs⟩
      omega
    obtain ⟨hlookup', hh₀⟩ := hold _ _ hne hlookup
    rw [(hactive h hh₀ hh).2]
    exact hw.message m hm s hs h hlookup' (hactive h hh₀ hh).1

end Wire

/-! ### Closing -/

theorem Keeps.setTimer {c c' : Connection ι κ ρ} (hkeeps : c.Keeps c') (h : ι) (running : Bool) :
    c.Keeps (c'.setTimer h running) :=
  ⟨hkeeps.task, hkeeps.writes, hkeeps.closing⟩

theorem Keeps.setState {c c₁ c₂ : Connection ι κ ρ} {h : ι} {next : RequestState}
    (hkeeps : c.Keeps c₁) (hset : c₁.setState h next = some c₂) : c.Keeps c₂ := by
  obtain ⟨handler, -, rfl⟩ := Option.map_eq_some_iff.mp hset
  exact ⟨hkeeps.task, hkeeps.writes, hkeeps.closing⟩

theorem Keeps.decRef {c c₁ c₂ : Connection ι κ ρ} {h : ι} (hkeeps : c.Keeps c₁)
    (hdec : c₁.decRef h = some c₂) : c.Keeps c₂ := by
  unfold Connection.decRef at hdec
  split at hdec
  case isTrue =>
    obtain rfl := Option.some_inj.mp hdec
    exact ⟨hkeeps.task, hkeeps.writes, hkeeps.closing⟩
  case isFalse => cases hdec

theorem Keeps.removeRead {c c₁ c₂ : Connection ι κ ρ} {h : ι} (hkeeps : c.Keeps c₁)
    (hremove : c₁.removeRead h = some c₂) : c.Keeps c₂ := by
  unfold Connection.removeRead at hremove
  split at hremove
  case isTrue =>
    obtain rfl := Option.some_inj.mp hremove
    exact ⟨hkeeps.task, hkeeps.writes, hkeeps.closing⟩
  case isFalse => cases hremove

theorem Keeps.retryIf {c c₁ c₂ : Connection ι κ ρ} {h : ι} {retry : Bool} {next : RequestState}
    (hkeeps : c.Keeps c₁) (hretry : c₁.retryIf h retry next = some c₂) : c.Keeps c₂ := by
  cases retry with
  | false =>
      obtain rfl := Option.some_inj.mp hretry
      exact hkeeps
  | true => exact hkeeps.setState hretry

theorem cleanup_keeps {c c' : Connection ι κ ρ} {hs : List ι} (h : c.cleanup hs = some c') :
    c.Keeps c' := by
  induction hs generalizing c with
  | nil =>
      obtain rfl := Option.some_inj.mp h
      exact .refl c
  | cons head hs ih =>
      simp only [cleanup, Option.bind_eq_bind, Option.bind_eq_some_iff] at h
      obtain ⟨c₁, hone, hrest⟩ := h
      refine Keeps.trans ?_ (ih hrest)
      unfold cleanupHandler at hone
      split at hone
      · exact (((Keeps.refl c).note _).setTimer head false).decRef hone
      · exact (Keeps.refl c).decRef hone

/-- Cleaning up some of the requests that are filed calls back those whose
owners wait and gives back one reference each. -/
theorem cleanup_spec {answers : κ → ρ → Prop} (hs rest : List ι) (c : Connection ι κ ρ)
    (hrefs : ∀ h, c.refs h = (hs ++ rest).count h) (honce : ∀ h, (hs ++ rest).count h ≤ 1)
    (hwaits : ∀ h ∈ hs ++ rest, (outstanding c.history h).isSome = (c.state h).active)
    (hnone : ∀ h, h ∉ hs ++ rest → outstanding c.history h = none)
    (hproper : Proper answers c.history) :
    ∃ c', c.cleanup hs = some c' ∧ (∀ h, c'.refs h = rest.count h) ∧
      (∀ h ∈ rest, (outstanding c'.history h).isSome = (c'.state h).active) ∧
      (∀ h, h ∉ rest → outstanding c'.history h = none) ∧ Proper answers c'.history := by
  induction hs generalizing c with
  | nil => exact ⟨c, rfl, hrefs, hwaits, hnone, hproper⟩
  | cons h hs ih =>
      have hnotin : h ∉ hs ++ rest := by
        intro hmem
        have hle := honce h
        rw [List.cons_append, List.count_cons_self] at hle
        have hpos : 0 < (hs ++ rest).count h := List.count_pos_iff.mpr hmem
        omega
      have hself := hwaits h List.mem_cons_self
      have hpos : 0 < c.refs h := by
        rw [hrefs h, List.cons_append, List.count_cons_self]
        omega
      -- the request is called back if its owner waits, and is forgotten then
      have hone : ∃ c₁, c.cleanupHandler h = some c₁ ∧
          c₁.refs = Function.update c.refs h (c.refs h - 1) ∧
          (∀ h', c₁.state h' = c.state h') ∧ outstanding c₁.history h = none ∧
          (∀ h' ≠ h, outstanding c₁.history h' = outstanding c.history h') ∧
          Proper answers c₁.history := by
        by_cases hactive : (c.state h).active = true
        · rw [hactive] at hself
          have hstate : ∀ h', (Function.update c.handlers h
              {c.handlers h with timer := false} h').state = (c.handlers h').state := by
            intro h'
            by_cases hne : h' = h
            · subst hne
              rw [Function.update_self]
            · rw [Function.update_of_ne hne]
          refine ⟨_, cleanupHandler_active hactive hpos, rfl, hstate, if_pos rfl, ?_,
            ⟨hself, hproper⟩⟩
          intro h' hne
          exact if_neg (fun heq => hne heq.symm)
        · have hidle : outstanding c.history h = none := by
            rw [Bool.not_eq_true] at hactive
            rw [hactive] at hself
            simpa using hself
          have hinactive : (c.handlers h).state.active = false := Bool.eq_false_iff.mpr hactive
          exact ⟨_, cleanupHandler_inactive hinactive hpos, rfl, fun _ => rfl, hidle,
            fun _ _ => rfl, hproper⟩
      obtain ⟨c₁, hc₁, hrefs₁, hstate₁, hidle₁, hothers₁, hproper₁⟩ := hone
      have hcount : ∀ h' ≠ h, (h :: (hs ++ rest)).count h' = (hs ++ rest).count h' :=
        fun h' hne => List.count_cons_of_ne (fun heq => hne heq.symm)
      obtain ⟨c', hc', hrefs', hwaits', hnone', hproper'⟩ := ih c₁ (by
          intro h'
          rw [hrefs₁]
          by_cases hne : h' = h
          · subst hne
            rw [Function.update_self, hrefs h', List.cons_append, List.count_cons_self]
            omega
          · rw [Function.update_of_ne hne, hrefs h', List.cons_append, hcount h' hne]) (by
          intro h'
          have hle := honce h'
          rw [List.cons_append, List.count_cons] at hle
          omega) (by
          intro h' hh'
          have hne : h' ≠ h := fun heq => hnotin (heq ▸ hh')
          rw [hothers₁ h' hne, hstate₁]
          exact hwaits h' (List.mem_cons_of_mem _ hh')) (by
          intro h' hh'
          by_cases hne : h' = h
          · rw [hne]
            exact hidle₁
          · rw [hothers₁ h' hne]
            apply hnone
            intro hmem
            rcases List.mem_cons.mp hmem with heq | hmem
            · exact hne heq
            · exact hh' hmem) hproper₁
      refine ⟨c', ?_, hrefs', hwaits', hnone', hproper'⟩
      simp only [cleanup, hc₁, Option.bind_eq_bind, Option.bind_some]
      exact hc'

end Connection

end Img2Web.Driver
