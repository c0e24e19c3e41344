import Mathlib.Logic.Relation
import Mathlib.Data.List.Infix

/-!
`MonotonicTimestampGenerator`, which several sessions may share. A thread loads
the last timestamp, reads the clock, and stores the next one if no other thread
was faster, else it tries again. The clock may show anything. `log`, newest
first, has the timestamps with the readings they were made from, and is read by
nothing.
-/

namespace Img2Web.Driver

structure Stamp where
  timestamp : Int
  now : Int
  deriving DecidableEq

/-- Where a thread is in `next`. -/
inductive NextCall where
  | idle
  | load
  | compute (last : Int)
  | exchange (last next now : Int)

structure MonotonicTimestampGenerator (τ : Type) where
  last : Int
  thread : τ → NextCall
  log : List Stamp

namespace MonotonicTimestampGenerator

def new {τ : Type} : MonotonicTimestampGenerator τ := ⟨0, fun _ => .idle, []⟩

/-- `compute_next`, when the clock shows `now`. Division is that of the source. -/
def computeNext (last now : Int) : Int :=
  let millis := last.tdiv 1000
  let counter := last.tmod 1000
  if millis ≥ now then 1000 * millis + (if counter = 999 then counter else counter + 1)
  else 1000 * now

variable {τ : Type} [DecidableEq τ]

def goTo (g : MonotonicTimestampGenerator τ) (t : τ) (call : NextCall) :
    MonotonicTimestampGenerator τ :=
  {g with thread := Function.update g.thread t call}

/-- `compare_exchange_strong`, and the return of `next` if it succeeds. -/
def exchange (g : MonotonicTimestampGenerator τ) (t : τ) (last next now : Int) :
    MonotonicTimestampGenerator τ :=
  if g.last = last then
    {g with last := next, log := ⟨next, now⟩ :: g.log}.goTo t .idle
  else g.goTo t .load

inductive Step (g : MonotonicTimestampGenerator τ) : MonotonicTimestampGenerator τ → Prop where
  | call {t : τ} : g.thread t = .idle → Step g (g.goTo t .load)
  | load {t : τ} : g.thread t = .load → Step g (g.goTo t (.compute g.last))
  | compute {t : τ} {last : Int} (now : Int) : g.thread t = .compute last →
      Step g (g.goTo t (.exchange last (computeNext last now) now))
  | exchange {t : τ} {last next now : Int} : g.thread t = .exchange last next now →
      Step g (g.exchange t last next now)

def Reachable : MonotonicTimestampGenerator τ → Prop := Relation.ReflTransGen Step new

end MonotonicTimestampGenerator

open MonotonicTimestampGenerator

/-- Timestamps made one after the other, each from the one before. -/
inductive Issued : List Stamp → Int → Prop where
  | nil : Issued [] 0
  | cons {log : List Stamp} {last : Int} (now : Int) : Issued log last →
      Issued (⟨computeNext last now, now⟩ :: log) (computeNext last now)

namespace MonotonicTimestampGenerator

variable {τ : Type} [DecidableEq τ] {g : MonotonicTimestampGenerator τ}

/-- Whatever the threads do, the timestamps are those of calls one after the
other, and a thread about to store has computed its own from what it loaded. -/
structure Invariant (g : MonotonicTimestampGenerator τ) : Prop where
  issued : Issued g.log g.last
  computed : ∀ t last next now, g.thread t = .exchange last next now → next = computeNext last now

omit [DecidableEq τ] in
theorem new_invariant : (new : MonotonicTimestampGenerator τ).Invariant :=
  ⟨.nil, fun _ _ _ _ h => nomatch h⟩

theorem Invariant.goTo {t : τ} {call : NextCall} (h : g.Invariant)
    (hcall : ∀ last next now, call = .exchange last next now → next = computeNext last now) :
    (g.goTo t call).Invariant where
  issued := h.issued
  computed u last next now hu := by
    rw [MonotonicTimestampGenerator.goTo] at hu
    dsimp only at hu
    rcases eq_or_ne u t with rfl | hne
    · rw [Function.update_self] at hu
      exact hcall last next now hu
    · rw [Function.update_of_ne hne] at hu
      exact h.computed u last next now hu

theorem Invariant.exchange {t : τ} {last next now : Int} (h : g.Invariant)
    (ht : g.thread t = .exchange last next now) : (g.exchange t last next now).Invariant := by
  rw [MonotonicTimestampGenerator.exchange]
  split
  case isTrue hlast =>
    obtain rfl := hlast
    obtain rfl := h.computed t _ _ _ ht
    have hstored : {g with
        last := computeNext g.last now
        log := ⟨computeNext g.last now, now⟩ :: g.log}.Invariant :=
      ⟨.cons now h.issued, h.computed⟩
    exact hstored.goTo nofun
  case isFalse => exact h.goTo nofun

theorem Reachable.invariant (hg : g.Reachable) : g.Invariant := by
  induction hg with
  | refl => exact new_invariant
  | tail _ hstep ih =>
      cases hstep with
      | call => exact ih.goTo nofun
      | load => exact ih.goTo nofun
      | compute now =>
          refine ih.goTo ?_
          rintro _ _ _ ⟨⟩
          rfl
      | exchange ht => exact ih.exchange ht

end MonotonicTimestampGenerator

section Next

variable {last now : Int}

/-- While the clock does not go on, the counter does, to 999. -/
theorem computeNext_same (hlast : 0 ≤ last) (hnow : now ≤ last / 1000) :
    computeNext last now = if last % 1000 = 999 then last else last + 1 := by
  rw [computeNext, Int.tdiv_eq_ediv_of_nonneg hlast, Int.tmod_eq_emod_of_nonneg hlast, if_pos hnow]
  split <;> omega

theorem computeNext_later (hlast : 0 ≤ last) (hnow : last / 1000 < now) :
    computeNext last now = 1000 * now := by
  rw [computeNext, Int.tdiv_eq_ediv_of_nonneg hlast, if_neg (by omega)]

theorem le_computeNext (hlast : 0 ≤ last) : last ≤ computeNext last now := by
  by_cases hnow : now ≤ last / 1000
  · rw [computeNext_same hlast hnow]
    split <;> omega
  · rw [computeNext_later hlast (by omega)]
    omega

theorem now_le_computeNext (hlast : 0 ≤ last) : 1000 * now ≤ computeNext last now := by
  by_cases hnow : now ≤ last / 1000
  · have hle : last ≤ computeNext last now := le_computeNext hlast
    omega
  · exact Int.le_of_eq (computeNext_later hlast (by omega)).symm

/-- Only at the end of the counter does a timestamp come again. -/
theorem computeNext_eq_last (hlast : 0 ≤ last) (h : computeNext last now = last) :
    last % 1000 = 999 ∧ now ≤ last / 1000 := by
  by_cases hnow : now ≤ last / 1000
  · rw [computeNext_same hlast hnow] at h
    split at h
    case isTrue hcounter => exact ⟨hcounter, hnow⟩
    case isFalse => omega
  · rw [computeNext_later hlast (by omega)] at h
    omega

end Next

namespace Issued

variable {log : List Stamp} {last : Int}

theorem nonneg (h : Issued log last) : 0 ≤ last := by
  induction h with
  | nil => exact Int.le_refl 0
  | cons now _ ih => exact Int.le_trans ih (le_computeNext ih)

theorem le_last (h : Issued log last) : ∀ s ∈ log, s.timestamp ≤ last := by
  induction h with
  | nil => exact fun _ hs => nomatch hs
  | cons now hlog ih =>
      exact List.forall_mem_cons.mpr
        ⟨Int.le_refl _, fun s hs => Int.le_trans (ih s hs) (le_computeNext hlog.nonneg)⟩

theorem pairwise (h : Issued log last) :
    log.Pairwise fun newer older => older.timestamp ≤ newer.timestamp := by
  induction h with
  | nil => exact .nil
  | cons now hlog ih =>
      exact .cons (fun s hs => Int.le_trans (hlog.le_last s hs) (le_computeNext hlog.nonneg)) ih

theorem suffix {log' : List Stamp} (h : Issued log last) (hsuffix : log' <:+ log) :
    ∃ last', Issued log' last' := by
  induction h with
  | nil =>
      obtain rfl := List.suffix_nil.mp hsuffix
      exact ⟨0, .nil⟩
  | cons now hlog ih =>
      rcases List.suffix_cons_iff.mp hsuffix with rfl | hsuffix
      · exact ⟨_, .cons now hlog⟩
      · exact ih hsuffix

/-- The timestamps of a millisecond are counted. -/
theorem counter_le (h : Issued log last) :
    last % 1000 ≤ log.countP fun s => s.timestamp / 1000 = last / 1000 := by
  induction h with
  | nil => simp
  | @cons log last now hlog ih =>
      have hlast := hlog.nonneg
      rw [List.countP_cons_of_pos (by simp)]
      by_cases hnow : now ≤ last / 1000
      · have hsame : computeNext last now / 1000 = last / 1000 := by
          rw [computeNext_same hlast hnow]
          split <;> omega
        have hcounter : computeNext last now % 1000 ≤ last % 1000 + 1 := by
          rw [computeNext_same hlast hnow]
          split <;> omega
        rw [hsame]
        omega
      · rw [computeNext_later hlast (by omega)]
        omega

/-- The milliseconds are zero or were shown by the clock. -/
theorem millis_shown (h : Issued log last) : last / 1000 = 0 ∨ ∃ s ∈ log, s.now = last / 1000 := by
  induction h with
  | nil => exact Or.inl rfl
  | @cons log last now hlog ih =>
      have hlast := hlog.nonneg
      by_cases hnow : now ≤ last / 1000
      · have hsame : computeNext last now / 1000 = last / 1000 := by
          rw [computeNext_same hlast hnow]
          split <;> omega
        rw [hsame]
        exact ih.imp_right fun ⟨s, hs, hshown⟩ => ⟨s, List.mem_cons_of_mem _ hs, hshown⟩
      · refine Or.inr ⟨_, List.mem_cons_self, ?_⟩
        rw [computeNext_later hlast (by omega)]
        dsimp only
        omega

/-- Nothing overflows 64 bits while the clock shows less than this. -/
theorem fits (h : Issued log last) (hnow : ∀ s ∈ log, s.now < 9223372036854775) :
    last < 9223372036854775808 := by
  rcases h.millis_shown with hzero | ⟨s, hs, hshown⟩
  · omega
  · have hlt := hnow s hs
    omega

end Issued

namespace MonotonicTimestampGenerator

variable {τ : Type} [DecidableEq τ] {g : MonotonicTimestampGenerator τ}

/-- However many threads take timestamps at once, and whatever the clock shows,
timestamps do not decrease in the order they are taken, and fit into 64 bits as
long as what the clock showed does in microseconds. Each is at least what the
clock showed and in a millisecond that it showed by then; and one comes again
only if it ends its millisecond, the clock has not gone on, and all others of the
millisecond have been taken. -/
theorem timestamps_increase (hg : g.Reachable) :
    (g.log.Pairwise fun newer older => older.timestamp ≤ newer.timestamp) ∧
      ((∀ s ∈ g.log, s.now < 9223372036854775) →
        ∀ s ∈ g.log, s.timestamp < 9223372036854775808) ∧
      ∀ s earlier, s :: earlier <:+ g.log →
        1000 * s.now ≤ s.timestamp ∧
        (s.timestamp / 1000 = 0 ∨ ∃ s' ∈ s :: earlier, s'.now = s.timestamp / 1000) ∧
        ((∃ s' ∈ earlier, s'.timestamp = s.timestamp) →
          s.timestamp % 1000 = 999 ∧ s.now ≤ s.timestamp / 1000 ∧
            999 ≤ earlier.countP fun s' => s'.timestamp / 1000 = s.timestamp / 1000) := by
  have hissued := hg.invariant.issued
  have hfits (hnow : ∀ s ∈ g.log, s.now < 9223372036854775) (s : Stamp) (hs : s ∈ g.log) :
      s.timestamp < 9223372036854775808 :=
    Int.lt_of_le_of_lt (hissued.le_last s hs) (hissued.fits hnow)
  refine ⟨hissued.pairwise, hfits, fun s earlier hsuffix => ?_⟩
  obtain ⟨last', hall⟩ := hissued.suffix hsuffix
  have hshown := hall.millis_shown
  cases hall with
  | @cons _ last now hearlier =>
      have hlast := hearlier.nonneg
      refine ⟨now_le_computeNext hlast, hshown, ?_⟩
      rintro ⟨s', hs', heq⟩
      dsimp only at heq ⊢
      have hle := hearlier.le_last s' hs'
      have hagain : computeNext last now = last :=
        Int.le_antisymm (heq ▸ hle) (le_computeNext hlast)
      obtain ⟨hcounter, hnow⟩ := computeNext_eq_last hlast hagain
      have hcount := hearlier.counter_le
      rw [hagain]
      refine ⟨hcounter, hnow, ?_⟩
      omega

/-- Two threads load the same timestamp; the second has to try again. -/
theorem timestamps_increase_two : ∃ g : MonotonicTimestampGenerator Bool,
    g.log = [⟨5001, 5⟩, ⟨5000, 5⟩] ∧
      (g.log.Pairwise fun newer older => older.timestamp ≤ newer.timestamp) ∧
      ((∀ s ∈ g.log, s.now < 9223372036854775) →
        ∀ s ∈ g.log, s.timestamp < 9223372036854775808) ∧
      ∀ s earlier, s :: earlier <:+ g.log →
        1000 * s.now ≤ s.timestamp ∧
        (s.timestamp / 1000 = 0 ∨ ∃ s' ∈ s :: earlier, s'.now = s.timestamp / 1000) ∧
        ((∃ s' ∈ earlier, s'.timestamp = s.timestamp) →
          s.timestamp % 1000 = 999 ∧ s.now ≤ s.timestamp / 1000 ∧
            999 ≤ earlier.countP fun s' => s'.timestamp / 1000 = s.timestamp / 1000) := by
  have hloaded : Reachable (_ : MonotonicTimestampGenerator Bool) :=
    (((Relation.ReflTransGen.refl.tail (.call (t := true) rfl)).tail (.load (t := true) rfl)).tail
      (.call (t := false) rfl)).tail (.load (t := false) rfl)
  have hstored := (((hloaded.tail (.compute (t := true) 5 rfl)).tail
    (.compute (t := false) 5 rfl)).tail (.exchange (t := true) rfl)).tail
      (.exchange (t := false) rfl)
  have hagain := ((hstored.tail (.load (t := false) rfl)).tail
    (.compute (t := false) 5 rfl)).tail (.exchange (t := false) rfl)
  exact ⟨_, by decide, timestamps_increase hagain⟩

end MonotonicTimestampGenerator

end Img2Web.Driver
