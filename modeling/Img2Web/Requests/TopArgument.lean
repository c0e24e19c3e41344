import Img2Web.Model.Handlers

/-!
The limit of a feed request. The handler extracts `top` from a stream and falls
back to 10 in a `catch` branch, but the stream reports failure by a flag, which
nobody reads. So the limit is whatever the extraction left in its target, and
the cases below say when that is the number asked for or the default.
-/

namespace Img2Web

open Text Interaction

def defaultTop : Nat := 10

/-- The limit as the `catch` branch and its message describe it: the number the
argument starts with, or the default when there is none that fits. -/
def intendedTop (text : Bytes) : Nat :=
  match leadingNumber text with
  | some n => if n < sizeBound then n else defaultTop
  | none => defaultTop

/-- The arguments that get the limit they should: a number that fits, a blank
text, and the one negative number that wraps around to the default. -/
inductive Honoured (text : Bytes) : Prop
  | number {n : Nat} : leadingNumber text = some n → n < sizeBound → Honoured text
  | blank : Blank text → Honoured text
  | wrapped : leadingNegated text = some (sizeBound - defaultTop) → Honoured text

/-- The stream's failures are not in its exception mask, so the `catch` branch
of the handler is never taken. -/
theorem extract_quiet (text : Bytes) (target : Nat) :
    extract false text target = .ok (extractUnsigned text target).value := rfl

theorem GetFeed.top_eq {args : Args} {text : Bytes} (htop : args "top" = some text) :
    GetFeed.top args = (extractUnsigned text defaultTop).value := by
  simp [GetFeed.top, hasArg, getArg, htop, extract_quiet, defaultTop]

/-- Whatever subscriptions were read, the feed statement has this limit. -/
theorem GetFeed.issues_selectFeed_iff {args : Args} (h : (Request.getFeed args).Complete)
    (limit : Nat) :
    (∃ logins, (GetFeed.handleRequest args).Issues (.selectFeed logins limit)) ↔
      limit = GetFeed.top args := by
  rw [GetFeed.handleRequest_eq h]
  simp only [Program.issues_call, reduceCtorEq, false_or]
  constructor
  · rintro ⟨logins, -, -, r, hissues⟩
    cases r with
    | error rc => exact absurd hissues (Program.issues_ret _ _)
    | ok rows =>
        rcases (Program.issues_call _ _ _).mp hissues with hsent | ⟨r, hrest⟩
        · injection hsent
        · exact absurd hrest (Program.issues_ret _ _)
  · rintro rfl
    refine ⟨[], .ok [], .ok [], .ok [], ?_⟩
    exact (Program.issues_call _ _ _).mpr (Or.inl rfl)

theorem leadingNumber_of_blank {text : Bytes} (h : Blank text) : leadingNumber text = none := by
  have htext : text.dropWhile isSpace = [] := h
  simp [leadingNumber, htext]

theorem leadingNegated_of_blank {text : Bytes} (h : Blank text) :
    leadingNegated text = none := by
  have htext : text.dropWhile isSpace = [] := h
  simp [leadingNegated, htext]

/-- The extraction leaves the intended limit exactly for these arguments. -/
theorem extractUnsigned_intended_iff (text : Bytes) :
    (extractUnsigned text defaultTop).value = intendedTop text ↔ Honoured text := by
  have hbound : sizeBound = 18446744073709551616 := rfl
  have hdefault : defaultTop = 10 := rfl
  rw [extractUnsigned_value]
  cases hnumber : leadingNumber text with
  | some n =>
      simp only [intendedTop, hnumber]
      constructor
      · intro h
        refine .number hnumber ?_
        split_ifs at h <;> omega
      · intro h
        cases h with
        | @number m hm hfits =>
            obtain rfl : n = m := Option.some.inj (hnumber.symm.trans hm)
            rw [if_neg (by omega), if_pos hfits]
        | blank h => rw [leadingNumber_of_blank h] at hnumber; cases hnumber
        | wrapped h => rw [leadingNegated_eq_none hnumber] at h; cases h
  | none =>
      simp only [intendedTop, hnumber]
      cases hnegated : leadingNegated text with
      | some n =>
          simp only
          constructor
          · intro h
            refine .wrapped (hnegated.trans (congrArg some ?_))
            rw [hbound, hdefault] at h ⊢
            split_ifs at h <;> omega
          · intro h
            cases h with
            | number hm => rw [hnumber] at hm; cases hm
            | blank h => rw [leadingNegated_of_blank h] at hnegated; cases hnegated
            | wrapped h =>
                obtain rfl : n = sizeBound - defaultTop := Option.some.inj (hnegated.symm.trans h)
                rw [if_neg (by omega)]
                rfl
      | none =>
          simp only
          constructor
          · intro h
            split_ifs at h with hblank
            · exact .blank hblank
            · omega
          · intro h
            cases h with
            | number hm => rw [hnumber] at hm; cases hm
            | blank h => exact if_pos h
            | wrapped h => rw [hnegated] at h; cases h

/-- A feed statement carries the intended limit exactly when the argument is a
number that fits, is blank, or wraps around to the default. -/
theorem feed_limit_iff (args : Args) (text : Bytes)
    (hcomplete : (Request.getFeed args).Complete) (htop : args "top" = some text) :
    (∀ logins limit, (GetFeed.handleRequest args).Issues (.selectFeed logins limit) →
      limit = intendedTop text) ↔ Honoured text := by
  rw [← extractUnsigned_intended_iff, ← GetFeed.top_eq htop]
  constructor
  · intro h
    obtain ⟨logins, hissues⟩ := (GetFeed.issues_selectFeed_iff hcomplete _).mpr rfl
    exact h logins _ hissues
  · intro h logins limit hissues
    have hlimit := (GetFeed.issues_selectFeed_iff hcomplete limit).mp ⟨logins, hissues⟩
    exact hlimit.trans h

def feedArgs (login top : Bytes) : Args := fun name =>
  if name = "login" then some login else if name = "top" then some top else none

theorem feed_limit_number :
    Honoured (bytes "25") ∧ ∀ logins limit,
      (GetFeed.handleRequest (feedArgs (bytes "ann") (bytes "25"))).Issues
        (.selectFeed logins limit) → limit = 25 := by
  have hnumber : leadingNumber (bytes "25") = some 25 := by decide
  have hhonoured : Honoured (bytes "25") := .number hnumber (by decide)
  refine ⟨hhonoured, ?_⟩
  exact (feed_limit_iff (feedArgs (bytes "ann") (bytes "25")) (bytes "25") rfl rfl).mpr hhonoured

/-- A text that is no number becomes the limit 0. -/
theorem feed_limit_counterexample :
    ¬ ∀ (args : Args) (text : Bytes), (Request.getFeed args).Complete →
      args "top" = some text → ∀ logins limit,
      (GetFeed.handleRequest args).Issues (.selectFeed logins limit) →
        limit = intendedTop text := by
  intro h
  have hcomplete : (Request.getFeed (feedArgs (bytes "ann") (bytes "abc"))).Complete := rfl
  obtain ⟨logins, hissues⟩ := (GetFeed.issues_selectFeed_iff hcomplete _).mpr rfl
  have hlimit := h _ (bytes "abc") hcomplete rfl logins _ hissues
  revert hlimit
  decide

end Img2Web
