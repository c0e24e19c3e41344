import Img2Web.Text.Bytes

/-!
Formatted extraction of an unsigned 64-bit integer from a C++11 input stream in
the C locale, `stream >> target`. White space is skipped first. If the stream
ends there, the target is left alone; if no digit follows, it becomes zero; if
the number does not fit, it becomes the largest value. All three set the
stream's fail flag, which throws only if the exception mask says so. A minus
sign is accepted and negates modulo 2^64.
-/

namespace Img2Web.Text

def plusSign : UInt8 := 43

def minusSign : UInt8 := 45

/-- One more than the largest `size_t`. -/
def sizeBound : Nat := 2 ^ 64

/-- The target after the extraction, and the fail flag. -/
structure Extraction where
  value : Nat
  failed : Bool
  deriving DecidableEq

/-- The conversion of what follows the sign. -/
def convert (negative : Bool) (text : Bytes) : Extraction :=
  if text.takeWhile isDigit = [] then ⟨0, true⟩
  else if sizeBound ≤ (text.takeWhile isDigit).foldl pushDigit 0 then ⟨sizeBound - 1, true⟩
  else if negative then
    ⟨(sizeBound - (text.takeWhile isDigit).foldl pushDigit 0) % sizeBound, false⟩
  else ⟨(text.takeWhile isDigit).foldl pushDigit 0, false⟩

def extractUnsigned (text : Bytes) (target : Nat) : Extraction :=
  match text.dropWhile isSpace with
  | [] => ⟨target, true⟩
  | b :: rest =>
      if b = minusSign then convert true rest
      else if b = plusSign then convert false rest
      else convert false (b :: rest)

/-- The extraction as a statement that throws on failure only if failures are
in the stream's exception mask. -/
def extract (failMask : Bool) (text : Bytes) (target : Nat) : Except Unit Nat :=
  let result := extractUnsigned text target
  if failMask && result.failed then .error () else .ok result.value

/-- A decimal number at the start of the text, of any size. -/
def leadingDigits (text : Bytes) : Option Nat :=
  if text.takeWhile isDigit = [] then none
  else some ((text.takeWhile isDigit).foldl pushDigit 0)

/-- The number the text starts with after white space, with no minus sign. -/
def leadingNumber (text : Bytes) : Option Nat :=
  match text.dropWhile isSpace with
  | [] => none
  | b :: rest =>
      if b = minusSign then none
      else if b = plusSign then leadingDigits rest
      else leadingDigits (b :: rest)

/-- The number behind a minus sign that the text starts with. -/
def leadingNegated (text : Bytes) : Option Nat :=
  match text.dropWhile isSpace with
  | [] => none
  | b :: rest => if b = minusSign then leadingDigits rest else none

def Blank (text : Bytes) : Prop := text.dropWhile isSpace = []

theorem convert_of_digits {text : Bytes} {n : Nat} (h : leadingDigits text = some n)
    (negative : Bool) :
    (convert negative text).value =
      if sizeBound ≤ n then sizeBound - 1
      else if negative then (sizeBound - n) % sizeBound else n := by
  unfold leadingDigits at h
  split at h
  · cases h
  · rename_i hdigits
    obtain rfl := Option.some.inj h
    rw [convert, if_neg hdigits]
    split_ifs <;> rfl

theorem convert_of_none {text : Bytes} (h : leadingDigits text = none)
    (negative : Bool) : (convert negative text).value = 0 := by
  unfold leadingDigits at h
  split at h
  · rename_i hdigits
    rw [convert, if_pos hdigits]
  · cases h

/-- Every outcome of an extraction, by what the text starts with. -/
theorem extractUnsigned_value (text : Bytes) (target : Nat) :
    (extractUnsigned text target).value =
      match leadingNumber text, leadingNegated text with
      | some n, _ => if sizeBound ≤ n then sizeBound - 1 else n
      | none, some n => if sizeBound ≤ n then sizeBound - 1 else (sizeBound - n) % sizeBound
      | none, none => if text.dropWhile isSpace = [] then target else 0 := by
  unfold extractUnsigned leadingNumber leadingNegated
  cases text.dropWhile isSpace with
  | nil => rfl
  | cons b rest =>
      by_cases hminus : b = minusSign
      · simp only [hminus, if_true, reduceCtorEq, if_false]
        cases hdigits : leadingDigits rest with
        | none => exact convert_of_none hdigits true
        | some n => simpa using convert_of_digits hdigits true
      · by_cases hplus : b = plusSign
        · have hsigns : plusSign ≠ minusSign := by decide
          simp only [hplus, hsigns, if_true, reduceCtorEq, if_false]
          cases hdigits : leadingDigits rest with
          | none => exact convert_of_none hdigits false
          | some n => simpa using convert_of_digits hdigits false
        · simp only [hminus, hplus, reduceCtorEq, if_false]
          cases hdigits : leadingDigits (b :: rest) with
          | none => exact convert_of_none hdigits false
          | some n => simpa using convert_of_digits hdigits false

/-- A text is not negated and plain at once, and a blank one is neither. -/
theorem leadingNegated_eq_none {text : Bytes} {n : Nat}
    (h : leadingNumber text = some n) : leadingNegated text = none := by
  unfold leadingNumber at h
  unfold leadingNegated
  split at h
  · cases h
  · split_ifs at h with hminus <;> simp [hminus]

end Img2Web.Text
