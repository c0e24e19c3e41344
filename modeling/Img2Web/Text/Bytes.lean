import Mathlib.Data.Nat.Digits.Lemmas

/-!
Byte strings, as `std::string` holds them, and the ASCII classes that the text
formats of this development share. Decimal numerals are written as a C++
output stream writes an unsigned integer, and read digit by digit.
-/

namespace Img2Web.Text

abbrev Bytes := List UInt8

/-- The bytes of a source literal. -/
def bytes (s : String) : Bytes := s.toByteArray.data.toList

@[simp] theorem bytes_inj {s t : String} : bytes s = bytes t ↔ s = t := by
  constructor
  · intro h
    exact String.toByteArray_inj.mp (ByteArray.ext (Array.toList_inj.mp h))
  · rintro rfl
    rfl

theorem bytes_append (s t : String) : bytes (s ++ t) = bytes s ++ bytes t := by
  simp [bytes]

/-- `isspace` of the C locale: space, and tab to carriage return. -/
def isSpace (b : UInt8) : Bool := b = 32 || (9 ≤ b && b ≤ 13)

def isDigit (b : UInt8) : Bool := 48 ≤ b && b ≤ 57

def isUpper (b : UInt8) : Bool := 65 ≤ b && b ≤ 90

def isLetter (b : UInt8) : Bool := isUpper b || (97 ≤ b && b ≤ 122)

def lower (b : UInt8) : UInt8 := if isUpper b then b + 32 else b

def digit (b : UInt8) : Nat := b.toNat - 48

/-- Append one decimal digit to a number read so far. -/
def pushDigit (n : Nat) (b : UInt8) : Nat := 10 * n + digit b

def numeral (d : Nat) : UInt8 := UInt8.ofNat (48 + d)

/-- `stream << n` for an unsigned `n`. -/
def decimal (n : Nat) : Bytes :=
  if n = 0 then [numeral 0] else ((Nat.digits 10 n).map numeral).reverse

theorem numeral_toNat {d : Nat} (hd : d < 10) : (numeral d).toNat = 48 + d := by
  simp only [numeral, UInt8.toNat_ofNat']
  omega

theorem isDigit_numeral {d : Nat} (hd : d < 10) : isDigit (numeral d) = true := by
  have h := numeral_toNat hd
  simp only [isDigit, Bool.and_eq_true, decide_eq_true_eq, UInt8.le_iff_toNat_le, h]
  have h48 : (48 : UInt8).toNat = 48 := rfl
  have h57 : (57 : UInt8).toNat = 57 := rfl
  omega

theorem digit_numeral {d : Nat} (hd : d < 10) : digit (numeral d) = d := by
  rw [digit, numeral_toNat hd]
  omega

theorem decimal_digits (n : Nat) : ∀ b ∈ decimal n, isDigit b = true := by
  intro b hb
  unfold decimal at hb
  split at hb
  · obtain rfl := List.mem_singleton.mp hb
    exact isDigit_numeral (by omega)
  · obtain ⟨d, hd, rfl⟩ := List.mem_map.mp (List.mem_reverse.mp hb)
    exact isDigit_numeral (Nat.digits_lt_base (by omega) hd)

theorem decimal_ne_nil (n : Nat) : decimal n ≠ [] := by
  unfold decimal
  split
  · simp
  · rename_i hn
    simpa [Nat.digits_eq_nil_iff_eq_zero] using hn

/-- Reading back what was written, digit by digit, gives the number. -/
theorem decimal_value (n : Nat) : (decimal n).foldl pushDigit 0 = n := by
  have hfold (ds : List Nat) (hds : ∀ d ∈ ds, d < 10) :
      ((ds.map numeral).reverse).foldl pushDigit 0 = Nat.ofDigits 10 ds := by
    induction ds with
    | nil => rfl
    | cons d ds ih =>
        have hrest := ih fun e he => hds e (List.mem_cons_of_mem _ he)
        rw [List.foldl_reverse] at hrest ⊢
        rw [List.map_cons, List.foldr_cons, hrest, Nat.ofDigits_cons, pushDigit,
          digit_numeral (hds d List.mem_cons_self)]
        simp [Nat.add_comm]
  unfold decimal
  split
  · rename_i hn
    rw [hn]
    rfl
  · rw [hfold _ fun d hd => Nat.digits_lt_base (by omega) hd]
    exact Nat.ofDigits_digits 10 n

end Img2Web.Text
