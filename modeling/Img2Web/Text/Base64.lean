import Mathlib.Tactic.Common
import Img2Web.Text.Bytes

/-!
Base64 after RFC 4648, section 4. Three bytes are written as four characters,
and one or two bytes that are left over as two or three characters and padding.
The reader takes the canonical form only, which is the one that is written.
-/

namespace Img2Web.Text

/-- The character of a six-bit digit. -/
def base64Char (d : Nat) : Char :=
  if d < 26 then Char.ofNat (65 + d)
  else if d < 52 then Char.ofNat (71 + d)
  else if d < 62 then Char.ofNat (d - 4)
  else if d = 62 then '+'
  else '/'

def base64Digit (c : Char) : Option Nat :=
  if 'A' ≤ c ∧ c ≤ 'Z' then some (c.toNat - 65)
  else if 'a' ≤ c ∧ c ≤ 'z' then some (c.toNat - 71)
  else if '0' ≤ c ∧ c ≤ '9' then some (c.toNat + 4)
  else if c = '+' then some 62
  else if c = '/' then some 63
  else none

/-! The four digits of three bytes, and back. -/

def digitOne (a : UInt8) : Nat := a.toNat / 4

def digitTwo (a b : UInt8) : Nat := a.toNat % 4 * 16 + b.toNat / 16

def digitThree (b c : UInt8) : Nat := b.toNat % 16 * 4 + c.toNat / 64

def digitFour (c : UInt8) : Nat := c.toNat % 64

def byteOne (w x : Nat) : UInt8 := UInt8.ofNat (w * 4 + x / 16)

def byteTwo (x y : Nat) : UInt8 := UInt8.ofNat (x % 16 * 16 + y / 4)

def byteThree (y z : Nat) : UInt8 := UInt8.ofNat (y % 4 * 64 + z)

def encodeGroups : Bytes → List Char
  | [] => []
  | [a] => [base64Char (digitOne a), base64Char (digitTwo a 0), '=', '=']
  | [a, b] => [base64Char (digitOne a), base64Char (digitTwo a b),
      base64Char (digitThree b 0), '=']
  | a :: b :: c :: rest =>
      base64Char (digitOne a) :: base64Char (digitTwo a b) ::
        base64Char (digitThree b c) :: base64Char (digitFour c) :: encodeGroups rest

def decodeGroups : List Char → Option Bytes
  | [] => some []
  | [c, d, '=', '='] => do
      let w ← base64Digit c
      let x ← base64Digit d
      return [byteOne w x]
  | [c, d, e, '='] => do
      let w ← base64Digit c
      let x ← base64Digit d
      let y ← base64Digit e
      return [byteOne w x, byteTwo x y]
  | c :: d :: e :: f :: rest => do
      let w ← base64Digit c
      let x ← base64Digit d
      let y ← base64Digit e
      let z ← base64Digit f
      let more ← decodeGroups rest
      return byteOne w x :: byteTwo x y :: byteThree y z :: more
  | _ => none

def b64encode (bs : Bytes) : String := String.ofList (encodeGroups bs)

def b64decode (s : String) : Option Bytes := decodeGroups s.toList

theorem base64Digit_char {d : Nat} (hd : d < 64) : base64Digit (base64Char d) = some d := by
  have hall : ∀ d < 64, base64Digit (base64Char d) = some d := by decide
  exact hall d hd

theorem base64Char_ne_pad {d : Nat} (hd : d < 64) : base64Char d ≠ '=' := by
  have hall : ∀ d < 64, base64Char d ≠ '=' := by decide
  exact hall d hd

section Digits

variable (a b c : UInt8)

theorem digitOne_lt : digitOne a < 64 := by
  have := a.toNat_lt
  unfold digitOne
  omega

theorem digitTwo_lt : digitTwo a b < 64 := by
  have := b.toNat_lt
  unfold digitTwo
  omega

theorem digitThree_lt : digitThree b c < 64 := by
  have := c.toNat_lt
  unfold digitThree
  omega

theorem digitFour_lt : digitFour c < 64 := by
  unfold digitFour
  omega

theorem byteOne_digits : byteOne (digitOne a) (digitTwo a b) = a := by
  have := b.toNat_lt
  have hvalue : a.toNat / 4 * 4 + (a.toNat % 4 * 16 + b.toNat / 16) / 16 = a.toNat := by omega
  rw [byteOne, digitOne, digitTwo, hvalue, UInt8.ofNat_toNat]

theorem byteTwo_digits : byteTwo (digitTwo a b) (digitThree b c) = b := by
  have := b.toNat_lt
  have := c.toNat_lt
  have hvalue : (a.toNat % 4 * 16 + b.toNat / 16) % 16 * 16 +
      (b.toNat % 16 * 4 + c.toNat / 64) / 4 = b.toNat := by omega
  rw [byteTwo, digitTwo, digitThree, hvalue, UInt8.ofNat_toNat]

theorem byteThree_digits : byteThree (digitThree b c) (digitFour c) = c := by
  have := c.toNat_lt
  have hvalue : (b.toNat % 16 * 4 + c.toNat / 64) % 4 * 64 + c.toNat % 64 = c.toNat := by omega
  rw [byteThree, digitThree, digitFour, hvalue, UInt8.ofNat_toNat]

end Digits

/-- What is written is read back, for every byte string. -/
theorem decodeGroups_encodeGroups (bs : Bytes) : decodeGroups (encodeGroups bs) = some bs := by
  induction bs using encodeGroups.induct with
  | case1 => rfl
  | case2 a =>
      simp [encodeGroups, decodeGroups, base64Digit_char, digitOne_lt, digitTwo_lt,
        byteOne_digits]
  | case3 a b =>
      rw [encodeGroups, decodeGroups]
      · simp [base64Digit_char, digitOne_lt, digitTwo_lt, digitThree_lt, byteOne_digits,
          byteTwo_digits]
      · exact base64Char_ne_pad (digitThree_lt b 0)
  | case4 a b c rest ih =>
      have hpad := base64Char_ne_pad (digitFour_lt c)
      rw [encodeGroups, decodeGroups]
      · simp [base64Digit_char, digitOne_lt, digitTwo_lt, digitThree_lt, digitFour_lt,
          byteOne_digits, byteTwo_digits, byteThree_digits, ih]
      · exact fun _ h _ => hpad h
      · exact fun h _ => hpad h

theorem b64decode_b64encode (bs : Bytes) : b64decode (b64encode bs) = some bs := by
  rw [b64decode, b64encode, String.toList_ofList]
  exact decodeGroups_encodeGroups bs

example : b64encode (bytes "Man!!") = "TWFuISE=" := rfl

/-- What holds of the padding and of the character of every digit holds of every
character that is written. -/
theorem encodeGroups_forall {P : Char → Prop} (hdigit : ∀ d < 64, P (base64Char d))
    (hpad : P '=') (bs : Bytes) : ∀ c ∈ encodeGroups bs, P c := by
  have hone (a : UInt8) := hdigit _ (digitOne_lt a)
  have htwo (a b : UInt8) := hdigit _ (digitTwo_lt a b)
  have hthree (b c : UInt8) := hdigit _ (digitThree_lt b c)
  have hfour (c : UInt8) := hdigit _ (digitFour_lt c)
  induction bs using encodeGroups.induct with
  | case1 => simp [encodeGroups]
  | case2 a => simp [encodeGroups, hone, htwo, hpad]
  | case3 a b => simp [encodeGroups, hone, htwo, hthree, hpad]
  | case4 a b c rest ih =>
      simp only [encodeGroups, List.forall_mem_cons]
      exact ⟨hone a, htwo a b, hthree b c, hfour c, ih⟩

end Img2Web.Text
