import Mathlib.Algebra.Ring.Nat

/-!
Numbers as bytes, the most significant byte first.
-/

namespace BigEndian

/-- The last `k` bytes of `n`. -/
def bytes : Nat → Nat → List UInt8
  | 0, _ => []
  | k + 1, n => UInt8.ofNat (n / 256 ^ k) :: bytes k n

def value (bs : List UInt8) : Nat := bs.foldl (fun n b => 256 * n + b.toNat) 0

/-- Two's complement of `k` bytes. -/
def signed (k : Nat) (n : Nat) : Int := (n : Int).bmod (256 ^ k)

def unsigned (k : Nat) (i : Int) : Nat := (i % (256 ^ k : Nat)).toNat

@[simp] theorem length_bytes (k n : Nat) : (bytes k n).length = k := by
  induction k with
  | zero => rfl
  | succ k ih => rw [bytes, List.length_cons, ih]

theorem foldl_bytes (k n start : Nat) :
    (bytes k n).foldl (fun n b => 256 * n + b.toNat) start = 256 ^ k * start + n % 256 ^ k := by
  induction k generalizing start with
  | zero => rw [bytes, List.foldl_nil, Nat.pow_zero, Nat.mod_one, Nat.one_mul, Nat.add_zero]
  | succ k ih =>
      have hbyte : (UInt8.ofNat (n / 256 ^ k)).toNat = n / 256 ^ k % 256 := UInt8.toNat_ofNat'
      rw [bytes, List.foldl_cons, ih, hbyte, Nat.mod_pow_succ, Nat.pow_succ, Nat.mul_add,
        Nat.mul_assoc]
      omega

/-- What was written is read back, as far as it fits. -/
theorem value_bytes (k n : Nat) : value (bytes k n) = n % 256 ^ k := by
  rw [value, foldl_bytes, Nat.mul_zero, Nat.zero_add]

theorem value_bytes_of_lt {k n : Nat} (hn : n < 256 ^ k) : value (bytes k n) = n := by
  rw [value_bytes, Nat.mod_eq_of_lt hn]

/-- A signed number is read back if it fits. -/
theorem signed_value_bytes {k : Nat} {i : Int} (hlow : -(256 ^ k : Nat) ≤ i * 2)
    (hhigh : i * 2 < (256 ^ k : Nat)) : signed k (value (bytes k (unsigned k i))) = i := by
  have hpos : (0 : Int) < (256 ^ k : Nat) := Int.natCast_pos.mpr (Nat.pow_pos (by decide))
  have hnonneg := Int.emod_nonneg i (Int.ne_of_gt hpos)
  have hlt := Int.emod_lt_of_pos i hpos
  rw [value_bytes_of_lt (by rw [unsigned]; omega), signed, unsigned, Int.toNat_of_nonneg hnonneg,
    Int.emod_bmod]
  exact Int.bmod_eq_of_le_mul_two hlow hhigh

end BigEndian
