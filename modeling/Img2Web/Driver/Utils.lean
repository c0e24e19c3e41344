import Mathlib.Algebra.Ring.Nat
import Mathlib.Data.Nat.Bitwise
import Mathlib.Data.Nat.ModEq

/-!
`next_pow_2`, which sizes the tables and queues of the driver, and places in a
ring of such a size.
-/

namespace Img2Web.Driver

/-- The loop of `next_pow_2`. -/
def nextPow2Loop (num : Nat) : Nat → Nat → Nat → Nat
  | 0, next, _ => next
  | fuel + 1, next, i => if next < num then nextPow2Loop num fuel (2 ^ i) (i + 1) else next

def nextPow2 (num : Nat) : Nat := nextPow2Loop num 65 2 0

theorem nextPow2Loop_spec {num : Nat} (hnum : num ≤ 2 ^ 63) (fuel j : Nat) (hj : 63 ≤ fuel + j) :
    ∃ k, nextPow2Loop num fuel (2 ^ j) (j + 1) = 2 ^ k ∧ num ≤ 2 ^ k := by
  induction fuel generalizing j with
  | zero => exact ⟨j, rfl, hnum.trans (Nat.pow_le_pow_right (by omega) (by omega))⟩
  | succ fuel ih =>
      rw [nextPow2Loop]
      split
      · exact ih (j + 1) (by omega)
      · exact ⟨j, rfl, by omega⟩

theorem nextPow2_spec {num : Nat} (hnum : num ≤ 2 ^ 63) :
    ∃ k, nextPow2 num = 2 ^ k ∧ num ≤ 2 ^ k := by
  rw [nextPow2, nextPow2Loop]
  split
  · exact nextPow2Loop_spec hnum 64 0 (by omega)
  · exact ⟨1, rfl, by omega⟩

theorem two_le_nextPow2 {num : Nat} (hnum : num ≤ 2 ^ 63) : 2 ≤ nextPow2 num := by
  obtain ⟨k, hk, hle⟩ := nextPow2_spec hnum
  by_cases hsmall : 2 < num
  · omega
  · rw [nextPow2, nextPow2Loop, if_neg hsmall]

/-- Two places of a ring are one only after a whole round. -/
theorem mod_gap {p q n : Nat} (hmod : p % n = q % n) (hlt : p < q) : p + n ≤ q := by
  have hdvd : n ∣ q - p := (Nat.modEq_iff_dvd' (Nat.le_of_lt hlt)).mp hmod
  have := Nat.le_of_dvd (by omega) hdvd
  omega

end Img2Web.Driver
