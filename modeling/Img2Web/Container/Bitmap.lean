import Mathlib.Data.List.GetD
import Mathlib.Data.Nat.Init

/-!
A set of small numbers kept as bits of machine words: number `i` is bit
`i % w` of word `i / w`.
-/

namespace Bitmap

variable {w : Nat}

def bit (words : List (BitVec w)) (i : Nat) : Bool :=
  (words[i / w]?.getD 0).getLsbD (i % w)

/-- Bit `b` of word `k`, by the number it stands for. -/
theorem bit_mul_add (words : List (BitVec w)) (k b : Nat) (hb : b < w) :
    bit words (w * k + b) = (words[k]?.getD 0).getLsbD b := by
  have hdiv : (w * k + b) / w = k := by
    rw [Nat.mul_add_div (by omega), Nat.div_eq_of_lt hb, Nat.add_zero]
  have hmod : (w * k + b) % w = b := by
    rw [Nat.mul_add_mod, Nat.mod_eq_of_lt hb]
  rw [bit, hdiv, hmod]

/-- Every number below the size of the bitmap is a bit of one of its words. -/
theorem exists_word (n i : Nat) (hi : i < w * n) : ∃ k b, k < n ∧ b < w ∧ i = w * k + b := by
  have hw : 0 < w := by
    apply Nat.pos_of_ne_zero
    intro h
    simp [h] at hi
  exact ⟨i / w, i % w, Nat.div_lt_of_lt_mul hi, Nat.mod_lt i hw, (Nat.div_add_mod i w).symm⟩

theorem mul_add_inj (k k' b b' : Nat) (hb : b < w) (hb' : b' < w) :
    w * k + b = w * k' + b' ↔ k = k' ∧ b = b' := by
  constructor
  · intro h
    have hk : (w * k + b) / w = (w * k' + b') / w := by rw [h]
    rw [Nat.mul_add_div (by omega), Nat.mul_add_div (by omega), Nat.div_eq_of_lt hb,
      Nat.div_eq_of_lt hb', Nat.add_zero, Nat.add_zero] at hk
    have hmul : w * k = w * k' := by rw [hk]
    exact ⟨hk, by omega⟩
  · rintro ⟨rfl, rfl⟩
    rfl

/-- Writing one word changes the bits of that word only. -/
theorem bit_modify (words : List (BitVec w)) (f : BitVec w → BitVec w) (k k' b : Nat)
    (hk : k < words.length) (hb : b < w) :
    bit (words.modify k f) (w * k' + b) =
      if k' = k then (f (words[k]?.getD 0)).getLsbD b else bit words (w * k' + b) := by
  rw [bit_mul_add _ _ _ hb, bit_mul_add _ _ _ hb, List.getElem?_modify]
  by_cases hkk : k' = k
  · subst hkk
    simp [List.getElem?_eq_getElem hk]
  · have hne : ¬ k = k' := fun h => hkk h.symm
    simp [hkk, hne]

theorem one_shiftLeft (b b' : Nat) (hb' : b' < w) :
    (1#w <<< b).getLsbD b' = decide (b' = b) := by
  by_cases hbb : b' = b
  · subst hbb
    simp [hb']
  · simp only [BitVec.getLsbD_shiftLeft, BitVec.getLsbD_one, hbb, decide_false]
    grind

/-- Writing the bit `1 << b` into word `k` with an operation that acts on each
bit, and that zeros leave alone. -/
theorem bit_modify_one (f : BitVec w → BitVec w → BitVec w) (g : Bool → Bool → Bool)
    (hf : ∀ x y i, i < w → (f x y).getLsbD i = g (x.getLsbD i) (y.getLsbD i))
    (hg : ∀ p, g p false = p) (words : List (BitVec w)) (k b i : Nat) (hk : k < words.length)
    (hb : b < w) (hi : i < w * words.length) :
    bit (words.modify k (f · (1#w <<< b))) i = g (bit words i) (decide (i = w * k + b)) := by
  obtain ⟨k', b', -, hb', rfl⟩ := exists_word words.length i hi
  rw [bit_modify _ _ _ _ _ hk hb']
  by_cases hkk : k' = k
  · subst hkk
    have hdecide : decide (w * k' + b' = w * k' + b) = decide (b' = b) := by
      simp only [mul_add_inj _ _ _ _ hb' hb, true_and]
    rw [if_pos rfl, hf _ _ _ hb', one_shiftLeft _ _ hb', hdecide, bit_mul_add _ _ _ hb']
  · have hne : ¬ w * k' + b' = w * k + b := by
      rw [mul_add_inj _ _ _ _ hb' hb]
      exact fun h => hkk h.1
    rw [if_neg hkk, decide_eq_false hne, hg]

/-- `words[k] ^= 1 << b` turns over one bit. -/
theorem bit_xor (words : List (BitVec w)) (k b i : Nat) (hk : k < words.length) (hb : b < w)
    (hi : i < w * words.length) :
    bit (words.modify k (· ^^^ (1#w <<< b))) i = (bit words i ^^ decide (i = w * k + b)) :=
  bit_modify_one (· ^^^ ·) xor (fun _ _ _ _ => BitVec.getLsbD_xor) Bool.xor_false
    words k b i hk hb hi

/-- `words[k] |= 1 << b` sets one bit. -/
theorem bit_or (words : List (BitVec w)) (k b i : Nat) (hk : k < words.length) (hb : b < w)
    (hi : i < w * words.length) :
    bit (words.modify k (· ||| (1#w <<< b))) i = (bit words i || decide (i = w * k + b)) :=
  bit_modify_one (· ||| ·) or (fun _ _ _ _ => BitVec.getLsbD_or) Bool.or_false
    words k b i hk hb hi

/-- All words are all ones, so all bits are set. -/
theorem bit_replicate (n i : Nat) (hi : i < w * n) :
    bit (List.replicate n (BitVec.allOnes w)) i = true := by
  obtain ⟨k, b, hk, hb, rfl⟩ := exists_word n i hi
  rw [bit_mul_add _ _ _ hb, List.getElem?_replicate_of_lt hk]
  simp [hb]

end Bitmap
