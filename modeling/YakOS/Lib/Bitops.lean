import Mathlib.Data.BitVec

/-!
# Bit operations on a word

Setting, clearing and testing one bit of a 32-bit word, with the position taken
modulo the width of the word, and the fields of words that masks and shifts pick.

## Main results

* `testBit_setBit`, `testBit_clearBit` — the bits of a word that was changed in one.
* `extractLsb'_and_of_ones`, `extractLsb'_and_of_zero` — a field under a mask.
* `extractLsb'_sshiftRight`, `extractLsb'_ushiftRight` — a field of a shifted word.
-/

namespace Bitops

/-- Set bit `nr`. -/
def setBit (nr : ℕ) (b : BitVec 32) : BitVec 32 := b ||| BitVec.twoPow 32 (nr % 32)

/-- Clear bit `nr`. -/
def clearBit (nr : ℕ) (b : BitVec 32) : BitVec 32 := b &&& ~~~BitVec.twoPow 32 (nr % 32)

/-- Test bit `nr`. -/
def testBit (nr : ℕ) (b : BitVec 32) : Bool := b.getLsbD (nr % 32)

theorem testBit_setBit {i j : ℕ} (hi : i < 32) (hj : j < 32) (b : BitVec 32) :
    testBit j (setBit i b) = (testBit j b || decide (i = j)) := by
  unfold testBit setBit
  rw [BitVec.getLsbD_or, BitVec.getLsbD_twoPow, Nat.mod_eq_of_lt hi, Nat.mod_eq_of_lt hj]
  simp [hi]

theorem testBit_clearBit {i j : ℕ} (hi : i < 32) (hj : j < 32) (b : BitVec 32) :
    testBit j (clearBit i b) = (testBit j b && !decide (i = j)) := by
  unfold testBit clearBit
  rw [BitVec.getLsbD_and, BitVec.getLsbD_not, BitVec.getLsbD_twoPow, Nat.mod_eq_of_lt hi,
    Nat.mod_eq_of_lt hj]
  simp [hi, hj]

@[simp] theorem testBit_zero (j : ℕ) : testBit j 0 = false := by simp [testBit]

/-! ### Fields -/

variable {w s l n : ℕ}

/-- A mask of ones keeps a field. -/
theorem extractLsb'_and_of_ones {m : BitVec w} (h : m.extractLsb' s l = BitVec.allOnes l)
    (x : BitVec w) : (x &&& m).extractLsb' s l = x.extractLsb' s l := by
  rw [BitVec.extractLsb'_and, h, BitVec.and_allOnes]

/-- A mask of zeros clears it. -/
theorem extractLsb'_and_of_zero {m : BitVec w} (h : m.extractLsb' s l = 0#l) (x : BitVec w) :
    (x &&& m).extractLsb' s l = 0#l := by
  rw [BitVec.extractLsb'_and, h, BitVec.and_zero]

/-- Below the sign bits, a field of a shifted number is a field of the number. -/
theorem extractLsb'_sshiftRight (x : BitVec w) (h : s + n + l ≤ w) :
    (x.sshiftRight n).extractLsb' s l = x.extractLsb' (s + n) l := by
  ext i hi
  have hin : ¬ w ≤ s + i := by omega
  have hsign : n + (s + i) < w := by omega
  rw [BitVec.getElem_extractLsb', BitVec.getElem_extractLsb', BitVec.getLsbD_sshiftRight]
  simp only [hin, hsign, decide_false, Bool.not_false, Bool.true_and, if_true]
  congr 1
  omega

theorem extractLsb'_ushiftRight (x : BitVec w) (n : ℕ) :
    (x >>> n).extractLsb' s l = x.extractLsb' (s + n) l := by
  ext i hi
  rw [BitVec.getElem_extractLsb', BitVec.getElem_extractLsb', BitVec.getLsbD_ushiftRight]
  congr 1
  omega

end Bitops
