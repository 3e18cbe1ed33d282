import Mathlib.Data.Nat.Bitwise
import PseudoLru.Word

/-!
# The bits of a word

A state is read one bit at a time: every word operation acts on each bit by
itself, and two words with the same bits are equal.  Later modules reason
about states through these equations only.
-/

namespace PseudoLru.Word

def testBit (w : UInt64) (i : Nat) : Bool := w.toNat.testBit i

theorem testBit_of_le (w : UInt64) {i : Nat} (h : 64 ≤ i) : testBit w i = false := by
  apply Nat.testBit_lt_two_pow
  exact Nat.lt_of_lt_of_le w.toNat_lt (Nat.pow_le_pow_right (by decide) h)

@[simp] theorem testBit_zero (i : Nat) : testBit 0 i = false := by
  simp [testBit]

@[simp] theorem testBit_and (v w : UInt64) (i : Nat) :
    testBit (v &&& w) i = (testBit v i && testBit w i) := by
  simp [testBit]

@[simp] theorem testBit_or (v w : UInt64) (i : Nat) :
    testBit (v ||| w) i = (testBit v i || testBit w i) := by
  simp [testBit]

@[simp] theorem testBit_xor (v w : UInt64) (i : Nat) :
    testBit (v ^^^ w) i = (testBit v i ^^ testBit w i) := by
  simp [testBit]

theorem testBit_and_not (v w : UInt64) (i : Nat) :
    testBit (v &&& ~~~w) i = (testBit v i && !testBit w i) := by
  by_cases hi : i < 64
  · have hnot : testBit (~~~w) i = !testBit w i := by
      unfold testBit
      rw [← UInt64.toNat_toBitVec, ← UInt64.toNat_toBitVec, UInt64.toBitVec_not,
        BitVec.testBit_toNat, BitVec.testBit_toNat, BitVec.getLsbD_not]
      simp [hi]
    rw [testBit_and, hnot]
  · rw [testBit_and, testBit_of_le v (Nat.le_of_not_lt hi)]
    rfl

theorem testBit_bit {position : Nat} (h : position < 64) (i : Nat) :
    testBit (bit position) i = decide (i = position) := by
  unfold testBit
  rw [toNat_bit h, Nat.one_shiftLeft, Nat.testBit_two_pow]
  exact decide_eq_decide.mpr eq_comm

theorem testBit_lowMask {count : Nat} (h : count ≤ 64) (i : Nat) :
    testBit (lowMask count) i = decide (i < count) := by
  rw [testBit, toNat_lowMask h, Nat.one_shiftLeft, Nat.testBit_two_pow_sub_one]

theorem eq_of_testBit_eq {v w : UInt64} (h : ∀ i, testBit v i = testBit w i) : v = w :=
  UInt64.toNat_inj.mp (Nat.eq_of_testBit_eq h)

end PseudoLru.Word
