/-!
# Sixty-four-bit words

Addresses, tags and replacement states are words of 64 bits.  The machine
shifts take their amount modulo the width, so a shift by 64 would keep the
word; the shifts of this module empty it instead, and the mask of 64 or more
low bits is the full word.  With that, a field of width 0 or 64 needs no case
of its own: shifting is multiplying and dividing by a power of two, written
`1 <<< amount`, whatever the amount is.
-/

namespace PseudoLru.Word

/-- The word whose only set bit stands at position `i`. -/
def bit (i : Nat) : UInt64 := UInt64.ofNat (1 <<< i)

def lowMask (count : Nat) : UInt64 :=
  if count < 64 then UInt64.ofNat ((1 <<< count) - 1) else 0xFFFFFFFFFFFFFFFF

def shiftRight (w : UInt64) (amount : Nat) : UInt64 :=
  if amount < 64 then w >>> UInt64.ofNat amount else 0

def shiftLeft (w : UInt64) (amount : Nat) : UInt64 :=
  if amount < 64 then w <<< UInt64.ofNat amount else 0

/-- The position of the lowest set bit of `n`, or 64 if no bit below that is
set. -/
def trailingZeros (n : Nat) : Nat :=
  ((List.range 64).find? n.testBit).getD 64

theorem one_shiftLeft_lt_size {i : Nat} (h : i < 64) : 1 <<< i < UInt64.size := by
  rw [Nat.one_shiftLeft]
  exact Nat.pow_lt_pow_right (by decide) h

theorem toNat_bit {i : Nat} (h : i < 64) : (bit i).toNat = 1 <<< i :=
  UInt64.toNat_ofNat_of_lt (one_shiftLeft_lt_size h)

theorem toNat_lowMask {count : Nat} (h : count ≤ 64) :
    (lowMask count).toNat = (1 <<< count) - 1 := by
  unfold lowMask
  split
  case isTrue hlt =>
    exact UInt64.toNat_ofNat_of_lt
      (Nat.lt_of_le_of_lt (Nat.sub_le _ _) (one_shiftLeft_lt_size hlt))
  case isFalse hge =>
    have : count = 64 := by omega
    subst this
    rfl

theorem toNat_shiftRight (w : UInt64) (amount : Nat) :
    (shiftRight w amount).toNat = w.toNat / (1 <<< amount) := by
  unfold shiftRight
  rw [Nat.one_shiftLeft]
  split
  case isTrue h =>
    have : amount % 2 ^ 64 % 64 = amount := by omega
    rw [UInt64.toNat_shiftRight, UInt64.toNat_ofNat', this, Nat.shiftRight_eq_div_pow]
  case isFalse h =>
    have hw : w.toNat < 2 ^ amount :=
      Nat.lt_of_lt_of_le w.toNat_lt (Nat.pow_le_pow_right (by decide) (by omega))
    rw [Nat.div_eq_of_lt hw]
    rfl

theorem toNat_shiftLeft (w : UInt64) (amount : Nat) :
    (shiftLeft w amount).toNat = w.toNat * (1 <<< amount) % UInt64.size := by
  unfold shiftLeft
  rw [Nat.one_shiftLeft]
  split
  case isTrue h =>
    have : amount % 2 ^ 64 % 64 = amount := by omega
    rw [UInt64.toNat_shiftLeft, UInt64.toNat_ofNat', this, Nat.shiftLeft_eq]
  case isFalse h =>
    obtain ⟨extra, rfl⟩ : ∃ extra, amount = 64 + extra := ⟨amount - 64, by omega⟩
    rw [Nat.pow_add, Nat.mul_comm (2 ^ 64), ← Nat.mul_assoc]
    exact (Nat.mul_mod_left _ UInt64.size).symm

end PseudoLru.Word
