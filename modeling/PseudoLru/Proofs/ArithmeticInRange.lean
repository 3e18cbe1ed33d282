import Mathlib.Tactic
import PseudoLru.Word

/-!
# Arithmetic that must stay in range

The library calculates with natural numbers, and with words that wrap around or
empty.  The operations of this module are those of a machine that stops where a
result leaves its range: sums and products have one only if it fits the number
of bits, differences only if it is not negative, shifts only if their amount is
less than 64.  A calculation that has a result here, and the same one, never
went out of range on the way.
-/

namespace PseudoLru

theorem mul_add_lt_mul {width count high low : Nat} (hhigh : high < count) (hlow : low < width) :
    high * width + low < count * width :=
  calc
    high * width + low < (high + 1) * width := by
      rw [Nat.succ_mul]
      exact Nat.add_lt_add_left hlow _
    _ ≤ count * width := Nat.mul_le_mul_right width hhigh

namespace InRange

def number? (bits n : Nat) : Option Nat := if n < 2 ^ bits then some n else none

def sum? (bits a b : Nat) : Option Nat := number? bits (a + b)

def product? (bits a b : Nat) : Option Nat := number? bits (a * b)

def difference? (a b : Nat) : Option Nat := if b ≤ a then some (a - b) else none

/-- The sum, or the greatest number of so many bits if it does not fit. -/
def saturatingSum (bits a b : Nat) : Nat := (sum? bits a b).getD (2 ^ bits - 1)

theorem sum?_of_lt {bits a b : Nat} (h : a + b < 2 ^ bits) : sum? bits a b = some (a + b) :=
  if_pos h

theorem product?_of_lt {bits a b : Nat} (h : a * b < 2 ^ bits) :
    product? bits a b = some (a * b) :=
  if_pos h

theorem difference?_of_le {a b : Nat} (h : b ≤ a) : difference? a b = some (a - b) :=
  if_pos h

/-- A limit below the greatest number separates the sums before saturation as
it does afterwards. -/
theorem saturatingSum_le_iff {bits limit : Nat} (a b : Nat) (hlimit : limit < 2 ^ bits - 1) :
    saturatingSum bits a b ≤ limit ↔ a + b ≤ limit := by
  unfold saturatingSum sum? number?
  split
  case isTrue hfits => rw [Option.getD_some]
  case isFalse hover =>
    rw [Option.getD_none]
    omega

end InRange

namespace Word

def shiftRight? (w : UInt64) (amount : Nat) : Option UInt64 :=
  if amount < 64 then some (w >>> UInt64.ofNat amount) else none

def shiftLeft? (w : UInt64) (amount : Nat) : Option UInt64 :=
  if amount < 64 then some (w <<< UInt64.ofNat amount) else none

/-- The mask of low bits as a power of two less one, as far as the power is a
word. -/
def lowMask? (count : Nat) : Option UInt64 :=
  if 64 ≤ count then
    some 0xFFFFFFFFFFFFFFFF
  else do
    let power ← shiftLeft? 1 count
    return UInt64.ofNat (← InRange.difference? power.toNat 1)

theorem getD_shiftRight? (w : UInt64) (amount : Nat) :
    (shiftRight? w amount).getD 0 = shiftRight w amount := by
  unfold shiftRight? shiftRight
  split <;> rfl

theorem getD_shiftLeft? (w : UInt64) (amount : Nat) :
    (shiftLeft? w amount).getD 0 = shiftLeft w amount := by
  unfold shiftLeft? shiftLeft
  split <;> rfl

theorem shiftLeft?_of_lt (w : UInt64) {amount : Nat} (h : amount < 64) :
    shiftLeft? w amount = some (shiftLeft w amount) := by
  rw [shiftLeft?, shiftLeft, if_pos h, if_pos h]

theorem lowMask?_eq (count : Nat) : lowMask? count = some (lowMask count) := by
  unfold lowMask? lowMask
  by_cases hcount : count < 64
  · have hpower : (shiftLeft 1 count).toNat = 1 <<< count := by
      rw [toNat_shiftLeft, UInt64.toNat_one, Nat.one_mul]
      exact Nat.mod_eq_of_lt (one_shiftLeft_lt_size hcount)
    have hpos : 1 ≤ 1 <<< count := by
      rw [Nat.one_shiftLeft]
      exact Nat.two_pow_pos count
    rw [if_neg (Nat.not_le_of_lt hcount), if_pos hcount, shiftLeft?_of_lt 1 hcount]
    simp only [Option.bind_eq_bind, Option.bind_some, hpower, InRange.difference?_of_le hpos]
    rfl
  · rw [if_pos (Nat.le_of_not_lt hcount), if_neg hcount]

end Word

end PseudoLru
