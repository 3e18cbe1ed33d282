/-!
# The matrix-multiply workload

The addresses that a plain product of two square matrices refers to, row by
row.  For each element of the result in turn, the element is written once;
then each step of its inner product reads the two factors, and reads and
writes the element.  Matrices lie in memory row by row from their base, and
addresses wrap around at the end of memory.

The list of all addresses is cubic in the size, so a part of it is also given
by position: with `n` rows, each element of the result accounts for `1 + 4 n`
consecutive addresses.
-/

namespace PseudoLru

structure MatMul where
  size : Nat := 32
  elementBytes : UInt64 := 4
  leftBase : UInt64 := 0xFACE00A000000000
  rightBase : UInt64 := 0xFACE00B000000000
  resultBase : UInt64 := 0xFACE00C000000000
  deriving DecidableEq, Repr

namespace MatMul

def elementLength (m : MatMul) : Nat := 1 + 4 * m.size

def length (m : MatMul) : Nat := m.size * m.size * m.elementLength

def isEmpty (m : MatMul) : Bool := m.size == 0

def element (m : MatMul) (base : UInt64) (row column : Nat) : UInt64 :=
  base + UInt64.ofNat (row * m.size + column) * m.elementBytes

/-- The references of one step of the inner product for element `(i, j)`. -/
def stepAddresses (m : MatMul) (i j x : Nat) : List UInt64 :=
  let result := m.element m.resultBase i j
  [m.element m.leftBase i x, m.element m.rightBase x j, result, result]

def elementAddresses (m : MatMul) (i j : Nat) : List UInt64 :=
  m.element m.resultBase i j :: (List.range m.size).flatMap (m.stepAddresses i j)

def addresses (m : MatMul) : List UInt64 :=
  (List.range m.size).flatMap fun i =>
    (List.range m.size).flatMap fun j => m.elementAddresses i j

/-- The reference at a position, counted from zero. -/
def addressAt? (m : MatMul) (position : Nat) : Option UInt64 :=
  if position < m.length then
    let cell := position / m.elementLength
    let i := cell / m.size
    let j := cell % m.size
    match position % m.elementLength with
    | 0 => some (m.element m.resultBase i j)
    | inner + 1 =>
        match inner % 4 with
        | 0 => some (m.element m.leftBase i (inner / 4))
        | 1 => some (m.element m.rightBase (inner / 4) j)
        | _ => some (m.element m.resultBase i j)
  else
    none

/-- The references from position `start` on, at most `count` of them. -/
def window (m : MatMul) (start count : Nat) : List UInt64 :=
  (List.range (min count (m.length - start))).filterMap fun k => m.addressAt? (start + k)

@[simp] theorem length_stepAddresses (m : MatMul) (i j x : Nat) :
    (m.stepAddresses i j x).length = 4 := rfl

@[simp] theorem length_elementAddresses (m : MatMul) (i j : Nat) :
    (m.elementAddresses i j).length = m.elementLength := by
  simp [elementAddresses, elementLength, List.length_flatMap, List.map_const', Nat.mul_comm]
  omega

@[simp] theorem length_addresses (m : MatMul) : m.addresses.length = m.length := by
  simp [addresses, length, List.length_flatMap, List.map_const', Nat.mul_assoc]

theorem addressAt?_eq_none_iff (m : MatMul) (position : Nat) :
    m.addressAt? position = none ↔ m.length ≤ position := by
  unfold addressAt?
  split
  case isTrue h =>
    have hnot : ¬ m.length ≤ position := by omega
    simp only [hnot, iff_false]
    split
    · simp
    · split <;> simp
  case isFalse h =>
    simp
    omega

end MatMul

end PseudoLru
