import PseudoLru.Decimal.TwoPlaces

/-!
# Binary fractions

A finite floating-point number is an integer over a power of two.  Its exact
value is read off its bits: an exponent field `e` and a fraction field `f`
stand for `(2 ^ 52 + f) * 2 ^ (e - 1075)`, and for `f * 2 ^ (-1074)` when `e`
is zero.  In the other direction a natural number keeps its 53 most significant
bits, rounded to nearest, and is too large from the middle between the largest
finite number and the next power of two on.
-/

namespace PseudoLru.Decimal

/-- Numerator and denominator of a finite number that is not negative. -/
def fractionOf (x : Float) : Nat × Nat :=
  let bits := x.toBits.toNat
  let field := (bits >>> 52) % 2048
  let significand := bits % (1 <<< 52) + if field = 0 then 0 else 1 <<< 52
  let exponent := max field 1
  (significand <<< (exponent - 1075), 1 <<< (1075 - exponent))

/-- The nearest number of at most 53 significant bits. -/
def toBinary (n : Nat) : Nat :=
  let unit := 1 <<< (n.log2 - 52)
  roundDiv n unit * unit

/-- The least natural number that has no finite neighbour to round to. -/
def overflowBound : Nat := (1 <<< 1024) - (1 <<< 970)

end PseudoLru.Decimal
