/-!
# Decimals with two places

A fraction is written with two decimal places.  It is rounded once, from its
exact value, to the nearest decimal of that kind; an exact tie goes to the
neighbour whose last digit is even.
-/

namespace PseudoLru.Decimal

/-- The natural number nearest to `num / den`, the even one of two. -/
def roundDiv (num den : Nat) : Nat :=
  let quotient := num / den
  let twice := 2 * (num % den)
  if twice < den then quotient
  else if den < twice then quotient + 1
  else quotient + quotient % 2

/-- The fraction `num / den` with two digits behind the point. -/
def twoPlaces (num den : Nat) : String :=
  let hundredths := roundDiv (num * 100) den
  let digits := Nat.toDigits 10 (hundredths % 100)
  toString (hundredths / 100) ++ "." ++
    String.ofList (List.replicate (2 - digits.length) '0' ++ digits)

end PseudoLru.Decimal
