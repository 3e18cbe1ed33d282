/-!
# Rejected geometries

A cache geometry is refused for one of three reasons: the tree bits of a set
do not fit a word, the sets cannot be numbered by whole index bits, or the
address fields do not fit an address.
-/

namespace PseudoLru

inductive GeometryError where
  | invalidWays (ways : Nat)
  | invalidSets (sets : Nat)
  | addressWidth (offsetBits indexBits : Nat)
  deriving DecidableEq, Repr

def GeometryError.message : GeometryError → String
  | .invalidWays ways =>
      s!"invalid associativity {ways}: ways must be a power of two in 1..=64"
  | .invalidSets sets =>
      s!"invalid set count {sets}: sets must be a non-zero power of two"
  | .addressWidth offsetBits indexBits =>
      s!"address fields overflow 64 bits: offset {offsetBits} + index {indexBits}"

end PseudoLru
