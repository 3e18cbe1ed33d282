import PseudoLru.Geometry.Error
import PseudoLru.Word

/-!
# Cache geometries

A geometry says how many ways and sets a cache has, how wide the offset of an
address is, and which way a miss fills.  It is valid when the tree of a set
fits a state word, the sets are numbered exactly by the index bits, and the
fields fit an address.
-/

namespace PseudoLru

/-- Which way a miss fills: the victim of the tree, whatever it holds, or the
lowest empty way as long as there is one. -/
inductive VictimPolicy where
  | tree
  | invalidFirst
  deriving DecidableEq, Repr

def VictimPolicy.name : VictimPolicy → String
  | .tree => "Tree"
  | .invalidFirst => "InvalidFirst"

/-- The policy of a name.  The invalid-first policy has two names. -/
def VictimPolicy.ofName? (name : String) : Option VictimPolicy :=
  if name = "Tree" then some .tree
  else if name = "InvalidFirst" ∨ name = "InvalidWayFirst" then some .invalidFirst
  else none

/-- By default a cache has 256 sets of eight lines of 64 bytes. -/
structure Geometry where
  ways : Nat := 8
  sets : Nat := 256
  offsetBits : Nat := 6
  policy : VictimPolicy := .tree
  deriving DecidableEq, Repr

namespace Geometry

/-- The width of the index field; it numbers the sets exactly when their count
is a power of two. -/
def indexBits (g : Geometry) : Nat := Word.trailingZeros g.sets

/-- Is the count a power of two whose exponent is a field width? -/
def isPowerOfTwo (count : Nat) : Bool := count == 1 <<< Word.trailingZeros count

def validate (g : Geometry) : Except GeometryError Unit :=
  if ¬ (isPowerOfTwo g.ways ∧ g.ways ≤ 64) then
    .error (.invalidWays g.ways)
  else if ¬ isPowerOfTwo g.sets then
    .error (.invalidSets g.sets)
  else if 64 < g.offsetBits + g.indexBits then
    .error (.addressWidth g.offsetBits g.indexBits)
  else
    .ok ()

end Geometry

end PseudoLru
