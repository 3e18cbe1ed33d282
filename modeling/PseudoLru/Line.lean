import PseudoLru.Text.Numeral

/-!
# Lines

A way of a set holds one line: whether it was fetched, and the tag of the
block.  The contents of the block play no role.  A line that was never fetched
holds no tag, whatever its tag field says.
-/

namespace PseudoLru

structure Line where
  valid : Bool
  tag : UInt64
  deriving DecidableEq, Repr

namespace Line

def empty : Line := ⟨false, 0⟩

def fetched (tag : UInt64) : Line := ⟨true, tag⟩

def holds (line : Line) (tag : UInt64) : Bool := line.valid && line.tag == tag

/-- The tag that a fetch into this line displaces. -/
def resident? (line : Line) : Option UInt64 :=
  if line.valid then some line.tag else none

@[simp] theorem holds_fetched (tag other : UInt64) :
    (fetched tag).holds other = (tag == other) := by
  simp [fetched, holds]

theorem holds_iff_resident? (line : Line) (tag : UInt64) :
    line.holds tag ↔ line.resident? = some tag := by
  cases h : line.valid <;> simp [holds, resident?, h]

def render (line : Line) : String :=
  s!" v:{line.valid.toNat} tag:{Text.hex line.tag.toNat}"

end Line

end PseudoLru
