import PseudoLru.Geometry.Error
import PseudoLru.Word

/-!
# Address layouts

An address of 64 bits is cut into three fields: the offset within a line in
the low bits, the index of a set above it, and the tag in all bits that are
left.  The fields cover the address whatever their widths are, so every
address has fields, and an address is the disjoint union of its shifted
fields.
-/

namespace PseudoLru

/-- The widths of the offset and the index field; the tag has the rest. -/
structure AddressLayout where
  offsetBits : Nat
  indexBits : Nat
  fits : offsetBits + indexBits ≤ 64

structure AddressFields where
  tag : UInt64
  index : UInt64
  offset : UInt64
  deriving DecidableEq, Repr

namespace AddressLayout

def ofWidths (offsetBits indexBits : Nat) : Except GeometryError AddressLayout :=
  if h : offsetBits + indexBits ≤ 64 then
    .ok ⟨offsetBits, indexBits, h⟩
  else
    .error (.addressWidth offsetBits indexBits)

theorem ofWidths_of_le {offsetBits indexBits : Nat} (h : offsetBits + indexBits ≤ 64) :
    ofWidths offsetBits indexBits = .ok ⟨offsetBits, indexBits, h⟩ := by
  simp [ofWidths, h]

def tagShift (layout : AddressLayout) : Nat := layout.offsetBits + layout.indexBits

def tagBits (layout : AddressLayout) : Nat := 64 - layout.tagShift

def decode (layout : AddressLayout) (address : UInt64) : AddressFields where
  tag := Word.shiftRight address layout.tagShift
  index := Word.shiftRight address layout.offsetBits &&& Word.lowMask layout.indexBits
  offset := address &&& Word.lowMask layout.offsetBits

/-- The address with the given fields; bits of a field beyond its width are
dropped. -/
def compose (layout : AddressLayout) (fields : AddressFields) : UInt64 :=
  Word.shiftLeft (fields.tag &&& Word.lowMask layout.tagBits) layout.tagShift |||
    Word.shiftLeft (fields.index &&& Word.lowMask layout.indexBits) layout.offsetBits |||
    (fields.offset &&& Word.lowMask layout.offsetBits)

end AddressLayout

end PseudoLru
