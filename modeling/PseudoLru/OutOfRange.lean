/-!
# Way numbers out of range

A table and a set of different widths may be put together.  An access can
then name a way that one of the two lacks; such an access fails with the
number of ways there are and the way that was named, and changes nothing.
-/

namespace PseudoLru

/-- Entry `index` was asked of something that has only `count` entries. -/
structure OutOfRange where
  count : Nat
  index : Nat
  deriving DecidableEq, Repr

def OutOfRange.message (fault : OutOfRange) : String :=
  s!"index out of bounds: the len is {fault.count} but the index is {fault.index}"

def OutOfRange.lookup (entries : List α) (index : Nat) : Except OutOfRange α :=
  match entries[index]? with
  | some entry => .ok entry
  | none => .error ⟨entries.length, index⟩

theorem OutOfRange.lookup_of_le {entries : List α} {index : Nat}
    (h : entries.length ≤ index) :
    OutOfRange.lookup entries index = .error ⟨entries.length, index⟩ := by
  simp [OutOfRange.lookup, h]

end PseudoLru
