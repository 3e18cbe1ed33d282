import PseudoLru.Access
import PseudoLru.Encoding
import PseudoLru.Line

/-!
# Cache sets

A set has its lines and one word of replacement state.  An access looks for
the tag among the valid lines.  On a hit the state is touched at the way that
was found.  On a miss a way is filled: the lowest empty one if the policy says
so and there is one, and the victim of the tree otherwise.  The tree need not
point at an empty way, so its bits are rewritten there as for a reference,
while at the victim it is enough to flip them.

The encoding is shared by the sets of a cache and handed in.  If its width is
not that of the set, an access can fail; it changes nothing then.
-/

namespace PseudoLru

structure CacheSet where
  index : Nat
  lines : List Line
  state : UInt64
  deriving DecidableEq, Repr

namespace CacheSet

/-- A set without valid lines, in state zero. -/
def empty (index ways : Nat) : CacheSet := ⟨index, List.replicate ways Line.empty, 0⟩

def probe (set : CacheSet) (tag : UInt64) : Option Nat :=
  set.lines.findIdx? (·.holds tag)

def emptyWay? (set : CacheSet) : Option Nat := set.lines.findIdx? (! ·.valid)

def occupancy (set : CacheSet) : Nat := set.lines.countP (·.valid)

def hit (set : CacheSet) (encoding : Encoding) (tag : UInt64) (way : Nat) :
    Except OutOfRange (Access CacheSet) := do
  let pattern ← encoding.pattern way
  let after := pattern.touch set.state
  return {
    outcome := ⟨.hit, way, set.index, set.state, after⟩
    event := .hit set.index way tag set.state (pattern.clear set.state) after
    after := { set with state := after } }

/-- The way that a miss fills, and the state afterwards. -/
def replacement (set : CacheSet) (encoding : Encoding) (policy : VictimPolicy) :
    Except OutOfRange (Nat × UInt64) := do
  let emptyWay? := match policy with
    | .tree => none
    | .invalidFirst => set.emptyWay?
  match emptyWay? with
  | some way => return (way, ← encoding.touch set.state way)
  | none =>
      let way := encoding.victim set.state
      return (way, ← encoding.fill set.state way)

def miss (set : CacheSet) (encoding : Encoding) (policy : VictimPolicy) (tag : UInt64) :
    Except OutOfRange (Access CacheSet) := do
  let (way, after) ← set.replacement encoding policy
  let line ← OutOfRange.lookup set.lines way
  let evicted := line.resident?
  return {
    outcome := ⟨.miss evicted, way, set.index, set.state, after⟩
    event := .miss set.index way evicted tag set.state after
    after := { set with lines := set.lines.set way (Line.fetched tag), state := after } }

def access (set : CacheSet) (encoding : Encoding) (policy : VictimPolicy) (tag : UInt64) :
    Except OutOfRange (Access CacheSet) :=
  match set.probe tag with
  | some way => set.hit encoding tag way
  | none => set.miss encoding policy tag

def render (set : CacheSet) : String :=
  s!"state:{set.state.toNat} " ++ String.join (set.lines.map Line.render)

end CacheSet

end PseudoLru
