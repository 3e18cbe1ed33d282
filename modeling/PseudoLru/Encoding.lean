import PseudoLru.Geometry.Error
import PseudoLru.OutOfRange
import PseudoLru.Word

/-!
# Tree pseudo-LRU encodings

A set of `W = 1 <<< levels` ways keeps `W - 1` bits of replacement state.  Each
bit is an inner node of a complete binary tree whose leaves are the ways; the
search for a victim goes left at a clear bit and right at a set one.  Nodes
are numbered breadth first from the root, node 0, and node `n` has its bit at
position `W - 2 - n`, so the root is the most significant of the state bits.

For every way the encoding keeps the bits on its path from the root and the
values of these bits that lead to it.  A way is the victim of a state exactly
when the state agrees with these values on the path.  Since the left half of
a subtree asks for a clear bit where the right half asks for a set one, the
patterns split the states among the ways, and the first match is the only one.
-/

namespace PseudoLru

/-- The bits on the path from the root to one way, and the values which lead
the search to it. -/
structure PathPattern where
  path : UInt64
  toward : UInt64
  deriving DecidableEq, Repr

namespace PathPattern

/-- The pattern of a single way, which no bit decides. -/
def root : PathPattern := ⟨0, 0⟩

/-- The pattern below a new top bit, in the half reached when it is clear. -/
def onLeft (top : UInt64) (p : PathPattern) : PathPattern :=
  { p with path := p.path ||| top }

/-- The pattern below a new top bit, in the half reached when it is set. -/
def onRight (top : UInt64) (p : PathPattern) : PathPattern :=
  ⟨p.path ||| top, p.toward ||| top⟩

/-- The values on the path which lead away from the way at every node. -/
def away (p : PathPattern) : UInt64 := p.path &&& ~~~p.toward

def leads (p : PathPattern) (state : UInt64) : Bool :=
  state &&& p.path == p.toward

def clear (p : PathPattern) (state : UInt64) : UInt64 := state &&& ~~~p.path

/-- The state after a reference to the way: every bit on its path now points
away from it. -/
def touch (p : PathPattern) (state : UInt64) : UInt64 := p.clear state ||| p.away

/-- The state after the way was filled as the victim.  All bits on its path
point toward it then, so flipping them turns each away. -/
def fill (p : PathPattern) (state : UInt64) : UInt64 := state ^^^ p.path

/-- The patterns of the ways below `node` in the tree over `ways` ways, left
to right. -/
def below (ways : Nat) : (levels node : Nat) → List PathPattern
  | 0, _ => [root]
  | levels + 1, node =>
      let top := Word.bit (ways - 2 - node)
      (below ways levels (2 * node + 1)).map (onLeft top) ++
        (below ways levels (2 * node + 2)).map (onRight top)

@[simp] theorem length_below (ways levels node : Nat) :
    (below ways levels node).length = 1 <<< levels := by
  induction levels generalizing node with
  | zero => rfl
  | succ levels ih => simp [below, ih, Nat.shiftLeft_succ]; omega

end PathPattern

/-- The pattern table of one number of ways, shared by all sets of a cache.
The tree has at most six levels, which is what fits a word. -/
structure Encoding where
  levels : Nat
  patterns : List PathPattern
  levels_le : levels ≤ 6
  patterns_eq : patterns = PathPattern.below (1 <<< levels) levels 0

namespace Encoding

def ofLevels (levels : Nat) (h : levels ≤ 6) : Encoding :=
  ⟨levels, PathPattern.below (1 <<< levels) levels 0, h, rfl⟩

def levels? (ways : Nat) : Option Nat :=
  (List.range 7).find? (1 <<< · == ways)

theorem le_six_of_levels?_eq_some {ways levels : Nat} (h : levels? ways = some levels) :
    levels ≤ 6 := by
  have := List.mem_range.1 (List.mem_of_find?_eq_some h)
  omega

theorem one_shiftLeft_of_levels?_eq_some {ways levels : Nat} (h : levels? ways = some levels) :
    1 <<< levels = ways := by
  simpa using List.find?_some h

/-- The encoding of a power of two between 1 and 64. -/
def ofWays (ways : Nat) : Except GeometryError Encoding :=
  match h : levels? ways with
  | some levels => .ok (ofLevels levels (le_six_of_levels?_eq_some h))
  | none => .error (.invalidWays ways)

def ways (e : Encoding) : Nat := 1 <<< e.levels

@[simp] theorem length_patterns (e : Encoding) : e.patterns.length = e.ways := by
  rw [e.patterns_eq, PathPattern.length_below, ways]

theorem ways_pos (e : Encoding) : 0 < e.ways := by
  rw [ways, Nat.one_shiftLeft]
  exact Nat.two_pow_pos _

def stateBits (e : Encoding) : Nat := e.ways - 1

def stateCount (e : Encoding) : Nat := 1 <<< e.stateBits

def pattern (e : Encoding) (way : Nat) : Except OutOfRange PathPattern :=
  OutOfRange.lookup e.patterns way

/-- The way to evict in `state`. -/
def victim (e : Encoding) (state : UInt64) : Nat :=
  (e.patterns.findIdx? (·.leads state)).getD 0

/-- The state after a reference to `way`. -/
def touch (e : Encoding) (state : UInt64) (way : Nat) : Except OutOfRange UInt64 := do
  return (← e.pattern way).touch state

/-- The state after filling `way`, which should be the victim of `state`. -/
def fill (e : Encoding) (state : UInt64) (way : Nat) : Except OutOfRange UInt64 := do
  return (← e.pattern way).fill state

def matchCount (e : Encoding) (state : UInt64) : Nat :=
  e.patterns.countP (·.leads state)

/-- Does every state of the tree lead to exactly one way?  All of them are
tried, so this is meant for small trees. -/
def isExhaustive (e : Encoding) : Bool :=
  (List.range e.stateCount).all fun state => e.matchCount (UInt64.ofNat state) == 1

/-- The next `steps` victims when every access misses, each with the state
that filling it leaves. -/
def missWalk (e : Encoding) (state : UInt64) :
    (steps : Nat) → Except OutOfRange (List (Nat × UInt64))
  | 0 => .ok []
  | steps + 1 => do
      let way := e.victim state
      let next ← e.fill state way
      return (way, next) :: (← e.missWalk next steps)

end Encoding

end PseudoLru
