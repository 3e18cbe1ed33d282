import PseudoLru.AddressLayout
import PseudoLru.Geometry
import PseudoLru.Tally
import PseudoLru.Text.Numeral

/-!
# Events

What the simulator reports about its work while it works: the tables and
caches it builds, each access to a set, and the beginning and end of a run.
An event holds values; its text and its named fields are rendered from them.
-/

namespace PseudoLru

inductive Severity where
  | info
  | debug
  | trace
  deriving DecidableEq, Repr

def Severity.name : Severity → String
  | .info => "INFO"
  | .debug => "DEBUG"
  | .trace => "TRACE"

/-- The part of the simulator that an event comes from. -/
inductive Component where
  | encoding
  | set
  | cache
  | simulator
  deriving DecidableEq, Repr

inductive Event where
  | encodingBuilt (ways stateBits : Nat)
  | cacheBuilt (geometry : Geometry) (layout : AddressLayout)
  | hit (set way : Nat) (tag before cleared after : UInt64)
  | miss (set way : Nat) (evicted : Option UInt64) (tag before after : UInt64)
  | workloadStarted (size accesses : Nat)
  | runComplete (tally : Tally)

namespace Event

def component : Event → Component
  | .encodingBuilt .. => .encoding
  | .cacheBuilt .. => .cache
  | .hit .. | .miss .. => .set
  | .workloadStarted .. | .runComplete .. => .simulator

def severity (event : Event) : Severity :=
  match event.component with
  | .encoding | .cache => .debug
  | .set => .trace
  | .simulator => .info

def wordText (w : UInt64) : String := Text.markedHex w.toNat

def message : Event → String
  | .encodingBuilt .. => "generated Tree-PLRU encoding"
  | .cacheBuilt .. => "cache constructed"
  | .hit _ _ tag before cleared after =>
      s!"HIT: tag {wordText tag} state {wordText before} -> {wordText cleared} -> " ++
        wordText after
  | .miss _ _ _ tag before after =>
      s!"MISS: tag {wordText tag} state {wordText before} -> {wordText after}"
  | .workloadStarted .. => "starting matmul workload"
  | .runComplete .. => "run complete"

def optionalText : Option UInt64 → String
  | none => "None"
  | some tag => s!"Some({tag.toNat})"

def fields : Event → List (String × String)
  | .encodingBuilt ways stateBits =>
      [("ways", toString ways), ("state_bits", toString stateBits)]
  | .cacheBuilt geometry layout =>
      [("ways", toString geometry.ways), ("sets", toString geometry.sets),
        ("offset_bits", toString layout.offsetBits),
        ("index_bits", toString layout.indexBits),
        ("tag_bits", toString layout.tagBits),
        ("selection", geometry.policy.name)]
  | .hit set way .. => [("set", toString set), ("way", toString way)]
  | .miss set way evicted .. =>
      [("set", toString set), ("way", toString way), ("evicted", optionalText evicted)]
  | .workloadStarted size accesses =>
      [("size", toString size), ("accesses", toString accesses)]
  | .runComplete tally =>
      [("hits", toString tally.hits), ("misses", toString tally.misses),
        ("accesses", toString tally.accesses)]

end Event

end PseudoLru
