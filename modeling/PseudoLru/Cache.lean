import PseudoLru.CacheSet
import PseudoLru.Tally

/-!
# Caches

A cache has numbered sets, one encoding shared by all of them, and a tally of
its accesses.  The index field of an address selects the set and the tag field
is looked up there; the offset plays no role.  An access changes the selected
set and the tally and nothing else.
-/

namespace PseudoLru

def Encoding.buildEvent (e : Encoding) : Event := .encodingBuilt e.ways e.stateBits

structure Cache where
  geometry : Geometry
  encoding : Encoding
  layout : AddressLayout
  sets : Array CacheSet
  tally : Tally
  /-- Does the report list the sets? -/
  dumpSets : Bool

namespace Cache

def ofGeometry (geometry : Geometry) : Except GeometryError Cache := do
  geometry.validate
  let encoding ← Encoding.ofWays geometry.ways
  let layout ← AddressLayout.ofWidths geometry.offsetBits geometry.indexBits
  return {
    geometry, encoding, layout
    sets := Array.ofFn fun index : Fin geometry.sets => CacheSet.empty index geometry.ways
    tally := {}
    dumpSets := false }

def buildEvents (cache : Cache) : List Event :=
  [cache.encoding.buildEvent, .cacheBuilt cache.geometry cache.layout]

def access (cache : Cache) (address : UInt64) : Except OutOfRange (Access Cache) :=
  let fields := cache.layout.decode address
  let index := fields.index.toNat
  if h : index < cache.sets.size then do
    let inSet ← cache.sets[index].access cache.encoding cache.geometry.policy fields.tag
    return {
      outcome := inSet.outcome
      event := inSet.event
      after := { cache with
        sets := cache.sets.set index inSet.after
        tally := cache.tally.record inSet.outcome.isHit } }
  else
    .error ⟨cache.sets.size, index⟩

def accessAll (cache : Cache) (addresses : List UInt64) : Except OutOfRange Cache :=
  Run.last access cache addresses

def replay (cache : Cache) (addresses : List UInt64) : Except OutOfRange (Run Cache) :=
  Run.ofRequests access cache addresses

theorem accessAll_eq_map_replay (cache : Cache) (addresses : List UInt64) :
    cache.accessAll addresses = (cache.replay addresses).map (·.after) :=
  Run.last_eq_map_ofRequests access cache addresses

def contains (cache : Cache) (address : UInt64) : Except OutOfRange Bool :=
  let fields := cache.layout.decode address
  match cache.sets[fields.index.toNat]? with
  | some set => .ok (set.probe fields.tag).isSome
  | none => .error ⟨cache.sets.size, fields.index.toNat⟩

/-- The summary, followed by every set if the sets are asked for. -/
def render (cache : Cache) : String :=
  let sets := if cache.dumpSets then cache.sets.toList else []
  s!"\n==Summary==\n\t{cache.tally.render}\n" ++
    String.join (sets.map fun set => set.render ++ "\n")

end Cache

end PseudoLru
