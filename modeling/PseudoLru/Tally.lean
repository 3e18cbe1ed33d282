import PseudoLru.Decimal.Binary
import PseudoLru.Decimal.TwoPlaces

/-!
# Tallies

A tally counts hits and misses.  Tallies of separate runs add up, and their
sum is the number of accesses.  The rates are floating-point quotients of the
counters, zero before the first access.  No run is long enough for a counter to
leave the range of a machine word, so the counters are natural numbers.
-/

namespace PseudoLru

structure Tally where
  hits : Nat := 0
  misses : Nat := 0
  deriving DecidableEq, Repr

namespace Tally

def hit (t : Tally) : Tally := { t with hits := t.hits + 1 }

def miss (t : Tally) : Tally := { t with misses := t.misses + 1 }

def record (t : Tally) (isHit : Bool) : Tally := if isHit then t.hit else t.miss

instance : Add Tally := ⟨fun s t => ⟨s.hits + t.hits, s.misses + t.misses⟩⟩

@[simp] theorem hits_add (s t : Tally) : (s + t).hits = s.hits + t.hits := rfl

@[simp] theorem misses_add (s t : Tally) : (s + t).misses = s.misses + t.misses := rfl

def accesses (t : Tally) : Nat := t.hits + t.misses

@[simp] theorem accesses_record (t : Tally) (isHit : Bool) :
    (t.record isHit).accesses = t.accesses + 1 := by
  cases isHit <;> simp [record, hit, miss, accesses] <;> omega

@[simp] theorem misses_record (t : Tally) (isHit : Bool) :
    (t.record isHit).misses = t.misses + if isHit = true then 0 else 1 := by
  cases isHit <;> rfl

/-- A count as the nearest floating-point number. -/
def toFloat (count : Nat) : Float := count.toUInt64.toFloat

def rate (t : Tally) (part : Nat) : Float :=
  if t.accesses = 0 then 0 else toFloat part / toFloat t.accesses

def hitRate (t : Tally) : Float := t.rate t.hits

def missRate (t : Tally) : Float := t.rate t.misses

def hitPercent (t : Tally) : String :=
  let (num, den) := Decimal.fractionOf (t.hitRate * 100)
  Decimal.twoPlaces num den

def render (t : Tally) : String :=
  s!"Hit: {t.hits} Miss: {t.misses} ({t.hitPercent}% hit rate)"

end Tally

end PseudoLru
