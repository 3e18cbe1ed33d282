import Mathlib.Tactic
import PseudoLru.Proofs.NodeNumbers
import PseudoLru.Proofs.SetAccess

/-!
# What the state remembers

The state of a set is a function of the ways that were used, whether by hits
or by fills: the bit of a node is one exactly when the last used way under the
node lies under its left child.  Since every access changes the state as a
reference to its way, one step of this is `testBit_node_touch`.
-/

namespace PseudoLru

namespace Encoding

/-- The last of the used ways that lies under a node. -/
def lastUseUnder? (e : Encoding) (node : Nat) (used : List Nat) : Option Nat :=
  used.reverse.find? fun way => e.Under node way

/-- Does the last used way under a node lie in its left half? -/
def leftUsedLast (e : Encoding) (node : Nat) (used : List Nat) : Bool :=
  (e.lastUseUnder? node used).any fun way => e.Under (2 * node + 1) way

@[simp] theorem leftUsedLast_nil (e : Encoding) (node : Nat) :
    e.leftUsedLast node [] = false := rfl

theorem leftUsedLast_append (e : Encoding) (node : Nat) (used : List Nat) (way : Nat) :
    e.leftUsedLast node (used ++ [way]) =
      if e.Under node way then decide (e.Under (2 * node + 1) way)
      else e.leftUsedLast node used := by
  unfold leftUsedLast lastUseUnder?
  rw [List.reverse_append, List.reverse_singleton, List.singleton_append, List.find?_cons]
  by_cases hunder : e.Under node way <;> simp [hunder]

theorem leftUsedLast_iff (e : Encoding) (node : Nat) (used : List Nat) :
    e.leftUsedLast node used = true ↔
      ∃ way, e.lastUseUnder? node used = some way ∧ e.Under (2 * node + 1) way := by
  unfold leftUsedLast
  rw [Option.any_eq_true]
  simp

structure Records (e : Encoding) (used : List Nat) (state : UInt64) : Prop where
  node :
    ∀ node < e.ways - 1,
      Word.testBit state (e.ways - 2 - node) = e.leftUsedLast node used
  above : ∀ i, e.ways - 1 ≤ i → Word.testBit state i = false

theorem records_zero (e : Encoding) : e.Records [] 0 := by
  constructor <;> simp

theorem Records.after_touch {e : Encoding} {used : List Nat} {state after : UInt64} {way : Nat}
    (hrecords : e.Records used state) (htouch : e.touch state way = .ok after) :
    e.Records (used ++ [way]) after where
  node := by
    intro node hnode
    rw [testBit_node_touch htouch hnode, leftUsedLast_append, hrecords.node node hnode]
  above := by
    intro i hi
    rw [testBit_touch_of_le htouch hi, hrecords.above i hi]

end Encoding

namespace CacheSet

/-- After any accesses of an empty set, under both policies, the bit of a node
is one exactly if the last used way under it lies in its left half, no other
bits are set, and the victim of the tree is found by going to the half that
was not used last, and to the left half of a node that was never used. -/
theorem state_records_history (e : Encoding) (policy : VictimPolicy) (index : Nat)
    (tags : List UInt64) :
    ∃ run, (empty index e.ways).replay e policy tags = .ok run ∧
      (∀ node < e.ways - 1,
        Word.testBit run.after.state (e.ways - 2 - node) = true ↔
          ∃ way, e.lastUseUnder? node (run.outcomes.map (·.way)) = some way ∧
            e.Under (2 * node + 1) way) ∧
      (∀ i, e.ways - 1 ≤ i → Word.testBit run.after.state i = false) ∧
      e.ways - 1 + e.victim run.after.state =
        Encoding.walk (fun node => e.leftUsedLast node (run.outcomes.map (·.way)))
          e.levels 0 := by
  obtain ⟨run, hrun, -, hrecords⟩ :=
    exists_replay e policy
      (fun _ outcomes set => e.Records (outcomes.map (·.way)) set.state)
      (fun _ outcomes _ _ access _ hset haccess => by
        rw [List.map_append, List.map_singleton]
        exact hset.after_touch haccess.touch)
      (length_lines_empty index e.ways) e.records_zero tags
  refine ⟨run, hrun, ?_, hrecords.above, ?_⟩
  · intro node hnode
    rw [hrecords.node node hnode]
    exact e.leftUsedLast_iff node _
  · exact e.victim_eq_walk (fun node hnode => (hrecords.node node hnode).symm)

end CacheSet

end PseudoLru
