import Mathlib.Tactic
import PseudoLru.Proofs.NodeNumbers

/-!
# The victim as the end of a walk

The table of patterns is scanned for the first pattern that agrees with the
state.  The same way is found by going down the tree from the root, left at
every node whose bit is clear and right at every node whose bit is set.  The
leaves below a node are listed from left to right; the way is the place of the
leaf in that list.

Exactly one pattern agrees with a state, so there is nothing to choose from,
and bits that belong to no node are never looked at.
-/

namespace PseudoLru.Encoding

/-- The leaves below a node from left to right. -/
def leaves : (levels node : Nat) → List Nat
  | 0, node => [node]
  | levels + 1, node => leaves levels (2 * node + 1) ++ leaves levels (2 * node + 2)

theorem leaves_eq_range' (levels node : Nat) :
    leaves levels node = List.range' ((node + 1) * 2 ^ levels - 1) (2 ^ levels) := by
  induction levels generalizing node with
  | zero => simp [leaves]
  | succ levels ih =>
      have hpos := Nat.two_pow_pos levels
      have hfirst : (2 * node + 1 + 1) * 2 ^ levels = (node + 1) * 2 ^ (levels + 1) := by ring
      have hsecond : (2 * node + 2 + 1) * 2 ^ levels - 1 =
          (node + 1) * 2 ^ (levels + 1) - 1 + 2 ^ levels := by
        have hsum : (2 * node + 2 + 1) * 2 ^ levels =
            (node + 1) * 2 ^ (levels + 1) + 2 ^ levels := by ring
        have hle : 1 ≤ (node + 1) * 2 ^ (levels + 1) := Nat.mul_pos (Nat.succ_pos _) (by simp)
        omega
      rw [leaves, ih, ih, hfirst, hsecond, List.range'_append_1, ← Nat.two_mul, ← Nat.pow_succ']

theorem leaves_root (e : Encoding) : leaves e.levels 0 = List.range' (e.ways - 1) e.ways := by
  rw [leaves_eq_range', ← ways_eq_two_pow, Nat.zero_add, Nat.one_mul]

theorem getElem?_leaves_root (e : Encoding) {way : Nat} (hway : way < e.ways) :
    (leaves e.levels 0)[way]? = some (e.ways - 1 + way) := by
  rw [leaves_root, List.getElem?_range' hway, Nat.one_mul]

theorem victim_and_lowMask (e : Encoding) (state : UInt64) :
    e.victim (state &&& Word.lowMask (e.ways - 1)) = e.victim state := by
  have hbits : ∀ node < e.ways - 1, Word.testBit state (e.ways - 2 - node) =
      Word.testBit (state &&& Word.lowMask (e.ways - 1)) (e.ways - 2 - node) := by
    intro node hnode
    have hfits : e.ways - 1 ≤ 64 := (Nat.sub_le _ _).trans e.ways_le
    rw [Word.testBit_and, Word.testBit_lowMask hfits, decide_eq_true (by omega), Bool.and_true]
  have hmasked := e.victim_eq_walk hbits
  have hplain := @victim_eq_walk e state _ fun _ _ => rfl
  exact Nat.add_left_cancel (hmasked.trans hplain.symm)

theorem isExhaustive_eq_true (e : Encoding) : e.isExhaustive = true := by
  rw [isExhaustive, List.all_eq_true]
  intro state _
  rw [matchCount, countP_leads, beq_self_eq_true]

/-- In every word exactly one pattern agrees with the bits of the tree.  It is
that of the leaf which a walk from the root along these bits reaches, where the
leaves are numbered from left to right.  Bits above those of the tree change
nothing. -/
theorem scan_ends_where_walk_ends (e : Encoding) :
    (∀ state, e.matchCount state = 1 ∧
      (leaves e.levels 0)[e.victim state]? =
        some (walk (fun node => Word.testBit state (e.ways - 2 - node)) e.levels 0) ∧
      e.victim (state &&& Word.lowMask (e.ways - 1)) = e.victim state) ∧
    (leaves e.levels 0).length = e.ways ∧ (leaves e.levels 0).Nodup ∧
    e.isExhaustive = true := by
  refine ⟨?_, ?_, ?_, e.isExhaustive_eq_true⟩
  · intro state
    refine ⟨e.countP_leads state, ?_, e.victim_and_lowMask state⟩
    rw [e.getElem?_leaves_root (e.victim_lt state), e.victim_eq_walk fun _ _ => rfl]
  · rw [leaves_root, List.length_range']
  · rw [leaves_root]
    exact List.nodup_range'

end PseudoLru.Encoding
