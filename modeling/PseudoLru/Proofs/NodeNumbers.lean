import Mathlib.Tactic
import PseudoLru.Proofs.EncodingTree

/-!
# Nodes by number

The nodes are numbered breadth first, so the children of node `n` are
`2 * n + 1` and `2 * n + 2` and the leaves follow the inner nodes, way after
way.  `Under` and `walk` follow these edges and nothing else; the bits of the
state are related to them here.
-/

namespace PseudoLru.Encoding

/-- The leaf of a way lies under a node if it is the node or lies under a child
of the node. -/
inductive Under (e : Encoding) : Nat → Nat → Prop
  | leaf (way : Nat) : Under e (e.ways - 1 + way) way
  | left {node way : Nat} : Under e (2 * node + 1) way → Under e node way
  | right {node way : Nat} : Under e (2 * node + 2) way → Under e node way

/-- The node reached from `node` by going down `levels` edges. -/
def walk (goesRight : Nat → Bool) : (levels node : Nat) → Nat
  | 0, node => node
  | levels + 1, node =>
      walk goesRight levels (if goesRight node then 2 * node + 2 else 2 * node + 1)

theorem under_iff (e : Encoding) (node way : Nat) :
    e.Under node way ↔ ∃ height, (e.ways + way) / 2 ^ height = node + 1 := by
  have hpos := e.ways_pos
  constructor
  · intro hunder
    induction hunder with
    | leaf way => exact ⟨0, by rw [Nat.pow_zero, Nat.div_one]; omega⟩
    | left _ ih =>
        obtain ⟨height, hheight⟩ := ih
        refine ⟨height + 1, ?_⟩
        rw [div_two_pow_succ, hheight]
        omega
    | right _ ih =>
        obtain ⟨height, hheight⟩ := ih
        refine ⟨height + 1, ?_⟩
        rw [div_two_pow_succ, hheight]
        omega
  · rintro ⟨height, hheight⟩
    induction height generalizing node with
    | zero =>
        rw [Nat.pow_zero, Nat.div_one] at hheight
        obtain rfl : node = e.ways - 1 + way := by omega
        exact .leaf way
    | succ height ih =>
        rw [div_two_pow_succ] at hheight
        rcases Nat.mod_two_eq_zero_or_one ((e.ways + way) / 2 ^ height) with heven | hodd
        · exact .left (ih (2 * node + 1) (by omega))
        · exact .right (ih (2 * node + 2) (by omega))

instance (e : Encoding) (node way : Nat) : Decidable (e.Under node way) :=
  decidable_of_iff (∃ height < e.ways + way, (e.ways + way) / 2 ^ height = node + 1) (by
    rw [under_iff]
    constructor
    · rintro ⟨height, -, hheight⟩
      exact ⟨height, hheight⟩
    · rintro ⟨height, hheight⟩
      refine ⟨height, ?_, hheight⟩
      have hle : 2 ^ height ≤ e.ways + way := by
        by_contra hgt
        rw [Nat.div_eq_of_lt (Nat.lt_of_not_le hgt)] at hheight
        omega
      exact Nat.lt_of_lt_of_le Nat.lt_two_pow_self hle)

/-! ## Inner nodes and the bits of the state -/

theorem exists_ways_add_div_eq (e : Encoding) {node : Nat} (hnode : node < e.ways - 1) :
    ∃ height < e.levels, ∃ way < e.ways, (e.ways + way) / 2 ^ (height + 1) = node + 1 := by
  have hlow : 2 ^ Nat.log 2 (node + 1) ≤ node + 1 := Nat.pow_log_le_self 2 (by omega)
  have hhigh : node + 1 < 2 ^ (Nat.log 2 (node + 1) + 1) :=
    Nat.lt_pow_succ_log_self (by decide) _
  generalize Nat.log 2 (node + 1) = depth at hlow hhigh
  have hdepth : depth < e.levels := by
    apply (Nat.pow_lt_pow_iff_right (a := 2) (by decide)).mp
    rw [← ways_eq_two_pow]
    omega
  obtain ⟨height, hheight⟩ : ∃ height, e.levels = depth + (height + 1) :=
    ⟨e.levels - depth - 1, by omega⟩
  have hways : e.ways = 2 ^ depth * 2 ^ (height + 1) := by
    rw [ways_eq_two_pow, hheight, Nat.pow_add]
  have hge : e.ways ≤ (node + 1) * 2 ^ (height + 1) := by
    rw [hways]
    exact Nat.mul_le_mul_right _ hlow
  have hlt : (node + 1) * 2 ^ (height + 1) < 2 * e.ways := by
    rw [hways, ← Nat.mul_assoc, ← Nat.pow_succ']
    exact Nat.mul_lt_mul_of_pos_right hhigh (Nat.two_pow_pos _)
  refine ⟨height, by omega, (node + 1) * 2 ^ (height + 1) - e.ways, by omega, ?_⟩
  rw [Nat.add_sub_of_le hge]
  exact Nat.mul_div_cancel _ (Nat.two_pow_pos _)

section Below

variable {e : Encoding} {node way height : Nat}

theorem bitOver_of_ways_add_div_eq (hway : (e.ways + way) / 2 ^ (height + 1) = node + 1) :
    e.bitOver way height = e.ways - 2 - node := by
  unfold bitOver
  omega

theorem under_iff_div_eq (hway : way < e.ways) (hheight : height < e.levels)
    (hnode : (e.ways + way) / 2 ^ (height + 1) = node + 1) {other : Nat}
    (hother : other < e.ways) :
    e.Under node other ↔ (e.ways + other) / 2 ^ (height + 1) = node + 1 := by
  rw [under_iff]
  refine ⟨?_, fun heq => ⟨height + 1, heq⟩⟩
  rintro ⟨rise, hrise⟩
  have hinner := e.ways_add_div_lt hway hheight
  have hle := e.two_pow_le_ways height
  have hpos : rise ≠ 0 := by
    rintro rfl
    rw [Nat.pow_zero, Nat.div_one] at hrise
    omega
  obtain ⟨height', rfl⟩ := Nat.exists_eq_succ_of_ne_zero hpos
  have hheight' : height' < e.levels := by
    by_contra hge
    have hbig : e.ways * 2 ≤ 2 ^ (height' + 1) := by
      rw [ways_eq_two_pow, ← Nat.pow_succ]
      exact Nat.pow_le_pow_right (by decide) (by omega)
    rw [Nat.succ_eq_add_one, Nat.div_eq_of_lt (by omega)] at hrise
    omega
  have hbit : e.bitOver other height' = e.bitOver way height := by
    rw [bitOver_of_ways_add_div_eq hrise, bitOver_of_ways_add_div_eq hnode]
  obtain ⟨rfl, -⟩ := (e.bitOver_eq_iff hother hway hheight' hheight).mp hbit
  exact hrise

theorem under_left_iff (hway : way < e.ways) (hheight : height < e.levels)
    (hnode : (e.ways + way) / 2 ^ (height + 1) = node + 1) :
    e.Under (2 * node + 1) way ↔ way.testBit height = false := by
  have hbit := testBit_ways_add (e := e) way hheight
  rw [Nat.testBit_eq_decide_div_mod_eq] at hbit
  have hhalf := hnode
  rw [div_two_pow_succ] at hhalf
  rw [← hbit, decide_eq_false_iff_not, under_iff]
  constructor
  · rintro ⟨rise, hrise⟩
    have hparent : e.bitOver way height = e.bitOver way rise := by
      rw [bitOver_of_ways_add_div_eq hnode]
      unfold bitOver
      rw [div_two_pow_succ, hrise]
      omega
    have hrise' : rise < e.levels := by
      by_contra hge
      have hbig : e.ways ≤ 2 ^ rise := by
        rw [ways_eq_two_pow]
        exact Nat.pow_le_pow_right (by decide) (by omega)
      have hsmall : (e.ways + way) / 2 ^ rise < 2 := by
        apply Nat.div_lt_of_lt_mul
        omega
      omega
    obtain ⟨rfl, -⟩ := (e.bitOver_eq_iff hway hway hheight hrise').mp hparent
    omega
  · intro heven
    exact ⟨height, by omega⟩

end Below

/-- States that agree in the bits over all ways, and in those that belong to no
node, are equal. -/
theorem eq_of_testBit_bitOver (e : Encoding) {state other : UInt64}
    (hbelow : ∀ way < e.ways, ∀ height < e.levels,
      Word.testBit state (e.bitOver way height) = Word.testBit other (e.bitOver way height))
    (habove : ∀ i, e.ways - 1 ≤ i → Word.testBit state i = Word.testBit other i) :
    state = other := by
  apply Word.eq_of_testBit_eq
  intro i
  by_cases hi : i < e.ways - 1
  · obtain ⟨height, hheight, way, hway, hnode⟩ :=
      e.exists_ways_add_div_eq (show e.ways - 2 - i < e.ways - 1 by omega)
    have hposition := bitOver_of_ways_add_div_eq hnode
    rw [show e.ways - 2 - (e.ways - 2 - i) = i by omega] at hposition
    rw [← hposition]
    exact hbelow way hway height hheight
  · exact habove i (Nat.le_of_not_lt hi)

/-- A reference sets the bit of each node above the way, to one if the way lies
under its left child, and keeps the bits of the other nodes. -/
theorem testBit_node_touch {e : Encoding} {state after : UInt64} {way node : Nat}
    (htouch : e.touch state way = .ok after) (hnode : node < e.ways - 1) :
    Word.testBit after (e.ways - 2 - node) =
      if e.Under node way then decide (e.Under (2 * node + 1) way)
      else Word.testBit state (e.ways - 2 - node) := by
  have hway := way_lt_of_touch htouch
  obtain ⟨height, hheight, other, hother, hdiv⟩ := e.exists_ways_add_div_eq hnode
  have hunder := under_iff_div_eq hother hheight hdiv hway
  rw [← bitOver_of_ways_add_div_eq hdiv, testBit_bitOver_touch htouch hother hheight]
  have hsame : way / 2 ^ (height + 1) = other / 2 ^ (height + 1) ↔ e.Under node way := by
    rw [hunder, ← hdiv, e.ways_add_div_eq_iff way other hheight]
  by_cases hin : e.Under node way
  · rw [if_pos hin, if_pos (hsame.mpr hin)]
    have hleft := under_left_iff hway hheight (hunder.mp hin)
    cases hbit : way.testBit height <;> simp [hleft, hbit]
  · rw [if_neg hin, if_neg (hsame.not.mpr hin)]

/-- A walk that goes at every node above a way as the bit of the way says reaches
the leaf of the way. -/
theorem walk_eq_of_testBit (e : Encoding) {way : Nat} (hway : way < e.ways)
    {goesRight : Nat → Bool}
    (hright : ∀ height < e.levels, ∀ node, (e.ways + way) / 2 ^ (height + 1) = node + 1 →
      goesRight node = way.testBit height) :
    walk goesRight e.levels 0 = e.ways - 1 + way := by
  have hwalk : ∀ levels ≤ e.levels, ∀ node, (e.ways + way) / 2 ^ levels = node + 1 →
      walk goesRight levels node = e.ways - 1 + way := by
    intro levels
    induction levels with
    | zero =>
        intro _ node hnode
        rw [Nat.pow_zero, Nat.div_one] at hnode
        rw [walk]
        omega
    | succ levels ih =>
        intro hlevels node hnode
        rw [walk, hright levels hlevels node hnode, ← testBit_ways_add (e := e) way hlevels,
          Nat.testBit_eq_decide_div_mod_eq]
        rw [div_two_pow_succ] at hnode
        apply ih (Nat.le_of_succ_le hlevels)
        split
        next hodd =>
          have := of_decide_eq_true hodd
          omega
        next heven =>
          have := mt decide_eq_true heven
          omega
  apply hwalk e.levels (Nat.le_refl _) 0
  rw [e.ways_add_div way (Nat.le_refl e.levels), ← ways_eq_two_pow, Nat.div_eq_of_lt hway,
    Nat.sub_self, Nat.pow_zero]

/-- The victim is the leaf that a walk along the bits of the state reaches. -/
theorem victim_eq_walk (e : Encoding) {state : UInt64} {goesRight : Nat → Bool}
    (hright : ∀ node < e.ways - 1, goesRight node = Word.testBit state (e.ways - 2 - node)) :
    e.ways - 1 + e.victim state = walk goesRight e.levels 0 := by
  refine (e.walk_eq_of_testBit (e.victim_lt state) ?_).symm
  intro height hheight node hnode
  have hlt := e.ways_add_div_lt (e.victim_lt state) hheight
  have hle := e.two_pow_le_ways height
  rw [hright node (by omega), ← bitOver_of_ways_add_div_eq hnode,
    e.testBit_bitOver_victim state hheight]

end PseudoLru.Encoding
