import Mathlib.Tactic
import PseudoLru.Encoding
import PseudoLru.Proofs.WordBits

/-!
# Path patterns, bit by bit

The leaves of the tree over `ways` ways are its nodes `ways - 1`, `ways`, …; a
leaf is called here by its number plus one, so that halving it goes to the
parent.  The pattern below a node marks the bits of the nodes met on the way
up from a leaf, and asks at each of them for the bit of the leaf that the
halving drops.

The patterns below one node split the states: exactly one of them leads.
-/

namespace PseudoLru.PathPattern

theorem testBit_touch (p : PathPattern) (state : UInt64) (i : Nat) :
    Word.testBit (p.touch state) i =
      if Word.testBit p.path i then !Word.testBit p.toward i
      else Word.testBit state i := by
  unfold touch clear away
  rw [Word.testBit_or, Word.testBit_and_not, Word.testBit_and_not]
  by_cases hpath : Word.testBit p.path i <;> simp [hpath]

theorem testBit_fill (p : PathPattern) (state : UInt64) (i : Nat) :
    Word.testBit (p.fill state) i =
      (Word.testBit state i ^^ Word.testBit p.path i) := by
  rw [fill, Word.testBit_xor]

theorem leads_iff (p : PathPattern) (state : UInt64) :
    p.leads state = true ↔
      ∀ i, (Word.testBit state i && Word.testBit p.path i) = Word.testBit p.toward i := by
  unfold leads
  rw [beq_iff_eq]
  constructor
  · intro heq i
    rw [← heq, Word.testBit_and]
  · intro hbits
    apply Word.eq_of_testBit_eq
    intro i
    rw [Word.testBit_and, hbits i]

/-- Filling the victim and referring to it leave the same state. -/
theorem fill_eq_touch_of_leads {p : PathPattern} {state : UInt64}
    (hleads : p.leads state = true) : p.fill state = p.touch state := by
  apply Word.eq_of_testBit_eq
  intro i
  have hbit := (leads_iff p state).mp hleads i
  rw [testBit_fill, testBit_touch]
  by_cases hpath : Word.testBit p.path i
  · rw [← hbit]
    simp [hpath]
  · simp [hpath]

/-- The pattern of the leaf `leaf`, which lies `levels` levels below the node
at which the pattern starts. -/
structure Marks (ways levels leaf : Nat) (p : PathPattern) : Prop where
  path :
    ∀ i, Word.testBit p.path i = true ↔
      ∃ height < levels, i = ways - 1 - leaf / 2 ^ (height + 1)
  toward :
    ∀ i, Word.testBit p.toward i = true ↔
      ∃ height < levels,
        i = ways - 1 - leaf / 2 ^ (height + 1) ∧ leaf.testBit height = true

theorem Marks.path_of_toward {ways levels leaf : Nat} {p : PathPattern}
    (hmarks : p.Marks ways levels leaf) {i : Nat}
    (htoward : Word.testBit p.toward i = true) : Word.testBit p.path i = true := by
  obtain ⟨height, hheight, hi, _⟩ := (hmarks.toward i).mp htoward
  exact (hmarks.path i).mpr ⟨height, hheight, hi⟩

theorem marks_root (ways leaf : Nat) : root.Marks ways 0 leaf := by
  constructor <;> simp [root]

theorem Marks.path_or_top {ways levels leaf top : Nat} {p : PathPattern}
    (hmarks : p.Marks ways levels leaf) (htop64 : top < 64)
    (htop : top = ways - 1 - leaf / 2 ^ (levels + 1)) (i : Nat) :
    Word.testBit (p.path ||| Word.bit top) i = true ↔
      ∃ height < levels + 1, i = ways - 1 - leaf / 2 ^ (height + 1) := by
  rw [Word.testBit_or, Word.testBit_bit htop64, Bool.or_eq_true, decide_eq_true_iff,
    hmarks.path, Nat.exists_lt_succ_right, htop]

theorem Marks.onLeft {ways levels leaf top : Nat} {p : PathPattern}
    (hmarks : p.Marks ways levels leaf) (htop64 : top < 64)
    (htop : top = ways - 1 - leaf / 2 ^ (levels + 1))
    (hbit : leaf.testBit levels = false) :
    (p.onLeft (Word.bit top)).Marks ways (levels + 1) leaf := by
  refine ⟨hmarks.path_or_top htop64 htop, ?_⟩
  intro i
  change Word.testBit p.toward i = true ↔ _
  rw [hmarks.toward, Nat.exists_lt_succ_right]
  simp [hbit]

theorem Marks.onRight {ways levels leaf top : Nat} {p : PathPattern}
    (hmarks : p.Marks ways levels leaf) (htop64 : top < 64)
    (htop : top = ways - 1 - leaf / 2 ^ (levels + 1))
    (hbit : leaf.testBit levels = true) :
    (p.onRight (Word.bit top)).Marks ways (levels + 1) leaf := by
  refine ⟨hmarks.path_or_top htop64 htop, ?_⟩
  intro i
  change Word.testBit (p.toward ||| Word.bit top) i = true ↔ _
  rw [Word.testBit_or, Word.testBit_bit htop64, Bool.or_eq_true, decide_eq_true_iff,
    hmarks.toward, Nat.exists_lt_succ_right, htop]
  simp [hbit]

theorem leaf_div_two_pow {levels k : Nat} (node : Nat) (hk : k < 2 ^ levels) :
    ((node + 1) * 2 ^ levels + k) / 2 ^ levels = node + 1 := by
  rw [Nat.add_comm, Nat.add_mul_div_right _ _ (Nat.two_pow_pos levels),
    Nat.div_eq_of_lt hk, Nat.zero_add]

theorem marks_of_getElem?_below {ways levels node k : Nat} {p : PathPattern}
    (hways : ways ≤ 64) (hp : (below ways levels node)[k]? = some p) :
    p.Marks ways levels ((node + 1) * 2 ^ levels + k) := by
  induction levels generalizing node k p with
  | zero =>
      obtain rfl : p = root := by
        simpa [below] using (List.mem_of_getElem? hp)
      exact marks_root ways _
  | succ levels ih =>
      have htop64 : ways - 2 - node < 64 := by omega
      have hk : k < 2 ^ (levels + 1) := by
        obtain ⟨hlt, _⟩ := List.getElem?_eq_some_iff.mp hp
        simpa [Nat.one_shiftLeft] using hlt
      have htop : ways - 2 - node =
          ways - 1 - ((node + 1) * 2 ^ (levels + 1) + k) / 2 ^ (levels + 1) := by
        rw [leaf_div_two_pow node hk]
        omega
      rw [below, List.getElem?_append, List.length_map, length_below,
        Nat.one_shiftLeft] at hp
      split at hp
      next hleft =>
        rw [List.getElem?_map] at hp
        obtain ⟨q, hq, rfl⟩ := Option.map_eq_some_iff.mp hp
        have hleaf : (2 * node + 1 + 1) * 2 ^ levels + k =
            (node + 1) * 2 ^ (levels + 1) + k := by
          rw [Nat.pow_succ]
          ring
        have hmarks := ih hq
        have hdrop := leaf_div_two_pow (2 * node + 1) hleft
        rw [hleaf] at hmarks hdrop
        apply hmarks.onLeft htop64 htop
        rw [Nat.testBit_eq_decide_div_mod_eq, hdrop]
        exact decide_eq_false (by omega)
      next hright =>
        rw [List.getElem?_map] at hp
        obtain ⟨q, hq, rfl⟩ := Option.map_eq_some_iff.mp hp
        have hleaf : (2 * node + 2 + 1) * 2 ^ levels + (k - 2 ^ levels) =
            (node + 1) * 2 ^ (levels + 1) + k := by
          have hsplit : k = 2 ^ levels + (k - 2 ^ levels) := by omega
          generalize k - 2 ^ levels = rest at hsplit ⊢
          rw [hsplit, Nat.pow_succ]
          ring
        have hrest : k - 2 ^ levels < 2 ^ levels := by
          rw [Nat.pow_succ] at hk
          omega
        have hmarks := ih hq
        have hdrop := leaf_div_two_pow (2 * node + 2) hrest
        rw [hleaf] at hmarks hdrop
        apply hmarks.onRight htop64 htop
        rw [Nat.testBit_eq_decide_div_mod_eq, hdrop]
        exact decide_eq_true (by omega)

/-! ## One pattern leads -/

/-- A new top bit adds one condition on the state to the pattern below it. -/
theorem leads_under_top {p q : PathPattern} {top : Nat} (state : UInt64)
    (hpath : Word.testBit p.path top = false) (htoward : Word.testBit p.toward top = false)
    (htop : Word.testBit q.path top = true)
    (hrest : ∀ i, i ≠ top →
      Word.testBit q.path i = Word.testBit p.path i ∧
        Word.testBit q.toward i = Word.testBit p.toward i) :
    q.leads state =
      ((Word.testBit state top == Word.testBit q.toward top) && p.leads state) := by
  rw [Bool.eq_iff_iff, Bool.and_eq_true, leads_iff, leads_iff, beq_iff_eq]
  constructor
  · intro hleads
    constructor
    · simpa [htop] using hleads top
    · intro i
      by_cases hi : i = top
      · subst i
        simp [hpath, htoward]
      · obtain ⟨hpathEq, htowardEq⟩ := hrest i hi
        rw [← hpathEq, ← htowardEq, hleads i]
  · rintro ⟨hbit, hleads⟩ i
    by_cases hi : i = top
    · subst i
      simp [htop, hbit]
    · obtain ⟨hpathEq, htowardEq⟩ := hrest i hi
      rw [hpathEq, htowardEq, hleads i]

theorem leads_onLeft {p : PathPattern} {top : Nat} (state : UInt64) (htop64 : top < 64)
    (hpath : Word.testBit p.path top = false) (htoward : Word.testBit p.toward top = false) :
    (p.onLeft (Word.bit top)).leads state = (!Word.testBit state top && p.leads state) := by
  rw [leads_under_top state hpath htoward (q := p.onLeft (Word.bit top))
    (by simp [onLeft, Word.testBit_bit htop64])
    (by intro i hi; simp [onLeft, Word.testBit_bit htop64, hi])]
  simp [onLeft, htoward]

theorem leads_onRight {p : PathPattern} {top : Nat} (state : UInt64) (htop64 : top < 64)
    (hpath : Word.testBit p.path top = false) (htoward : Word.testBit p.toward top = false) :
    (p.onRight (Word.bit top)).leads state = (Word.testBit state top && p.leads state) := by
  rw [leads_under_top state hpath htoward (q := p.onRight (Word.bit top))
    (by simp [onRight, Word.testBit_bit htop64])
    (by intro i hi; simp [onRight, Word.testBit_bit htop64, hi])]
  simp [onRight, Word.testBit_bit htop64]

theorem Marks.testBit_path_above {ways levels leaf : Nat} {p : PathPattern}
    (hmarks : p.Marks ways levels leaf) (node : Nat) (hleaf : leaf < 2 * ways)
    (hnode : node + 1 < leaf / 2 ^ levels) :
    Word.testBit p.path (ways - 2 - node) = false := by
  rw [← Bool.not_eq_true, hmarks.path]
  rintro ⟨height, hheight, heq⟩
  have hlow : leaf / 2 ^ levels ≤ leaf / 2 ^ (height + 1) :=
    Nat.div_le_div_left (Nat.pow_le_pow_right (by decide) hheight) (Nat.two_pow_pos _)
  have hhigh : leaf / 2 ^ (height + 1) ≤ leaf / 2 := by
    apply Nat.div_le_div_left _ (by decide)
    exact Nat.le_self_pow (Nat.succ_ne_zero height) 2
  omega

theorem testBit_above_of_mem_below {ways levels child : Nat} {p : PathPattern} (node : Nat)
    (hways : ways ≤ 64) (hfit : (child + 2) * 2 ^ levels ≤ 2 * ways) (hchild : node < child)
    (hp : p ∈ below ways levels child) :
    Word.testBit p.path (ways - 2 - node) = false ∧
      Word.testBit p.toward (ways - 2 - node) = false := by
  obtain ⟨k, hk, hget⟩ := List.mem_iff_getElem.mp hp
  rw [length_below, Nat.one_shiftLeft] at hk
  have hmarks := marks_of_getElem?_below hways (List.getElem?_eq_some_iff.mpr ⟨_, hget⟩)
  have hleaf : (child + 1) * 2 ^ levels + k < 2 * ways := by
    have hsum : (child + 2) * 2 ^ levels = (child + 1) * 2 ^ levels + 2 ^ levels := by ring
    omega
  have hnode : node + 1 < ((child + 1) * 2 ^ levels + k) / 2 ^ levels := by
    rw [leaf_div_two_pow child hk]
    omega
  have hpath := hmarks.testBit_path_above node hleaf hnode
  refine ⟨hpath, ?_⟩
  rw [← Bool.not_eq_true]
  intro htoward
  rw [hmarks.path_of_toward htoward] at hpath
  contradiction

theorem countP_leads_below {ways levels node : Nat} (hways : ways ≤ 64)
    (hfit : (node + 2) * 2 ^ levels ≤ 2 * ways) (state : UInt64) :
    (below ways levels node).countP (·.leads state) = 1 := by
  induction levels generalizing node with
  | zero => simp [below, leads, root]
  | succ levels ih =>
      have htop64 : ways - 2 - node < 64 := by omega
      have hfitLeft : (2 * node + 1 + 2) * 2 ^ levels ≤ 2 * ways := by
        rw [Nat.pow_succ] at hfit
        nlinarith [Nat.two_pow_pos levels]
      have hfitRight : (2 * node + 2 + 2) * 2 ^ levels ≤ 2 * ways := by
        rw [Nat.pow_succ] at hfit
        nlinarith [Nat.two_pow_pos levels]
      have hleft : (below ways levels (2 * node + 1)).countP
          ((·.leads state) ∘ onLeft (Word.bit (ways - 2 - node))) =
          (below ways levels (2 * node + 1)).countP
            fun p => !Word.testBit state (ways - 2 - node) && p.leads state := by
        apply List.countP_congr
        intro p hp
        obtain ⟨hpath, htoward⟩ :=
          testBit_above_of_mem_below node hways hfitLeft (by omega) hp
        rw [Function.comp_apply, leads_onLeft state htop64 hpath htoward]
      have hright : (below ways levels (2 * node + 2)).countP
          ((·.leads state) ∘ onRight (Word.bit (ways - 2 - node))) =
          (below ways levels (2 * node + 2)).countP
            fun p => Word.testBit state (ways - 2 - node) && p.leads state := by
        apply List.countP_congr
        intro p hp
        obtain ⟨hpath, htoward⟩ :=
          testBit_above_of_mem_below node hways hfitRight (by omega) hp
        rw [Function.comp_apply, leads_onRight state htop64 hpath htoward]
      rw [below, List.countP_append, List.countP_map, List.countP_map, hleft, hright]
      cases Word.testBit state (ways - 2 - node) with
      | false => simpa using ih hfitLeft
      | true => simpa using ih hfitRight

end PseudoLru.PathPattern
