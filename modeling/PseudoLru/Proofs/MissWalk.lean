import Mathlib.Tactic
import PseudoLru.Proofs.MissRotation
import PseudoLru.Proofs.TreeWalk

/-!
# The walk of misses

When every access misses, the victim of each state is filled and gives the
next state.  The number of misses so far decides the way that is filled: the
walk down the tree follows the bits of the first state, and turns the other way
at each depth where that number has a one.  Only as many low bits of it are
used as the tree has levels, so ways and states come back after as many misses
as there are ways.  From the state zero, the bits of the number alone decide,
the lowest at the root, so the way is the number with its bits reversed.
-/

namespace PseudoLru.Encoding

/-- The number of edges between the root and a node. -/
def depth (node : Nat) : Nat := Nat.log 2 (node + 1)

/-- The low bits of a number in the opposite order. -/
def reversed : (width number : Nat) → Nat
  | 0, _ => 0
  | width + 1, number => number % 2 * 2 ^ width + reversed width (number / 2)

theorem reversed_lt (width number : Nat) : reversed width number < 2 ^ width := by
  induction width generalizing number with
  | zero => exact Nat.one_pos
  | succ width ih =>
      have hrest := ih (number / 2)
      have hbit : number % 2 * 2 ^ width ≤ 1 * 2 ^ width :=
        Nat.mul_le_mul_right _ (Nat.le_of_lt_succ (Nat.mod_lt _ (by decide)))
      rw [reversed, Nat.pow_succ]
      omega

theorem testBit_reversed (number : Nat) {width i : Nat} (hi : i < width) :
    (reversed width number).testBit i = number.testBit (width - 1 - i) := by
  induction width generalizing number with
  | zero => omega
  | succ width ih =>
      rw [reversed, Nat.mul_comm, Nat.testBit_two_pow_mul_add _ (reversed_lt _ _)]
      split
      next hlow =>
        rw [ih (number / 2) hlow, ← Nat.testBit_add_one]
        congr 1
        omega
      next htop =>
        obtain rfl : i = width := by omega
        rw [Nat.sub_self, Nat.add_sub_cancel, Nat.sub_self, Nat.testBit_zero, Nat.testBit_zero,
          Nat.mod_mod]

variable {e : Encoding} {state after : UInt64} {count way : Nat}

/-! ## Turns and walks -/

theorem depth_of_ways_add_div_eq {node height : Nat} (hway : way < e.ways)
    (hheight : height < e.levels) (hnode : (e.ways + way) / 2 ^ (height + 1) = node + 1) :
    depth node = e.levels - 1 - height := by
  have hlow := e.le_ways_add_div way hheight
  have hhigh := e.ways_add_div_lt hway hheight
  rw [hnode] at hlow hhigh
  rw [depth, Nat.log_eq_iff (Or.inr ⟨by decide, Nat.succ_ne_zero node⟩)]
  have hexponent : e.levels - (height + 1) = e.levels - 1 - height := by omega
  have hnext : e.levels - height = e.levels - 1 - height + 1 := by omega
  rw [hexponent] at hlow
  rw [hnext] at hhigh
  exact ⟨hlow, hhigh⟩

theorem Turn.leaf_eq_walk (hturn : e.Turn state count way) :
    (leaves e.levels 0)[way]? =
      some (walk (fun node =>
        Word.testBit state (e.ways - 2 - node) ^^ count.testBit (depth node)) e.levels 0) := by
  rw [e.getElem?_leaves_root hturn.way_lt, e.walk_eq_of_testBit hturn.way_lt]
  intro height hheight node hnode
  rw [hturn.testBit_eq height hheight, bitOver_of_ways_add_div_eq hnode,
    depth_of_ways_add_div_eq hturn.way_lt hheight hnode]

theorem Turn.eq_reversed (hturn : e.Turn 0 count way) :
    way = reversed e.levels (count % e.ways) := by
  have hlt : reversed e.levels (count % e.ways) < e.ways := by
    rw [ways_eq_two_pow]
    exact reversed_lt _ _
  have hreversed : e.Turn 0 (count % e.ways) (reversed e.levels (count % e.ways)) := by
    refine ⟨hlt, ?_⟩
    intro height hheight
    rw [testBit_reversed _ hheight, Word.testBit_zero, Bool.false_xor]
  rw [hturn.eq_iff hreversed, Nat.mod_mod]

theorem Turn.of_testBit_eq {other : Nat} (hturn : e.Turn state count way)
    (hsame : ∀ depth < e.levels, other.testBit depth = count.testBit depth) :
    e.Turn state other way where
  way_lt := hturn.way_lt
  testBit_eq := by
    intro height hheight
    rw [hturn.testBit_eq height hheight, hsame _ (by omega)]

/-- A round later it is the turn of the same way. -/
theorem turn_add_ways_iff : e.Turn state (count + e.ways) way ↔ e.Turn state count way := by
  have hsame : ∀ depth < e.levels, (count + e.ways).testBit depth = count.testBit depth := by
    intro depth hdepth
    rw [ways_eq_two_pow, Nat.add_comm, Nat.testBit_two_pow_add_gt hdepth]
  exact ⟨fun hturn => hturn.of_testBit_eq fun depth hdepth => (hsame depth hdepth).symm,
    fun hturn => hturn.of_testBit_eq hsame⟩

/-! ## One miss after the other -/

/-- The state that a walk of misses leaves. -/
def stateAfter (state : UInt64) (walk : List (Nat × UInt64)) : UInt64 :=
  (walk.getLast?.map (·.2)).getD state

@[simp] theorem stateAfter_nil (state : UInt64) : stateAfter state [] = state := rfl

@[simp] theorem stateAfter_cons (state : UInt64) (miss : Nat × UInt64)
    (walk : List (Nat × UInt64)) :
    stateAfter state (miss :: walk) = stateAfter miss.2 walk := by
  rw [stateAfter, stateAfter, List.getLast?_cons]
  cases walk.getLast? <;> rfl

theorem stateAfter_append (state : UInt64) (first second : List (Nat × UInt64)) :
    stateAfter state (first ++ second) = stateAfter (stateAfter state first) second := by
  induction first generalizing state with
  | nil => rfl
  | cons miss first ih => rw [List.cons_append, stateAfter_cons, stateAfter_cons, ih]

theorem exists_missWalk_succ (e : Encoding) (state : UInt64) :
    ∃ next, e.touch state (e.victim state) = .ok next ∧ ∀ steps,
      e.missWalk state (steps + 1) =
        (e.missWalk next steps).map fun walk => (e.victim state, next) :: walk := by
  obtain ⟨p, hp, -⟩ := e.exists_victim_pattern state
  have htouch := touch_of_getElem?_patterns hp state
  refine ⟨_, htouch, ?_⟩
  intro steps
  rw [missWalk, fill_victim, htouch]
  cases hrest : e.missWalk (p.touch state) steps <;>
    simp [hrest, bind, Except.bind, pure, Except.pure, Except.map]

/-- What holds of a walk of misses from a state. -/
structure Rounds (e : Encoding) (state : UInt64) (walk : List (Nat × UInt64)) : Prop where
  turn : ∀ k way, (walk.map (·.1))[k]? = some way → e.Turn state k way
  above : ∀ miss ∈ walk, ∀ i, e.ways - 1 ≤ i → Word.testBit miss.2 i = Word.testBit state i

theorem rounds_nil (e : Encoding) (state : UInt64) : e.Rounds state [] := by
  constructor <;> simp

theorem Rounds.cons {walk : List (Nat × UInt64)} (hrounds : e.Rounds after walk)
    (htouch : e.touch state (e.victim state) = .ok after) :
    e.Rounds state ((e.victim state, after) :: walk) where
  turn := by
    rintro (_ | k) way hway
    · rw [List.map_cons, List.getElem?_cons_zero] at hway
      obtain rfl := Option.some.inj hway
      exact e.turn_victim state
    · rw [List.map_cons, List.getElem?_cons_succ] at hway
      exact (hrounds.turn k way hway).of_touch_victim htouch
  above := by
    intro miss hmiss i hi
    have hkept := testBit_touch_of_le htouch hi
    rcases List.mem_cons.mp hmiss with rfl | hlater
    · exact hkept
    · rw [hrounds.above miss hlater i hi, hkept]

theorem exists_rounds (e : Encoding) (state : UInt64) (steps : Nat) :
    ∃ walk, e.missWalk state steps = .ok walk ∧ walk.length = steps ∧ e.Rounds state walk := by
  induction steps generalizing state with
  | zero => exact ⟨[], rfl, rfl, e.rounds_nil state⟩
  | succ steps ih =>
      obtain ⟨next, htouch, hwalk⟩ := e.exists_missWalk_succ state
      obtain ⟨walk, hrest, hlength, hrounds⟩ := ih next
      refine ⟨(e.victim state, next) :: walk, ?_, ?_, hrounds.cons htouch⟩
      · rw [hwalk, hrest]
        rfl
      · rw [List.length_cons, hlength]

theorem missWalk_add {first second : List (Nat × UInt64)} {steps more : Nat}
    (hfirst : e.missWalk state steps = .ok first)
    (hsecond : e.missWalk (stateAfter state first) more = .ok second) :
    e.missWalk state (steps + more) = .ok (first ++ second) := by
  induction steps generalizing state first with
  | zero =>
      obtain rfl := Except.ok.inj hfirst
      rwa [Nat.zero_add]
  | succ steps ih =>
      obtain ⟨next, -, hwalk⟩ := e.exists_missWalk_succ state
      obtain ⟨rest, hrest, -, -⟩ := e.exists_rounds next steps
      rw [hwalk, hrest] at hfirst
      obtain rfl := Except.ok.inj hfirst
      rw [stateAfter_cons] at hsecond
      rw [Nat.add_right_comm, hwalk, ih hrest hsecond]
      rfl

/-! ## Rounds -/

theorem Rounds.testBit_stateAfter {walk : List (Nat × UInt64)} (hrounds : e.Rounds state walk)
    {i : Nat} (hi : e.ways - 1 ≤ i) :
    Word.testBit (stateAfter state walk) i = Word.testBit state i := by
  unfold stateAfter
  cases hlast : walk.getLast? with
  | none => rfl
  | some miss => exact hrounds.above miss (List.mem_of_getLast? hlast) i hi

theorem Rounds.exists_turn {walk : List (Nat × UInt64)} (hrounds : e.Rounds state walk)
    (hlength : walk.length = e.ways) (hway : way < e.ways) :
    ∃ k : Nat, (walk.map (·.1))[k]? = some way := by
  have hwindow : (((walk.map (·.1)).drop 0).take e.ways).Perm (List.range e.ways) :=
    Turn.perm_window hrounds.turn (by rw [List.length_map]; omega)
  rw [List.drop_zero] at hwindow
  exact List.mem_iff_getElem?.mp
    (List.mem_of_mem_take (hwindow.mem_iff.mpr (List.mem_range.mpr hway)))

/-- A round of misses leaves the state it began with. -/
theorem stateAfter_round {round : List (Nat × UInt64)}
    (hround : e.missWalk state e.ways = .ok round) : stateAfter state round = state := by
  obtain ⟨walk, hwalk, hlength, hrounds⟩ := e.exists_rounds (stateAfter state round) e.ways
  obtain ⟨both, hboth, hlength', hrounds'⟩ := e.exists_rounds state (e.ways + e.ways)
  rw [missWalk_add hround hwalk] at hboth
  obtain rfl := Except.ok.inj hboth
  have hround' : round.length = e.ways := by
    rw [List.length_append] at hlength'
    omega
  apply e.eq_of_testBit_bitOver
  · -- It is the turn of each way at the same place in this round and in the next one.
    intro way hway height hheight
    obtain ⟨k, hk⟩ := hrounds.exists_turn hlength hway
    have hnext := hrounds.turn k way hk
    have hturn : e.Turn state (k + e.ways) way := by
      apply hrounds'.turn
      rw [List.map_append, List.getElem?_append_right (by rw [List.length_map]; omega),
        List.length_map, hround', Nat.add_sub_cancel]
      exact hk
    have hbit := (turn_add_ways_iff.mp hturn).testBit_eq height hheight
    rwa [hnext.testBit_eq height hheight, Bool.xor_left_inj] at hbit
  · intro i hi
    obtain ⟨walk', hwalk', -, hfirst⟩ := e.exists_rounds state e.ways
    rw [hround] at hwalk'
    obtain rfl := Except.ok.inj hwalk'
    exact hfirst.testBit_stateAfter hi

theorem missWalk_take {walk : List (Nat × UInt64)} {steps k : Nat}
    (hwalk : e.missWalk state steps = .ok walk) (hk : k ≤ steps) :
    e.missWalk state k = .ok (walk.take k) := by
  obtain ⟨more, rfl⟩ := Nat.exists_eq_add_of_le hk
  obtain ⟨first, hfirst, hlength, -⟩ := e.exists_rounds state k
  obtain ⟨rest, hrest, -, -⟩ := e.exists_rounds (stateAfter state first) more
  rw [missWalk_add hfirst hrest] at hwalk
  obtain rfl := Except.ok.inj hwalk
  rw [hfirst, ← hlength, List.take_left]

/-- The state after any number of misses comes back a round later. -/
theorem stateAfter_take_add_ways {walk : List (Nat × UInt64)} {steps k : Nat}
    (hwalk : e.missWalk state steps = .ok walk) (hk : k + e.ways ≤ steps) :
    stateAfter state (walk.take (k + e.ways)) = stateAfter state (walk.take k) := by
  have hfirst := missWalk_take hwalk ((Nat.le_add_right _ _).trans hk)
  obtain ⟨round, hround, -, -⟩ := e.exists_rounds (stateAfter state (walk.take k)) e.ways
  have hboth := missWalk_take hwalk hk
  rw [missWalk_add hfirst hround] at hboth
  rw [← Except.ok.inj hboth, stateAfter_append, stateAfter_round hround]

theorem Rounds.getElem?_add_ways {walk : List (Nat × UInt64)} (hrounds : e.Rounds state walk)
    {k : Nat} (hk : k + e.ways < walk.length) :
    (walk.map (·.1))[k + e.ways]? = (walk.map (·.1))[k]? := by
  have hlate : k + e.ways < (walk.map (·.1)).length := by rwa [List.length_map]
  have hearly : k < (walk.map (·.1)).length := (Nat.le_add_right _ _).trans_lt hlate
  have hway := hrounds.turn _ _ (List.getElem?_eq_getElem hearly)
  have hagain := hrounds.turn _ _ (List.getElem?_eq_getElem hlate)
  rw [List.getElem?_eq_getElem hearly, List.getElem?_eq_getElem hlate,
    hway.eq_of_add_ways hagain rfl]

/-- The way that is filled after `k` misses is found by going down the tree
with the bits of the first state where the bit of `k` at the depth is zero, and
against them where it is one.  So the ways come in rounds in which each comes
once, the state is the same after each round, its bits above the tree stay, and
from the state zero the ways are the numbers with their bits reversed. -/
theorem misses_follow_count (e : Encoding) (state : UInt64) (steps : Nat) :
    ∃ walk, e.missWalk state steps = .ok walk ∧ walk.length = steps ∧
      (∀ k way, (walk.map (·.1))[k]? = some way →
        (leaves e.levels 0)[way]? = some (Encoding.walk (fun node =>
          Word.testBit state (e.ways - 2 - node) ^^ k.testBit (depth node)) e.levels 0) ∧
        (state = 0 → way = reversed e.levels (k % e.ways))) ∧
      (∀ k, k + e.ways ≤ steps →
        (((walk.map (·.1)).drop k).take e.ways).Perm (List.range e.ways) ∧
        stateAfter state (walk.take (k + e.ways)) = stateAfter state (walk.take k)) ∧
      (∀ k, k + e.ways < steps → (walk.map (·.1))[k + e.ways]? = (walk.map (·.1))[k]?) ∧
      ∀ miss ∈ walk, ∀ i, e.ways - 1 ≤ i → Word.testBit miss.2 i = Word.testBit state i := by
  obtain ⟨walk, hwalk, hlength, hrounds⟩ := e.exists_rounds state steps
  refine ⟨walk, hwalk, hlength, ?_, ?_, ?_, hrounds.above⟩
  · intro k way hway
    have hturn := hrounds.turn k way hway
    refine ⟨hturn.leaf_eq_walk, ?_⟩
    rintro rfl
    exact hturn.eq_reversed
  · intro k hk
    refine ⟨Turn.perm_window hrounds.turn ?_, stateAfter_take_add_ways hwalk hk⟩
    rwa [List.length_map, hlength]
  · intro k hk
    exact hrounds.getElem?_add_ways (by rwa [hlength])

end PseudoLru.Encoding
