import Mathlib.Tactic
import PseudoLru.Proofs.EncodingTree

/-!
# Whose turn it is

While every access misses and fills the victim, each node of the tree sends the
misses that reach it to its two halves in turn.  So the root decides by the
lowest bit of the number of misses so far, the nodes below it by the next bit,
and so on: the way that is filled after `count` misses is found by going, at
every node, with its bit in the first state if the bit of `count` at the depth
of the node is zero, and against it otherwise.

Two numbers of misses lead to the same way exactly when they agree in as many
low bits as the tree has levels.  So the ways take turns, each once in as many
misses as there are ways.
-/

namespace PseudoLru.Encoding

theorem mod_two_pow_succ_eq_iff (i j depth : Nat) :
    i % 2 ^ (depth + 1) = j % 2 ^ (depth + 1) ↔
      i % 2 ^ depth = j % 2 ^ depth ∧ i.testBit depth = j.testBit depth := by
  have hi := Nat.mod_lt i (Nat.two_pow_pos depth)
  have hj := Nat.mod_lt j (Nat.two_pow_pos depth)
  rw [Nat.mod_pow_succ, Nat.mod_pow_succ, Nat.testBit_eq_decide_div_mod_eq,
    Nat.testBit_eq_decide_div_mod_eq, decide_eq_decide]
  rcases Nat.mod_two_eq_zero_or_one (i / 2 ^ depth) with hieven | hiodd <;>
    rcases Nat.mod_two_eq_zero_or_one (j / 2 ^ depth) with hjeven | hjodd <;>
      simp [*] <;> omega

/-- Counting up turns a bit over when all bits below it start again. -/
theorem testBit_add_one (count depth : Nat) :
    (count + 1).testBit depth =
      if (count + 1) % 2 ^ depth = 0 then !count.testBit depth else count.testBit depth := by
  rw [Nat.testBit_eq_decide_div_mod_eq, Nat.testBit_eq_decide_div_mod_eq, Nat.succ_div]
  by_cases hcarry : (count + 1) % 2 ^ depth = 0
  · rw [if_pos (Nat.dvd_of_mod_eq_zero hcarry), if_pos hcarry, ← decide_not, decide_eq_decide]
    omega
  · rw [if_neg (mt Nat.mod_eq_zero_of_dvd hcarry), if_neg hcarry, Nat.add_zero]

theorem div_two_pow_eq_iff_succ (way other height : Nat) :
    way / 2 ^ height = other / 2 ^ height ↔
      way / 2 ^ (height + 1) = other / 2 ^ (height + 1) ∧
        way.testBit height = other.testBit height := by
  constructor
  · intro hhalf
    have hnode := div_two_pow_eq_of_le (Nat.le_succ height) hhalf
    exact ⟨hnode, (testBit_eq_iff_of_div_eq hnode).mpr hhalf⟩
  · rintro ⟨hnode, hbit⟩
    exact (testBit_eq_iff_of_div_eq hnode).mp hbit

/-- It is the turn of `way` after `count` misses from `state`. -/
structure Turn (e : Encoding) (state : UInt64) (count way : Nat) : Prop where
  way_lt : way < e.ways
  testBit_eq :
    ∀ height < e.levels, way.testBit height =
      (Word.testBit state (e.bitOver way height) ^^ count.testBit (e.levels - 1 - height))

variable {e : Encoding} {state after : UInt64} {count i j way other : Nat}

theorem turn_victim (e : Encoding) (state : UInt64) : e.Turn state 0 (e.victim state) where
  way_lt := e.victim_lt state
  testBit_eq := by
    intro height hheight
    rw [e.testBit_bitOver_victim state hheight, Nat.zero_testBit, Bool.xor_false]

/-- The paths to two ways part at the depth of the lowest bit in which two
numbers differ, if that holds of every node that both paths reach. -/
theorem div_eq_iff_mod_eq (hway : way < e.ways) (hother : other < e.ways)
    (hbits : ∀ height < e.levels, way / 2 ^ (height + 1) = other / 2 ^ (height + 1) →
      i % 2 ^ (e.levels - 1 - height) = j % 2 ^ (e.levels - 1 - height) →
        (way.testBit height = other.testBit height ↔
          i.testBit (e.levels - 1 - height) = j.testBit (e.levels - 1 - height)))
    {depth : Nat} (hdepth : depth ≤ e.levels) :
    way / 2 ^ (e.levels - depth) = other / 2 ^ (e.levels - depth) ↔
      i % 2 ^ depth = j % 2 ^ depth := by
  induction depth with
  | zero =>
      rw [Nat.sub_zero, ← ways_eq_two_pow, Nat.div_eq_of_lt hway, Nat.div_eq_of_lt hother,
        Nat.pow_zero, Nat.mod_one, Nat.mod_one]
  | succ depth ih =>
      obtain ⟨height, hheight⟩ : ∃ height, e.levels = depth + (height + 1) :=
        ⟨e.levels - depth - 1, by omega⟩
      have hlow : e.levels - (depth + 1) = height := by omega
      have hnode : e.levels - depth = height + 1 := by omega
      have hlast : e.levels - 1 - height = depth := by omega
      have habove := ih (Nat.le_of_succ_le hdepth)
      have hhere := hbits height (by omega)
      rw [hnode] at habove
      rw [hlast] at hhere
      rw [hlow, div_two_pow_eq_iff_succ, mod_two_pow_succ_eq_iff, ← habove]
      apply and_congr_right
      intro hsame
      exact hhere hsame (habove.mp hsame)

/-- The paths of two turns part where their numbers first differ. -/
theorem Turn.div_eq_iff (hway : e.Turn state i way) (hother : e.Turn state j other)
    {depth : Nat} (hdepth : depth ≤ e.levels) :
    way / 2 ^ (e.levels - depth) = other / 2 ^ (e.levels - depth) ↔
      i % 2 ^ depth = j % 2 ^ depth := by
  apply div_eq_iff_mod_eq hway.way_lt hother.way_lt _ hdepth
  intro height hheight hsame _
  have hbit : e.bitOver way height = e.bitOver other height :=
    (e.bitOver_eq_iff hway.way_lt hother.way_lt hheight hheight).mpr ⟨rfl, hsame⟩
  rw [hway.testBit_eq height hheight, hother.testBit_eq height hheight, hbit, Bool.xor_right_inj]

theorem Turn.eq_iff (hway : e.Turn state i way) (hother : e.Turn state j other) :
    way = other ↔ i % e.ways = j % e.ways := by
  have hall := hway.div_eq_iff hother (Nat.le_refl e.levels)
  rwa [Nat.sub_self, Nat.pow_zero, Nat.div_one, Nat.div_one, ← ways_eq_two_pow] at hall

theorem Turn.eq_of_add_ways (hway : e.Turn state i way) (hother : e.Turn state j other)
    (hround : i + e.ways = j) : way = other := by
  subst hround
  exact (hway.eq_iff hother).mpr (Nat.add_mod_right i e.ways).symm

theorem Turn.ne_of_lt (hway : e.Turn state i way) (hother : e.Turn state j other)
    (hlt : i < j) (hnear : j < i + e.ways) : way ≠ other := by
  intro heq
  have hmod := (hway.eq_iff hother).mp heq
  have hdvd := (Nat.modEq_iff_dvd' (Nat.le_of_lt hlt)).mp hmod
  have hle := Nat.le_of_dvd (by omega) hdvd
  omega

/-- In a row of turns no way comes twice before every way has come. -/
theorem Turn.nodup {ways : List Nat} (first : Nat)
    (hturns : ∀ k way, ways[k]? = some way → e.Turn state (first + k) way)
    (hlength : ways.length ≤ e.ways) : ways.Nodup := by
  rw [List.nodup_iff_getElem?_ne_getElem?]
  intro i j hlt hj heq
  have hother := List.getElem?_eq_getElem hj
  rw [hother] at heq
  exact (hturns i _ heq).ne_of_lt (hturns j _ hother) (by omega) (by omega) rfl

theorem Turn.perm_range {ways : List Nat} (first : Nat)
    (hturns : ∀ k way, ways[k]? = some way → e.Turn state (first + k) way)
    (hlength : ways.length = e.ways) : ways.Perm (List.range e.ways) := by
  have hsubset : ways ⊆ List.range e.ways := by
    intro way hway
    obtain ⟨k, hk⟩ := List.mem_iff_getElem?.mp hway
    exact List.mem_range.mpr (hturns k way hk).way_lt
  apply (List.subperm_of_subset (Turn.nodup first hturns hlength.le) hsubset).perm_of_length_le
  rw [List.length_range, hlength]

section Window

variable {ways : List Nat}

theorem Turn.of_window (hturns : ∀ k way, ways[k]? = some way → e.Turn state k way)
    (first k way : Nat) (hk : ((ways.drop first).take e.ways)[k]? = some way) :
    e.Turn state (first + k) way := by
  rw [List.getElem?_take] at hk
  split at hk
  next =>
    rw [List.getElem?_drop] at hk
    exact hturns _ way hk
  next => cases hk

/-- As many turns in a row as there are ways are those of all the ways. -/
theorem Turn.perm_window (hturns : ∀ k way, ways[k]? = some way → e.Turn state k way)
    {first : Nat} (hlong : first + e.ways ≤ ways.length) :
    ((ways.drop first).take e.ways).Perm (List.range e.ways) := by
  apply Turn.perm_range first (Turn.of_window hturns first)
  rw [List.length_take, List.length_drop]
  omega

end Window

/-- The way whose turn comes `count` misses after the victim was filled comes
below the same node as the victim as long as the bits of `count + 1` are zero. -/
theorem Turn.victim_div_eq_iff (htouch : e.touch state (e.victim state) = .ok after)
    (hturn : e.Turn after count way) {depth : Nat} (hdepth : depth ≤ e.levels) :
    e.victim state / 2 ^ (e.levels - depth) = way / 2 ^ (e.levels - depth) ↔
      (count + 1) % 2 ^ depth = 0 := by
  rw [← Nat.zero_mod (2 ^ depth)]
  apply div_eq_iff_mod_eq (e.victim_lt state) hturn.way_lt _ hdepth
  intro height hheight hsame hcarry
  rw [Nat.zero_mod] at hcarry
  rw [hturn.testBit_eq height hheight, testBit_bitOver_touch htouch hturn.way_lt hheight,
    if_pos hsame, testBit_add_one, if_pos hcarry, Nat.zero_testBit]
  cases (e.victim state).testBit height <;> simp

theorem Turn.of_touch_victim (htouch : e.touch state (e.victim state) = .ok after)
    (hturn : e.Turn after count way) : e.Turn state (count + 1) way where
  way_lt := hturn.way_lt
  testBit_eq := by
    intro height hheight
    have hdepth : e.levels - 1 - height ≤ e.levels := by omega
    have hnode := hturn.victim_div_eq_iff htouch hdepth
    rw [show e.levels - (e.levels - 1 - height) = height + 1 by omega] at hnode
    have hbit := hturn.testBit_eq height hheight
    rw [testBit_bitOver_touch htouch hturn.way_lt hheight] at hbit
    rw [testBit_add_one]
    by_cases hsame : e.victim state / 2 ^ (height + 1) = way / 2 ^ (height + 1)
    · -- On the path of the victim the bit of the state and that of the number are both turned.
      have hposition : e.bitOver (e.victim state) height = e.bitOver way height :=
        (e.bitOver_eq_iff (e.victim_lt state) hturn.way_lt hheight hheight).mpr ⟨rfl, hsame⟩
      rw [if_pos hsame] at hbit
      rw [if_pos (hnode.mp hsame), hbit, ← hposition, e.testBit_bitOver_victim state hheight,
        Bool.not_xor, Bool.xor_not]
    · rw [if_neg hsame] at hbit
      rw [if_neg (hnode.not.mp hsame), hbit]

end PseudoLru.Encoding
