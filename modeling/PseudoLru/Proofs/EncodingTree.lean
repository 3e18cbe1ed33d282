import Mathlib.Tactic
import PseudoLru.Proofs.PathPatterns

/-!
# References and victims in the tree

A way has one node above it at every height.  Two ways have the same node
above them at `height` when `way / 2 ^ (height + 1)` is the same, and then the
bit `height` of a way tells in which half of the node it lies.

A reference to a way sets the bits of the nodes above it, each away from the
way's half, and no other bits of the state.  The victim is the way toward
which all the bits above it point, so filling it is referring to it.
-/

namespace PseudoLru.Encoding

theorem div_two_pow_succ (number height : Nat) :
    number / 2 ^ (height + 1) = number / 2 ^ height / 2 := by
  rw [Nat.pow_succ, Nat.div_div_eq_div_mul]

theorem div_two_pow_eq_of_le {way other height height' : Nat} (hle : height ≤ height')
    (heq : way / 2 ^ height = other / 2 ^ height) :
    way / 2 ^ height' = other / 2 ^ height' := by
  obtain ⟨rise, rfl⟩ := Nat.exists_eq_add_of_le hle
  rw [Nat.pow_add, ← Nat.div_div_eq_div_mul, ← Nat.div_div_eq_div_mul, heq]

/-- Two ways below one node lie in the same half of it exactly when they agree
in the bit of that height. -/
theorem testBit_eq_iff_of_div_eq {way other height : Nat}
    (heq : way / 2 ^ (height + 1) = other / 2 ^ (height + 1)) :
    way.testBit height = other.testBit height ↔ way / 2 ^ height = other / 2 ^ height := by
  rw [div_two_pow_succ, div_two_pow_succ] at heq
  rw [Nat.testBit_eq_decide_div_mod_eq, Nat.testBit_eq_decide_div_mod_eq, decide_eq_decide]
  omega

variable (e : Encoding)

theorem ways_eq_two_pow : e.ways = 2 ^ e.levels := by
  rw [ways, Nat.one_shiftLeft]

theorem ways_le : e.ways ≤ 64 := by
  rw [ways_eq_two_pow]
  exact Nat.pow_le_pow_right (by decide) e.levels_le

theorem levels_add_one_of_ways_le_two (hsmall : e.ways ≤ 2) : e.levels + 1 = e.ways := by
  rw [ways_eq_two_pow] at hsmall ⊢
  have hle : e.levels ≤ 1 := (Nat.pow_le_pow_iff_right (by decide)).mp hsmall
  interval_cases e.levels <;> rfl

theorem ways_add_div (way : Nat) {height : Nat} (hheight : height ≤ e.levels) :
    (e.ways + way) / 2 ^ height = 2 ^ (e.levels - height) + way / 2 ^ height := by
  have hsplit : e.ways = 2 ^ (e.levels - height) * 2 ^ height := by
    rw [ways_eq_two_pow, ← Nat.pow_add]
    congr 1
    omega
  rw [hsplit, Nat.add_comm, Nat.add_mul_div_right _ _ (Nat.two_pow_pos height), Nat.add_comm]

theorem ways_add_div_eq_iff (way other : Nat) {height : Nat} (hheight : height ≤ e.levels) :
    (e.ways + way) / 2 ^ height = (e.ways + other) / 2 ^ height ↔
      way / 2 ^ height = other / 2 ^ height := by
  rw [e.ways_add_div way hheight, e.ways_add_div other hheight, Nat.add_left_cancel_iff]

theorem div_two_pow_lt {way : Nat} (hway : way < e.ways) {height : Nat}
    (hheight : height ≤ e.levels) : way / 2 ^ height < 2 ^ (e.levels - height) := by
  apply Nat.div_lt_of_lt_mul
  rw [← Nat.pow_add, Nat.add_sub_of_le hheight, ← ways_eq_two_pow]
  exact hway

/-- The position in the state of the bit of the node `height + 1` levels above
a way. -/
def bitOver (way height : Nat) : Nat :=
  e.ways - 1 - (e.ways + way) / 2 ^ (height + 1)

theorem ways_add_div_lt {way height : Nat} (hway : way < e.ways) (hheight : height < e.levels) :
    (e.ways + way) / 2 ^ (height + 1) < 2 ^ (e.levels - height) := by
  have hdiv : (e.ways + way) / 2 ^ (height + 1) =
      2 ^ (e.levels - (height + 1)) + way / 2 ^ (height + 1) :=
    e.ways_add_div way hheight
  have hlt : way / 2 ^ (height + 1) < 2 ^ (e.levels - (height + 1)) :=
    e.div_two_pow_lt hway hheight
  have hdouble : 2 ^ (e.levels - height) = 2 * 2 ^ (e.levels - (height + 1)) := by
    rw [← Nat.pow_succ']
    congr 1
    omega
  omega

theorem le_ways_add_div (way : Nat) {height : Nat} (hheight : height < e.levels) :
    2 ^ (e.levels - (height + 1)) ≤ (e.ways + way) / 2 ^ (height + 1) := by
  rw [e.ways_add_div way hheight]
  exact Nat.le_add_right _ _

theorem two_pow_le_ways (height : Nat) : 2 ^ (e.levels - height) ≤ e.ways := by
  rw [ways_eq_two_pow]
  exact Nat.pow_le_pow_right (by decide) (Nat.sub_le _ _)

theorem bitOver_lt {way height : Nat} (hway : way < e.ways) (hheight : height < e.levels) :
    e.bitOver way height < e.ways - 1 := by
  have hlow := e.le_ways_add_div way hheight
  have hhigh := e.ways_add_div_lt hway hheight
  have hpos := Nat.two_pow_pos (e.levels - (height + 1))
  have hle := e.two_pow_le_ways height
  unfold bitOver
  omega

theorem ways_add_div_lt_of_lt {way other height height' : Nat} (hother : other < e.ways)
    (hheight' : height' < e.levels) (hlt : height < height') :
    (e.ways + other) / 2 ^ (height' + 1) < (e.ways + way) / 2 ^ (height + 1) :=
  calc
    (e.ways + other) / 2 ^ (height' + 1) < 2 ^ (e.levels - height') :=
      e.ways_add_div_lt hother hheight'
    _ ≤ 2 ^ (e.levels - (height + 1)) := Nat.pow_le_pow_right (by decide) (by omega)
    _ ≤ (e.ways + way) / 2 ^ (height + 1) := e.le_ways_add_div way (hlt.trans hheight')

theorem bitOver_eq_iff {way other height height' : Nat} (hway : way < e.ways)
    (hother : other < e.ways) (hheight : height < e.levels) (hheight' : height' < e.levels) :
    e.bitOver way height = e.bitOver other height' ↔
      height = height' ∧ way / 2 ^ (height + 1) = other / 2 ^ (height + 1) := by
  have hnode : e.bitOver way height = e.bitOver other height' ↔
      (e.ways + way) / 2 ^ (height + 1) = (e.ways + other) / 2 ^ (height' + 1) := by
    have hway' := e.ways_add_div_lt hway hheight
    have hother' := e.ways_add_div_lt hother hheight'
    have hle := e.two_pow_le_ways height
    have hle' := e.two_pow_le_ways height'
    unfold bitOver
    omega
  rw [hnode]
  constructor
  · intro heq
    have hsame : height = height' := by
      by_contra hne
      rcases Nat.lt_or_gt_of_ne hne with hlt | hgt
      · exact absurd heq (Nat.ne_of_gt (e.ways_add_div_lt_of_lt hother hheight' hlt))
      · exact absurd heq (Nat.ne_of_lt (e.ways_add_div_lt_of_lt hway hheight hgt))
    subst height'
    exact ⟨rfl, (e.ways_add_div_eq_iff way other hheight).mp heq⟩
  · rintro ⟨rfl, heq⟩
    exact (e.ways_add_div_eq_iff way other hheight).mpr heq

variable {e}

/-! ## The pattern of a way -/

theorem marks_of_getElem?_patterns {way : Nat} {p : PathPattern}
    (hp : e.patterns[way]? = some p) :
    p.Marks e.ways e.levels (e.ways + way) := by
  rw [e.patterns_eq] at hp
  have hmarks := PathPattern.marks_of_getElem?_below e.ways_le hp
  simpa [ways_eq_two_pow, Nat.one_shiftLeft] using hmarks

theorem testBit_path_iff {way : Nat} {p : PathPattern} (hp : e.patterns[way]? = some p)
    (i : Nat) :
    Word.testBit p.path i = true ↔ ∃ height < e.levels, i = e.bitOver way height :=
  (marks_of_getElem?_patterns hp).path i

theorem testBit_ways_add (way : Nat) {height : Nat} (hheight : height < e.levels) :
    (e.ways + way).testBit height = way.testBit height := by
  rw [ways_eq_two_pow]
  exact Nat.testBit_two_pow_add_gt hheight way

theorem way_lt_of_getElem?_patterns {way : Nat} {p : PathPattern}
    (hp : e.patterns[way]? = some p) : way < e.ways := by
  obtain ⟨hlt, _⟩ := List.getElem?_eq_some_iff.mp hp
  rwa [length_patterns] at hlt

theorem exists_getElem?_patterns {way : Nat} (hway : way < e.ways) :
    ∃ p, e.patterns[way]? = some p := by
  rw [← e.length_patterns] at hway
  exact ⟨_, List.getElem?_eq_getElem hway⟩

theorem testBit_toward_bitOver {way height : Nat} {p : PathPattern}
    (hp : e.patterns[way]? = some p) (hheight : height < e.levels) :
    Word.testBit p.toward (e.bitOver way height) = way.testBit height := by
  have hway := way_lt_of_getElem?_patterns hp
  rw [Bool.eq_iff_iff, (marks_of_getElem?_patterns hp).toward]
  constructor
  · rintro ⟨other, hother, heq, hbit⟩
    obtain ⟨rfl, -⟩ := (e.bitOver_eq_iff hway hway hheight hother).mp heq
    rwa [testBit_ways_add way hheight] at hbit
  · intro hbit
    exact ⟨height, hheight, rfl, by rwa [testBit_ways_add way hheight]⟩

theorem touch_of_getElem?_patterns {way : Nat} {p : PathPattern}
    (hp : e.patterns[way]? = some p) (state : UInt64) :
    e.touch state way = .ok (p.touch state) := by
  simp [touch, pattern, OutOfRange.lookup, hp, bind, Except.bind, pure, Except.pure]

theorem fill_of_getElem?_patterns {way : Nat} {p : PathPattern}
    (hp : e.patterns[way]? = some p) (state : UInt64) :
    e.fill state way = .ok (p.fill state) := by
  simp [fill, pattern, OutOfRange.lookup, hp, bind, Except.bind, pure, Except.pure]

theorem exists_pattern_of_touch {state after : UInt64} {way : Nat}
    (htouch : e.touch state way = .ok after) :
    ∃ p, e.patterns[way]? = some p ∧ after = p.touch state := by
  cases hp : e.patterns[way]? with
  | none =>
      simp [touch, pattern, OutOfRange.lookup, hp, bind, Except.bind] at htouch
  | some p =>
      rw [touch_of_getElem?_patterns hp] at htouch
      exact ⟨p, rfl, by simpa using htouch.symm⟩

theorem way_lt_of_touch {state after : UInt64} {way : Nat}
    (htouch : e.touch state way = .ok after) : way < e.ways := by
  obtain ⟨p, hp, _⟩ := exists_pattern_of_touch htouch
  exact way_lt_of_getElem?_patterns hp

/-! ## References -/

/-- A reference turns the bits above the way away from it and keeps the
others. -/
theorem testBit_bitOver_touch {state after : UInt64} {way other height : Nat}
    (htouch : e.touch state way = .ok after) (hother : other < e.ways)
    (hheight : height < e.levels) :
    Word.testBit after (e.bitOver other height) =
      if way / 2 ^ (height + 1) = other / 2 ^ (height + 1) then !way.testBit height
      else Word.testBit state (e.bitOver other height) := by
  obtain ⟨p, hp, rfl⟩ := exists_pattern_of_touch htouch
  have hway := way_lt_of_getElem?_patterns hp
  rw [PathPattern.testBit_touch]
  by_cases hnode : way / 2 ^ (height + 1) = other / 2 ^ (height + 1)
  · have hbit : e.bitOver way height = e.bitOver other height :=
      (e.bitOver_eq_iff hway hother hheight hheight).mpr ⟨rfl, hnode⟩
    have hpath : Word.testBit p.path (e.bitOver way height) = true :=
      (testBit_path_iff hp _).mpr ⟨height, hheight, rfl⟩
    rw [if_pos hnode, ← hbit, if_pos hpath, testBit_toward_bitOver hp hheight]
  · have hpath : ¬ Word.testBit p.path (e.bitOver other height) = true := by
      rw [testBit_path_iff hp]
      rintro ⟨height', hheight', heq⟩
      obtain ⟨rfl, hsame⟩ := (e.bitOver_eq_iff hother hway hheight hheight').mp heq
      exact hnode hsame.symm
    rw [if_neg hnode, if_neg hpath]

theorem testBit_touch_of_le {state after : UInt64} {way i : Nat}
    (htouch : e.touch state way = .ok after) (hi : e.ways - 1 ≤ i) :
    Word.testBit after i = Word.testBit state i := by
  obtain ⟨p, hp, rfl⟩ := exists_pattern_of_touch htouch
  have hpath : ¬ Word.testBit p.path i = true := by
    rw [testBit_path_iff hp]
    rintro ⟨height, hheight, rfl⟩
    have := e.bitOver_lt (way_lt_of_getElem?_patterns hp) hheight
    omega
  rw [PathPattern.testBit_touch, if_neg hpath]

/-! ## Victims -/

theorem countP_leads (e : Encoding) (state : UInt64) :
    e.patterns.countP (·.leads state) = 1 := by
  rw [e.patterns_eq]
  apply PathPattern.countP_leads_below
  · rw [Nat.one_shiftLeft, ← ways_eq_two_pow]
    exact e.ways_le
  · rw [Nat.one_shiftLeft]

/-- The search for a victim always finds one. -/
theorem findIdx?_leads (e : Encoding) (state : UInt64) :
    e.patterns.findIdx? (·.leads state) = some (e.victim state) := by
  have hany : ∃ p ∈ e.patterns, p.leads state = true := by
    apply List.countP_pos_iff.mp
    rw [countP_leads]
    exact Nat.one_pos
  obtain ⟨way, hway⟩ := Option.isSome_iff_exists.mp
    (List.findIdx?_isSome.trans (List.any_eq_true.mpr hany))
  rw [victim, hway, Option.getD_some]

theorem exists_victim_pattern (e : Encoding) (state : UInt64) :
    ∃ p, e.patterns[e.victim state]? = some p ∧ p.leads state = true := by
  obtain ⟨hlt, hleads, -⟩ := List.findIdx?_eq_some_iff_getElem.mp (e.findIdx?_leads state)
  exact ⟨_, List.getElem?_eq_getElem hlt, hleads⟩

theorem victim_lt (e : Encoding) (state : UInt64) : e.victim state < e.ways := by
  obtain ⟨p, hp, _⟩ := e.exists_victim_pattern state
  exact way_lt_of_getElem?_patterns hp

theorem fill_victim (e : Encoding) (state : UInt64) :
    e.fill state (e.victim state) = e.touch state (e.victim state) := by
  obtain ⟨p, hp, hleads⟩ := e.exists_victim_pattern state
  rw [fill_of_getElem?_patterns hp, touch_of_getElem?_patterns hp,
    PathPattern.fill_eq_touch_of_leads hleads]

theorem testBit_bitOver_victim (e : Encoding) (state : UInt64) {height : Nat}
    (hheight : height < e.levels) :
    Word.testBit state (e.bitOver (e.victim state) height) =
      (e.victim state).testBit height := by
  obtain ⟨p, hp, hleads⟩ := e.exists_victim_pattern state
  have hpath : Word.testBit p.path (e.bitOver (e.victim state) height) = true :=
    (testBit_path_iff hp _).mpr ⟨height, hheight, rfl⟩
  have hbit := (p.leads_iff state).mp hleads (e.bitOver (e.victim state) height)
  rwa [hpath, Bool.and_true, testBit_toward_bitOver hp hheight] at hbit

end PseudoLru.Encoding
