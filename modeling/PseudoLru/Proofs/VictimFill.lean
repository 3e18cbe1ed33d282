import PseudoLru.Proofs.MissRotation

/-!
# Fills of ways that are no victims

Filling a way flips the bits on its path, a reference sets each of them away
from the way.  The two agree on a path exactly when all its bits point toward
the way, and in every state there is one such path, that of the victim.  So
filling any other way leaves bits that point back at it.
-/

namespace PseudoLru

namespace PathPattern

variable {p : PathPattern} {state : UInt64}

/-- A bit that is flipped to where a reference sets it pointed toward the
way. -/
theorem leads_of_fill_eq_touch
    (hpath : ∀ i, Word.testBit p.toward i = true → Word.testBit p.path i = true)
    (heq : p.fill state = p.touch state) : p.leads state = true := by
  rw [leads_iff]
  intro i
  have hbit : Word.testBit (p.fill state) i = Word.testBit (p.touch state) i := by
    rw [heq]
  rw [testBit_fill, testBit_touch] at hbit
  by_cases hmarked : Word.testBit p.path i = true
  · rw [hmarked, if_pos rfl, Bool.xor_true, Bool.not_inj_iff] at hbit
    rw [hmarked, Bool.and_true, hbit]
  · have hclear : Word.testBit p.toward i = false := by
      rw [← Bool.not_eq_true]
      exact mt (hpath i) hmarked
    rw [hclear, eq_false_of_ne_true hmarked, Bool.and_false]

theorem and_not_path_fill (p : PathPattern) (state : UInt64) :
    p.fill state &&& ~~~p.path = state &&& ~~~p.path := by
  apply Word.eq_of_testBit_eq
  intro i
  rw [Word.testBit_and_not, Word.testBit_and_not, testBit_fill]
  cases Word.testBit p.path i <;> simp

theorem and_not_path_touch (p : PathPattern) (state : UInt64) :
    p.touch state &&& ~~~p.path = state &&& ~~~p.path := by
  apply Word.eq_of_testBit_eq
  intro i
  rw [Word.testBit_and_not, Word.testBit_and_not, testBit_touch]
  cases Word.testBit p.path i <;> simp

theorem touch_touch (p : PathPattern) (state : UInt64) :
    p.touch (p.touch state) = p.touch state := by
  apply Word.eq_of_testBit_eq
  intro i
  rw [testBit_touch, testBit_touch]
  split <;> rfl

end PathPattern

namespace Encoding

variable {e : Encoding} {state : UInt64} {way : Nat} {p : PathPattern}

theorem turn_of_leads (hp : e.patterns[way]? = some p) (hleads : p.leads state = true) :
    e.Turn state 0 way where
  way_lt := way_lt_of_getElem?_patterns hp
  testBit_eq := by
    intro height hheight
    have hpath : Word.testBit p.path (e.bitOver way height) = true :=
      (testBit_path_iff hp _).mpr ⟨height, hheight, rfl⟩
    have hbit := (p.leads_iff state).mp hleads (e.bitOver way height)
    rw [hpath, Bool.and_true, testBit_toward_bitOver hp hheight] at hbit
    rw [hbit, Nat.zero_testBit, Bool.xor_false]

theorem leads_iff_eq_victim (hp : e.patterns[way]? = some p) :
    p.leads state = true ↔ way = e.victim state := by
  constructor
  · intro hleads
    exact ((turn_of_leads hp hleads).eq_iff (e.turn_victim state)).mpr rfl
  · rintro rfl
    obtain ⟨q, hq, hleads⟩ := e.exists_victim_pattern state
    rw [hp] at hq
    obtain rfl := Option.some.inj hq
    exact hleads

/-- Filling a way leaves the state of a reference to it exactly if the way is
the victim.  Both keep all bits outside the path of the way, and a second
reference to it changes nothing. -/
theorem fill_eq_touch_only_for_victim (e : Encoding) (state : UInt64) {way : Nat}
    (hway : way < e.ways) :
    ∃ p filled touched, e.pattern way = .ok p ∧
      e.fill state way = .ok filled ∧ e.touch state way = .ok touched ∧
      (filled = touched ↔ way = e.victim state) ∧
      filled &&& ~~~p.path = state &&& ~~~p.path ∧
      touched &&& ~~~p.path = state &&& ~~~p.path ∧
      e.touch touched way = .ok touched := by
  obtain ⟨p, hp⟩ := exists_getElem?_patterns hway
  have hpattern : e.pattern way = .ok p := by
    rw [pattern, OutOfRange.lookup, hp]
  refine ⟨p, p.fill state, p.touch state, hpattern, fill_of_getElem?_patterns hp state,
    touch_of_getElem?_patterns hp state, ?_, p.and_not_path_fill state,
    p.and_not_path_touch state, ?_⟩
  · rw [← leads_iff_eq_victim hp]
    constructor
    · apply PathPattern.leads_of_fill_eq_touch
      intro i htoward
      exact (marks_of_getElem?_patterns hp).path_of_toward htoward
    · exact PathPattern.fill_eq_touch_of_leads
  · rw [touch_of_getElem?_patterns hp, p.touch_touch]

/-- In the state zero of four ways the victim is the first way.  A fill of the
second one also flips the bit of the node below the root, which pointed away
from it. -/
theorem second_of_four_misfilled :
    1 < (ofLevels 2 (by decide)).ways ∧
      ∃ filled touched, (ofLevels 2 (by decide)).fill 0 1 = .ok filled ∧
        (ofLevels 2 (by decide)).touch 0 1 = .ok touched ∧ filled ≠ touched ∧
        (ofLevels 2 (by decide)).touch touched 1 = .ok touched := by
  have hway : 1 < (ofLevels 2 (by decide)).ways := by decide
  have hvictim : ¬ 1 = (ofLevels 2 (by decide)).victim 0 := by decide
  obtain ⟨p, filled, touched, -, hfill, htouch, hiff, -, -, htwice⟩ :=
    fill_eq_touch_only_for_victim (ofLevels 2 (by decide)) 0 hway
  exact ⟨hway, filled, touched, hfill, htouch, mt hiff.mp hvictim, htwice⟩

end Encoding

end PseudoLru
