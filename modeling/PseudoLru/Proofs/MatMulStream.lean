import Mathlib.Tactic
import PseudoLru.MatMul
import PseudoLru.Proofs.ArithmeticInRange

/-!
# References by position

All elements of the result take equally many references, and so do all steps of
an inner product.  So the position of a reference is a number of four digits:
the row and the column of the element, the step, and the place in it.  What is
referred to follows from these digits alone.

Matrices of at most `2 ^ 32` rows have fewer than `2 ^ 64` elements before any
of them, so only the addresses wrap around, as they should.
-/

namespace PseudoLru

theorem exists_flatMap_range_eq {α : Type} {f : Nat → List α} {width : Nat}
    (hwidth : ∀ k, (f k).length = width) {k n : Nat} (hk : k < n) :
    ∃ rest, (List.range n).flatMap f = (List.range k).flatMap f ++ f k ++ rest ∧
      ((List.range k).flatMap f).length = k * width := by
  obtain ⟨more, rfl⟩ := Nat.exists_eq_add_of_lt hk
  refine ⟨((List.range more).map (k + 1 + ·)).flatMap f, ?_, ?_⟩
  · rw [show k + more + 1 = k + 1 + more by omega, List.range_add, List.range_succ]
    simp
  · simp [List.length_flatMap, hwidth]

/-- In parts of one width, a position is the number of a part and a position
in it. -/
theorem getElem?_flatMap_range {α : Type} {f : Nat → List α} {width : Nat}
    (hwidth : ∀ k, (f k).length = width) {k n r : Nat} (hk : k < n) (hr : r < width) :
    ((List.range n).flatMap f)[k * width + r]? = (f k)[r]? := by
  obtain ⟨rest, hparts, hlength⟩ := exists_flatMap_range_eq hwidth hk
  have hbehind : ((List.range k).flatMap f).length ≤ k * width + r := by
    rw [hlength]
    exact Nat.le_add_right _ _
  have hwithin : r < (f k).length := by rwa [hwidth]
  rw [hparts, List.append_assoc, List.getElem?_append_right hbehind, hlength,
    Nat.add_sub_cancel_left, List.getElem?_append_left hwithin]

theorem filterMap_range_getElem? {α : Type} (l : List α) (count : Nat) :
    (List.range count).filterMap (l[·]?) = l.take count := by
  induction count with
  | zero => simp
  | succ count ih =>
      rw [List.range_succ, List.filterMap_append, ih, List.take_add_one]
      cases hlast : l[count]? <;> simp [hlast]

theorem mapM_eq_some_map {α β : Type} {f : α → Option β} {g : α → β} {l : List α}
    (h : ∀ a ∈ l, f a = some (g a)) : l.mapM f = some (l.map g) := by
  induction l with
  | nil => rfl
  | cons a rest ih =>
      have hrest := ih fun b hb => h b (List.mem_cons_of_mem a hb)
      rw [List.mapM_cons, h a List.mem_cons_self, hrest]
      rfl

namespace MatMul

variable (m : MatMul) {i j x q r position : Nat}

/-! ## Positions -/

theorem getElem?_addresses (hi : i < m.size) (hj : j < m.size) (hr : r < m.elementLength) :
    m.addresses[(i * m.size + j) * m.elementLength + r]? = (m.elementAddresses i j)[r]? := by
  have hrow : ∀ i, ((List.range m.size).flatMap fun j => m.elementAddresses i j).length =
      m.size * m.elementLength := by
    intro i
    simp [List.length_flatMap]
  have hposition : (i * m.size + j) * m.elementLength + r =
      i * (m.size * m.elementLength) + (j * m.elementLength + r) := by ring
  rw [addresses, hposition, getElem?_flatMap_range hrow hi (mul_add_lt_mul hj hr),
    getElem?_flatMap_range (m.length_elementAddresses i) hj hr]

theorem getElem?_elementAddresses_of_step (i j : Nat) (hx : x < m.size) (hq : q < 4) :
    (m.elementAddresses i j)[1 + 4 * x + q]? = (m.stepAddresses i j x)[q]? := by
  have hposition : 1 + 4 * x + q = x * 4 + q + 1 := by omega
  rw [elementAddresses, hposition, List.getElem?_cons_succ,
    getElem?_flatMap_range (m.length_stepAddresses i j) hx hq]

/-- The row, the column and the reference that a position stands for. -/
theorem split_position (hposition : position < m.length) :
    position / m.elementLength / m.size < m.size ∧ position / m.elementLength % m.size < m.size ∧
      position % m.elementLength < m.elementLength ∧
      (position / m.elementLength / m.size * m.size + position / m.elementLength % m.size) *
          m.elementLength + position % m.elementLength = position := by
  have hsize : 0 < m.size := by
    rcases Nat.eq_zero_or_pos m.size with hzero | hpos
    · simp [length, hzero] at hposition
    · exact hpos
  have hlength : 0 < m.elementLength := Nat.lt_of_lt_of_le Nat.one_pos (Nat.le_add_right _ _)
  refine ⟨?_, Nat.mod_lt _ hsize, Nat.mod_lt _ hlength, ?_⟩
  · apply Nat.div_lt_of_lt_mul
    apply Nat.div_lt_of_lt_mul
    rwa [Nat.mul_comm]
  · rw [Nat.div_add_mod', Nat.div_add_mod']

/-- A reference that is calculated from its position is the one that the
stream has there. -/
theorem addressAt?_eq (position : Nat) : m.addressAt? position = m.addresses[position]? := by
  by_cases hposition : position < m.length
  · obtain ⟨hi, hj, hr, hsplit⟩ := m.split_position hposition
    unfold addressAt?
    rw [if_pos hposition]
    dsimp only
    conv_rhs => rw [← hsplit, m.getElem?_addresses hi hj hr]
    generalize position / m.elementLength / m.size = i
    generalize position / m.elementLength % m.size = j
    generalize position % m.elementLength = r at hr
    cases r with
    | zero => rfl
    | succ inner =>
        have hstep : inner / 4 < m.size := by
          unfold elementLength at hr
          omega
        have hplace : inner % 4 < 4 := Nat.mod_lt _ (by decide)
        have hinner : inner + 1 = 1 + 4 * (inner / 4) + inner % 4 := by omega
        conv_rhs => rw [hinner, m.getElem?_elementAddresses_of_step i j hstep hplace]
        dsimp only
        generalize inner / 4 = x
        generalize inner % 4 = q at hplace
        interval_cases q <;> rfl
  · have hnone := (m.addressAt?_eq_none_iff position).mpr (Nat.le_of_not_lt hposition)
    rw [hnone, List.getElem?_eq_none]
    rw [length_addresses]
    exact Nat.le_of_not_lt hposition

theorem window_eq (start count : Nat) :
    m.window start count = (m.addresses.drop start).take count := by
  have hat : (fun k => m.addressAt? (start + k)) = fun k => (m.addresses.drop start)[k]? := by
    funext k
    rw [m.addressAt?_eq, List.getElem?_drop]
  rw [window, hat, filterMap_range_getElem?, List.take_eq_take_iff, List.length_drop,
    length_addresses]
  omega

/-! ## Addresses as numbers -/

/-- The address of an element: its place in the matrix times the width of an
element, counted from the base and around the end of memory. -/
def elementNumber (base : UInt64) (row column : Nat) : Nat :=
  (base.toNat + (row * m.size + column) * m.elementBytes.toNat) % 2 ^ 64

theorem toNat_element (base : UInt64) (row column : Nat) :
    (m.element base row column).toNat = m.elementNumber base row column := by
  rw [element, UInt64.toNat_add, UInt64.toNat_mul, UInt64.toNat_ofNat', Nat.mod_mul_mod,
    Nat.add_mod_mod, elementNumber]

/-! ## Arithmetic in range -/

def length? : Option Nat := do
  let square ← InRange.product? 64 m.size m.size
  let steps ← InRange.product? 64 4 m.size
  InRange.product? 64 square (← InRange.sum? 64 1 steps)

/-- The address of an element whose place in the matrix must be a word. -/
def element? (base : UInt64) (row column : Nat) : Option UInt64 := do
  let start ← InRange.product? 64 row m.size
  let place ← InRange.sum? 64 start column
  return base + UInt64.ofNat place * m.elementBytes

def stepAddresses? (result : UInt64) (i j x : Nat) : Option (List UInt64) := do
  let left ← m.element? m.leftBase i x
  let right ← m.element? m.rightBase x j
  return [left, right, result, result]

def elementAddresses? (i j : Nat) : Option (List UInt64) := do
  let result ← m.element? m.resultBase i j
  let steps ← (List.range m.size).mapM (m.stepAddresses? result i j)
  return result :: steps.flatten

def addresses? : Option (List UInt64) := do
  let rows ← (List.range m.size).mapM fun i => do
    let elements ← (List.range m.size).mapM (m.elementAddresses? i)
    return elements.flatten
  return rows.flatten

section InRange

variable {m} (hsize : m.size ≤ 2 ^ 32)

include hsize

theorem element?_eq (base : UInt64) (hi : i < m.size) (hj : j < m.size) :
    m.element? base i j = some (m.element base i j) := by
  have hplace : i * m.size + j < 2 ^ 64 :=
    calc
      i * m.size + j < m.size * m.size := mul_add_lt_mul hi hj
      _ ≤ 2 ^ 32 * 2 ^ 32 := Nat.mul_le_mul hsize hsize
      _ = 2 ^ 64 := by decide
  have hstart : i * m.size < 2 ^ 64 := (Nat.le_add_right _ _).trans_lt hplace
  simp only [element?, InRange.product?_of_lt hstart, InRange.sum?_of_lt hplace,
    Option.bind_eq_bind, Option.bind_some]
  rfl

theorem elementAddresses?_eq (hi : i < m.size) (hj : j < m.size) :
    m.elementAddresses? i j = some (m.elementAddresses i j) := by
  have hsteps : (List.range m.size).mapM
      (m.stepAddresses? (m.element m.resultBase i j) i j) =
        some ((List.range m.size).map (m.stepAddresses i j)) := by
    apply mapM_eq_some_map
    intro x hx
    rw [List.mem_range] at hx
    simp only [stepAddresses?, element?_eq hsize _ hi hx, element?_eq hsize _ hx hj,
      Option.bind_eq_bind, Option.bind_some]
    rfl
  simp only [elementAddresses?, element?_eq hsize _ hi hj, hsteps, Option.bind_eq_bind,
    Option.bind_some]
  rfl

theorem addresses?_eq : m.addresses? = some m.addresses := by
  have hrows : ((List.range m.size).mapM fun i => do
      let elements ← (List.range m.size).mapM (m.elementAddresses? i)
      return elements.flatten) =
        some ((List.range m.size).map fun i =>
          (List.range m.size).flatMap (m.elementAddresses i)) := by
    apply mapM_eq_some_map
    intro i hi
    rw [List.mem_range] at hi
    have hrow : (List.range m.size).mapM (m.elementAddresses? i) =
        some ((List.range m.size).map (m.elementAddresses i)) := by
      apply mapM_eq_some_map
      intro j hj
      exact elementAddresses?_eq hsize hi (List.mem_range.mp hj)
    rw [hrow]
    rfl
  rw [addresses?, hrows]
  rfl

theorem length?_of_lt (hlength : m.length < 2 ^ 64) : m.length? = some m.length := by
  have hcell : m.elementLength < 2 ^ 64 := by
    unfold elementLength
    omega
  have hsteps : 4 * m.size < 2 ^ 64 := (Nat.le_add_left _ _).trans_lt hcell
  have hsquare : m.size * m.size < 2 ^ 64 :=
    (Nat.le_mul_of_pos_right _ (Nat.lt_of_lt_of_le Nat.one_pos (Nat.le_add_right _ _))).trans_lt
      hlength
  simp only [length?, InRange.product?_of_lt hsquare, InRange.product?_of_lt hsteps,
    InRange.sum?_of_lt hcell, Option.bind_eq_bind, Option.bind_some]
  exact InRange.product?_of_lt hlength

end InRange

/-- The stream of matrices of at most `2 ^ 32` rows has the length of the
formula.  Every position is a reference of one element, and what stands there
is the element itself or, in one of its steps, the two factors and twice the
element.  Nothing but the addresses wraps around, and the length is calculated
without loss if it is a word. -/
theorem stream_by_position (m : MatMul) (hsize : m.size ≤ 2 ^ 32) :
    m.addresses? = some m.addresses ∧
      m.addresses.length = m.size ^ 2 * (1 + 4 * m.size) ∧
      (m.size ^ 2 * (1 + 4 * m.size) < 2 ^ 64 → m.length? = some m.addresses.length) ∧
      (∀ start count, m.window start count = (m.addresses.drop start).take count) ∧
      (∀ k < m.size ^ 2 * (1 + 4 * m.size), ∃ i j r, i < m.size ∧ j < m.size ∧
        r < 1 + 4 * m.size ∧ k = (i * m.size + j) * (1 + 4 * m.size) + r) ∧
      ∀ i j r, i < m.size → j < m.size → r < 1 + 4 * m.size →
        ∃ address, m.addresses[(i * m.size + j) * (1 + 4 * m.size) + r]? = some address ∧
          (r = 0 → address.toNat = m.elementNumber m.resultBase i j) ∧
          ∀ x q, q < 4 → r = 1 + 4 * x + q →
            (q = 0 → address.toNat = m.elementNumber m.leftBase i x) ∧
            (q = 1 → address.toNat = m.elementNumber m.rightBase x j) ∧
            (q = 2 ∨ q = 3 → address.toNat = m.elementNumber m.resultBase i j) := by
  have hlength : m.length = m.size ^ 2 * (1 + 4 * m.size) := by
    rw [length, elementLength, Nat.pow_two]
  refine ⟨addresses?_eq hsize, ?_, ?_, m.window_eq, ?_, ?_⟩
  · rw [length_addresses, hlength]
  · intro hfits
    rw [length_addresses]
    exact length?_of_lt hsize (hlength ▸ hfits)
  · intro k hk
    obtain ⟨hi, hj, hr, hsplit⟩ := m.split_position (hlength ▸ hk)
    exact ⟨_, _, _, hi, hj, hr, hsplit.symm⟩
  · intro i j r hi hj hr
    have hreference := m.getElem?_addresses hi hj hr
    have hlt : r < (m.elementAddresses i j).length := by rwa [length_elementAddresses]
    refine ⟨_, hreference.trans (List.getElem?_eq_getElem hlt), ?_, ?_⟩
    · rintro rfl
      exact m.toNat_element m.resultBase i j
    · rintro x q hq rfl
      have hx : x < m.size := by omega
      have hstep := m.getElem?_elementAddresses_of_step i j hx hq
      rw [List.getElem?_eq_getElem hlt] at hstep
      refine ⟨?_, ?_, ?_⟩
      · rintro rfl
        rw [Option.some.inj hstep, toNat_element]
      · rintro rfl
        rw [Option.some.inj hstep, toNat_element]
      · rintro (rfl | rfl) <;> rw [Option.some.inj hstep, toNat_element]

/-- The second element of a result that begins four bytes before the end of
memory has the address zero. -/
theorem second_element_wraps_around :
    let m : MatMul := ⟨2, 4, 0x1000, 0x2000, 0xFFFFFFFFFFFFFFFC⟩
    m.size ≤ 2 ^ 32 ∧ ∃ address, m.addresses[9]? = some address ∧ address.toNat = 0 := by
  intro m
  have hsize : m.size ≤ 2 ^ 32 := by decide
  have hwraps : m.elementNumber m.resultBase 0 1 = 0 := by decide
  obtain ⟨-, -, -, -, -, hposition⟩ := stream_by_position m hsize
  obtain ⟨address, haddress, helement, -⟩ := hposition 0 1 0 (by decide) (by decide) (by decide)
  exact ⟨hsize, address, haddress, (helement rfl).trans hwraps⟩

end MatMul

end PseudoLru
