import Mathlib.Data.List.Forall2
import Mathlib.Tactic
import PseudoLru.Text.Numeral

/-!
# Numerals and their values

A numeral has the positional value of its digits.  A reader that goes through
the digits from the left, multiplying and adding, finds this value, and the
digits in which a number is written have the number for their value.
-/

namespace PseudoLru.Text

/-! ## Numerals that are read -/

/-- A digit of either case and its value. -/
def IsDigit (base : Nat) (c : Char) (value : Nat) : Prop :=
  value < base ∧ (c = Nat.digitChar value ∨ c = (Nat.digitChar value).toUpper)

/-- One digit or more and their positional value; the most significant digit
stands first. -/
def HasValue (base : Nat) (digits : List Char) (value : Nat) : Prop :=
  digits ≠ [] ∧ ∃ values, List.Forall₂ (IsDigit base) digits values ∧
    value = Nat.ofDigits base values.reverse

/-- Digits behind at most one plus sign. -/
def IsNumeral (base : Nat) (text : List Char) (value : Nat) : Prop :=
  ∃ sign digits, text = sign ++ digits ∧ (sign = [] ∨ sign = ['+']) ∧ HasValue base digits value

theorem ofNat_eq_digitChar :
    ∀ code < 58, 48 ≤ code → Char.ofNat code = Nat.digitChar (code - 48) := by
  decide

theorem ofNat_eq_digitChar_of_lower :
    ∀ code < 103, 97 ≤ code → Char.ofNat code = Nat.digitChar (code - 97 + 10) := by
  decide

theorem ofNat_eq_digitChar_of_upper :
    ∀ code < 71, 65 ≤ code → Char.ofNat code = (Nat.digitChar (code - 65 + 10)).toUpper := by
  decide

theorem digit?_eq_some_iff {base : Nat} (hbase : base ≤ 16) (c : Char) (value : Nat) :
    digit? base c = some value ↔ IsDigit base c value := by
  constructor
  · intro h
    refine ⟨digit?_lt h, ?_⟩
    simp only [digit?, Option.filter_eq_some_iff] at h
    obtain ⟨hvalue, -⟩ := h
    rw [← Char.ofNat_toNat c]
    split_ifs at hvalue with hdecimal hlower hupper
    · rw [← Option.some.inj hvalue]
      exact Or.inl (ofNat_eq_digitChar _ (Nat.lt_succ_of_le hdecimal.2) hdecimal.1)
    · rw [← Option.some.inj hvalue]
      exact Or.inl (ofNat_eq_digitChar_of_lower _ (Nat.lt_succ_of_le hlower.2) hlower.1)
    · rw [← Option.some.inj hvalue]
      exact Or.inr (ofNat_eq_digitChar_of_upper _ (Nat.lt_succ_of_le hupper.2) hupper.1)
  · rintro ⟨hlt, hc⟩
    have hsixteen : digit? 16 c = some value := by
      have : value < 16 := hlt.trans_le hbase
      interval_cases value <;> rcases hc with rfl | rfl <;> decide
    simp only [digit?, Option.filter_eq_some_iff] at hsixteen ⊢
    exact ⟨hsixteen.1, decide_eq_true hlt⟩

/-- The digits that are still to be read count on from the value of those that
were read. -/
theorem foldlM_digit?_eq_some_iff {base : Nat} (hbase : base ≤ 16) (digits : List Char)
    (start value : Nat) :
    digits.foldlM (fun value c => (digit? base c).map (value * base + ·)) start = some value ↔
      ∃ values, List.Forall₂ (IsDigit base) digits values ∧
        value = start * base ^ digits.length + Nat.ofDigits base values.reverse := by
  induction digits generalizing start with
  | nil => simp [eq_comm]
  | cons c rest ih =>
      have hposition : ∀ first values, List.Forall₂ (IsDigit base) rest values →
          (start * base + first) * base ^ rest.length + Nat.ofDigits base values.reverse =
            start * base ^ (c :: rest).length + Nat.ofDigits base (first :: values).reverse := by
        intro first values hvalues
        rw [List.reverse_cons, Nat.ofDigits_append, Nat.ofDigits_singleton, List.length_reverse,
          ← hvalues.length_eq, List.length_cons, Nat.pow_succ]
        ring
      simp only [List.foldlM_cons, Option.bind_eq_bind, Option.bind_eq_some_iff,
        Option.map_eq_some_iff, digit?_eq_some_iff hbase, ih]
      constructor
      · rintro ⟨_, ⟨first, hc, rfl⟩, values, hvalues, rfl⟩
        exact ⟨first :: values, .cons hc hvalues, hposition first values hvalues⟩
      · rintro ⟨_, hall, rfl⟩
        cases hall with
        | @cons _ first _ values hc hvalues =>
            exact ⟨_, ⟨first, hc, rfl⟩, values, hvalues, (hposition first values hvalues).symm⟩

theorem digits?_eq_some_iff {base : Nat} (hbase : base ≤ 16) (digits : List Char) (value : Nat) :
    (if digits.isEmpty then none else digits? base digits) = some value ↔
      HasValue base digits value := by
  cases digits with
  | nil => simp [HasValue]
  | cons c rest =>
      simp only [List.isEmpty_cons, Bool.false_eq_true, if_false, digits?,
        foldlM_digit?_eq_some_iff hbase, Nat.zero_mul, Nat.zero_add, HasValue, ne_eq,
        reduceCtorEq, not_false_eq_true, true_and]

theorem not_isDigit_plus {base : Nat} (hbase : base ≤ 16) (value : Nat) :
    ¬ IsDigit base '+' value := by
  rw [← digit?_eq_some_iff hbase]
  intro h
  contradiction

theorem numeral?_eq_some_iff {base : Nat} (hbase : base ≤ 16) (text : List Char) (value : Nat) :
    numeral? base text = some value ↔ IsNumeral base text value := by
  unfold numeral?
  split
  case h_1 digits =>
    rw [digits?_eq_some_iff hbase]
    constructor
    · intro hvalue
      exact ⟨['+'], digits, rfl, Or.inr rfl, hvalue⟩
    · rintro ⟨sign, rest, htext, rfl | rfl, hvalue⟩
      · obtain ⟨-, values, hvalues, -⟩ := hvalue
        rw [← htext.trans (List.nil_append rest)] at hvalues
        cases hvalues with
        | cons hplus _ => exact absurd hplus (not_isDigit_plus hbase _)
      · rwa [List.cons_inj_right _ |>.mp htext]
  case h_2 hunsigned =>
    rw [digits?_eq_some_iff hbase]
    constructor
    · intro hvalue
      exact ⟨[], text, rfl, Or.inl rfl, hvalue⟩
    · rintro ⟨sign, rest, htext, rfl | rfl, hvalue⟩
      · rwa [htext]
      · exact absurd htext (hunsigned rest)

theorem not_isNumeral_minus (digits : List Char) (value : Nat) :
    ¬ IsNumeral 10 ('-' :: digits) value := by
  rw [← numeral?_eq_some_iff (by decide)]
  intro hsome
  change digits? 10 ('-' :: digits) = some value at hsome
  rw [digits?, List.foldlM_cons] at hsome
  contradiction

theorem wordNumeral?_eq_some_iff (text : List Char) (value : Nat) :
    wordNumeral? 10 text = some value ↔ IsNumeral 10 text value ∧ value < 2 ^ 64 := by
  rw [wordNumeral?, Option.filter_eq_some_iff, numeral?_eq_some_iff (by decide),
    decide_eq_true_iff]
  rfl

theorem wordNumeral?_map_eq_some_iff {base : Nat} (hbase : base ≤ 16) (text : List Char)
    (word : UInt64) :
    (wordNumeral? base text).map UInt64.ofNat = some word ↔ IsNumeral base text word.toNat := by
  rw [← numeral?_eq_some_iff hbase, Option.map_eq_some_iff]
  constructor
  · rintro ⟨value, hvalue, rfl⟩
    rw [UInt64.toNat_ofNat_of_lt' (wordNumeral?_lt hvalue)]
    exact (Option.filter_eq_some_iff.mp hvalue).1
  · intro hnumeral
    refine ⟨word.toNat, ?_, UInt64.ofNat_toNat⟩
    exact Option.filter_eq_some_iff.mpr ⟨hnumeral, decide_eq_true word.toNat_lt⟩

/-! ## Numerals that are written -/

theorem hasValue_toDigits {base : Nat} (hbase : 1 < base) (hle : base ≤ 16) (n : Nat) :
    HasValue base (Nat.toDigits base n) n := by
  induction n using Nat.strongRecOn with
  | ind n ih =>
      rw [Nat.toDigits_eq_if hbase]
      split
      next hlt => exact ⟨by simp, [n], by simpa [IsDigit] using hlt, by simp⟩
      next hge =>
        have hsmaller : n / base < n := Nat.div_lt_self (by omega) hbase
        obtain ⟨-, values, hvalues, hvalue⟩ := ih _ hsmaller
        have hlast : IsDigit base (n % base).digitChar (n % base) :=
          ⟨Nat.mod_lt _ (by omega), Or.inl rfl⟩
        refine ⟨by simp, values ++ [n % base], List.rel_append hvalues (.cons hlast .nil), ?_⟩
        rw [List.reverse_append, List.reverse_singleton, List.singleton_append, Nat.ofDigits_cons,
          ← hvalue]
        exact (Nat.mod_add_div n base).symm

theorem isSome_digit?_of_mem_toDigits {base : Nat} (hbase : 1 < base) (hle : base ≤ 16) (n : Nat) :
    ∀ c ∈ Nat.toDigits base n, (digit? base c).isSome = true := by
  obtain ⟨-, values, hvalues, -⟩ := hasValue_toDigits hbase hle n
  have hboth : List.Forall₂ (fun c value => (digit? base c).isSome = true ∧ IsDigit base c value)
      (Nat.toDigits base n) values := by
    apply hvalues.imp
    intro c value hc
    exact ⟨Option.isSome_of_eq_some ((digit?_eq_some_iff hle c value).mpr hc), hc⟩
  exact ((List.forall₂_and_left _ _).mp hboth).1

theorem toDigits_injective {base : Nat} (hbase : 1 < base) (hle : base ≤ 16) :
    Function.Injective (Nat.toDigits base) := by
  intro m n heq
  have hm := (digits?_eq_some_iff hle _ _).mpr (hasValue_toDigits hbase hle m)
  have hn := (digits?_eq_some_iff hle _ _).mpr (hasValue_toDigits hbase hle n)
  rw [heq, hn] at hm
  exact (Option.some.inj hm).symm

end PseudoLru.Text
