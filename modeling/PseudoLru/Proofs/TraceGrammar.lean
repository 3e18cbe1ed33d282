import Mathlib.Data.List.DropRight
import PseudoLru.Proofs.Numerals
import PseudoLru.Trace

/-!
# The grammar of a trace line

A line says what stands in front of its first number sign, without the white
space around it.  Unless that is empty it must be, without its underscores, a
numeral: decimal digits, or hexadecimal ones behind `0x` or `0X`, with at most
one plus sign in front of the digits.  The address is the value of the numeral
if it is a word.
-/

namespace PseudoLru

namespace Text

/-! ## White space -/

theorem trimRight_append {text after : List Char} (hafter : ∀ c ∈ after, isBlank c = true)
    (hlast : ∀ htext : text ≠ [], isBlank (text.getLast htext) = false) :
    trimRight (text ++ after) = text := by
  have hreverse : ∀ c ∈ after.reverse, isBlank c = true := by
    intro c hc
    exact hafter c (List.mem_reverse.mp hc)
  have hkept : text.rdropWhile isBlank = text := by
    rw [List.rdropWhile_eq_self_iff]
    intro htext
    rw [hlast htext]
    exact Bool.false_ne_true
  rw [trimRight, List.reverse_append, List.dropWhile_append_of_pos hreverse]
  exact hkept

theorem trim_append {before text after : List Char} (hbefore : ∀ c ∈ before, isBlank c = true)
    (hafter : ∀ c ∈ after, isBlank c = true)
    (hfirst : ∀ htext : text ≠ [], isBlank (text.head htext) = false)
    (hlast : ∀ htext : text ≠ [], isBlank (text.getLast htext) = false) :
    trim (before ++ text ++ after) = text := by
  rw [trim, trimLeft, List.append_assoc, List.dropWhile_append_of_pos hbefore]
  cases text with
  | nil =>
      have hnone : after.dropWhile isBlank = [] := List.dropWhile_eq_nil_iff.mpr hafter
      rw [List.nil_append, hnone]
      rfl
  | cons first rest =>
      have hstart : ¬ isBlank first = true := by
        rw [Bool.not_eq_true]
        exact hfirst (List.cons_ne_nil first rest)
      rw [List.cons_append, List.dropWhile_cons_of_neg hstart, ← List.cons_append,
        trimRight_append hafter hlast]

theorem exists_trim (text : List Char) :
    ∃ before after, text = before ++ trim text ++ after ∧
      (∀ c ∈ before, isBlank c = true) ∧ (∀ c ∈ after, isBlank c = true) ∧
      (∀ htrim : trim text ≠ [], isBlank ((trim text).head htrim) = false) ∧
      ∀ htrim : trim text ≠ [], isBlank ((trim text).getLast htrim) = false := by
  have htext : text.takeWhile isBlank ++ trimLeft text = text :=
    List.takeWhile_append_dropWhile
  have hleft : trim text ++ (trimLeft text).rtakeWhile isBlank = trimLeft text :=
    List.rdropWhile_append_rtakeWhile
  refine ⟨text.takeWhile isBlank, (trimLeft text).rtakeWhile isBlank, ?_, ?_, ?_, ?_, ?_⟩
  · rw [List.append_assoc, hleft, htext]
  · intro c hc
    exact List.mem_takeWhile_imp hc
  · intro c hc
    exact List.mem_rtakeWhile_imp hc
  · intro htrim
    have hpart : trim text <+: trimLeft text := List.rdropWhile_prefix isBlank _
    rw [hpart.head htrim]
    exact List.head_dropWhile_not isBlank _
  · intro htrim
    exact eq_false_of_ne_true (List.rdropWhile_last_not isBlank (trimLeft text) htrim)

end Text

namespace Trace

/-! ## Lines -/

/-- What a line says, with white space around it and a comment behind. -/
structure Splits (line before said after comment : List Char) : Prop where
  line_eq : line = before ++ said ++ after ++ comment
  unmarked : '#' ∉ before ++ said ++ after
  comment_start : comment = [] ∨ comment.head? = some '#'
  blank_before : ∀ c ∈ before, Text.isBlank c = true
  blank_after : ∀ c ∈ after, Text.isBlank c = true
  first : ∀ hsaid : said ≠ [], Text.isBlank (said.head hsaid) = false
  last : ∀ hsaid : said ≠ [], Text.isBlank (said.getLast hsaid) = false

def Says (line said : List Char) : Prop :=
  ∃ before after comment, Splits line before said after comment

theorem Splits.statement_eq {line before said after comment : List Char}
    (hsplits : Splits line before said after comment) : statement line = said := by
  have hfront : ∀ c ∈ before ++ said ++ after, decide (c ≠ '#') = true := by
    intro c hc
    apply decide_eq_true
    rintro rfl
    exact hsplits.unmarked hc
  have hcomment : comment.takeWhile (· ≠ '#') = [] := by
    rcases hsplits.comment_start with rfl | hmark
    · rfl
    · rw [← List.cons_head?_tail hmark]
      rfl
  rw [statement, hsplits.line_eq, List.takeWhile_append_of_pos hfront, hcomment, List.append_nil]
  exact Text.trim_append hsplits.blank_before hsplits.blank_after hsplits.first hsplits.last

theorem says_iff (line said : List Char) : Says line said ↔ said = statement line := by
  constructor
  · rintro ⟨before, after, comment, hsplits⟩
    exact hsplits.statement_eq.symm
  · rintro rfl
    obtain ⟨before, after, hfront, hbefore, hafter, hfirst, hlast⟩ :=
      Text.exists_trim (line.takeWhile (· ≠ '#'))
    refine ⟨before, after, line.dropWhile (· ≠ '#'), ?_, ?_, ?_, hbefore, hafter, hfirst, hlast⟩
    · rw [statement, ← hfront, List.takeWhile_append_dropWhile]
    · rw [statement, ← hfront]
      intro hmark
      simpa using List.mem_takeWhile_imp hmark
    · have hstart := List.head?_dropWhile_not (· ≠ '#') line
      cases hrest : line.dropWhile (· ≠ '#') with
      | nil => exact Or.inl rfl
      | cons c rest =>
          rw [hrest] at hstart
          right
          simpa using hstart

/-! ## Addresses -/

/-- The spellings of a value, without underscores. -/
inductive Spells : List Char → Nat → Prop
  | hexadecimal {mark : Char} {text : List Char} {value : Nat} (hmark : mark = 'x' ∨ mark = 'X')
      (hnumeral : Text.IsNumeral 16 text value) : Spells ('0' :: mark :: text) value
  | decimal {text : List Char} {value : Nat} (hnumeral : Text.IsNumeral 10 text value) :
      Spells text value

/-- The mark of a hexadecimal numeral is no decimal digit. -/
theorem not_isNumeral_of_mark {mark : Char} (hmark : mark = 'x' ∨ mark = 'X') (text : List Char)
    (value : Nat) : ¬ Text.IsNumeral 10 ('0' :: mark :: text) value := by
  rintro ⟨sign, digits, htext, rfl | rfl, -, values, hvalues, -⟩
  · rw [← htext.trans (List.nil_append digits)] at hvalues
    cases hvalues with
    | cons _ hrest =>
        cases hrest with
        | cons hdigit _ =>
            rw [← Text.digit?_eq_some_iff (by decide)] at hdigit
            rcases hmark with rfl | rfl <;> contradiction
  · simp at htext

theorem address?_eq_some_iff (text : List Char) (address : UInt64) :
    address? text = some address ↔ Spells (text.filter (· ≠ '_')) address.toNat := by
  unfold address?
  generalize text.filter (· ≠ '_') = plain
  dsimp only
  split
  case h_1 digits =>
    rw [Text.wordNumeral?_map_eq_some_iff (by decide)]
    constructor
    · exact .hexadecimal (Or.inl rfl)
    · intro hspells
      cases hspells with
      | hexadecimal _ hnumeral => exact hnumeral
      | decimal hnumeral => exact absurd hnumeral (not_isNumeral_of_mark (Or.inl rfl) _ _)
  case h_2 digits =>
    rw [Text.wordNumeral?_map_eq_some_iff (by decide)]
    constructor
    · exact .hexadecimal (Or.inr rfl)
    · intro hspells
      cases hspells with
      | hexadecimal _ hnumeral => exact hnumeral
      | decimal hnumeral => exact absurd hnumeral (not_isNumeral_of_mark (Or.inr rfl) _ _)
  case h_3 hlower hupper =>
    rw [Text.wordNumeral?_map_eq_some_iff (by decide)]
    constructor
    · exact .decimal
    · intro hspells
      cases hspells with
      | hexadecimal hmark hnumeral =>
          rcases hmark with rfl | rfl
          · exact absurd rfl (hlower _)
          · exact absurd rfl (hupper _)
      | decimal hnumeral => exact hnumeral

theorem address?_eq_none_iff (text : List Char) :
    address? text = none ↔ ∀ value < 2 ^ 64, ¬ Spells (text.filter (· ≠ '_')) value := by
  rw [Option.eq_none_iff_forall_ne_some]
  constructor
  · intro hnone value hvalue hspells
    apply hnone (UInt64.ofNat value)
    rwa [address?_eq_some_iff, UInt64.toNat_ofNat_of_lt' hvalue]
  · intro hnone address haddress
    exact hnone address.toNat address.toNat_lt ((address?_eq_some_iff text address).mp haddress)

/-- Every line says one thing.  It has no address exactly if it says nothing,
and an address exactly if it says, without underscores, a spelling of it.
Anything else is an error with the number of the line and with what it says,
underscores included. -/
theorem parsed_by_grammar (line : String) (number : Nat) :
    ∃ said, (∀ other, Says line.toList other ↔ other = said) ∧
      (parseLine line number = .ok none ↔ said = []) ∧
      (∀ address, parseLine line number = .ok (some address) ↔
        Spells (said.filter (· ≠ '_')) address.toNat) ∧
      ∀ error, parseLine line number = .error error ↔
        said ≠ [] ∧ (∀ value < 2 ^ 64, ¬ Spells (said.filter (· ≠ '_')) value) ∧
          error = .malformed number (String.ofList said) := by
  refine ⟨statement line.toList, says_iff line.toList, ?_⟩
  simp only [← address?_eq_some_iff, ← address?_eq_none_iff, parseLine]
  generalize statement line.toList = said
  cases said with
  | nil =>
      have hnone : address? [] = none := rfl
      simp [hnone]
  | cons c rest =>
      cases address? (c :: rest) <;> simp [eq_comm]

/-- The sign stands behind the mark, which an underscore may split. -/
example : parseLine "0_x+fF # last" 3 = .ok (some 255) := by rfl

end Trace

end PseudoLru
