import PseudoLru.Proofs.ConfigText

/-!
# Configuration texts that lack their end

A text is read once from left to right, so the reader of a text that was cut sees
nothing wrong before the cut.  It says that the text is too short, except in a
number that nobody asks for.
-/

namespace PseudoLru.Config

open Json

/-- The cut goes through a number and leaves a part of it that is no number.  The
number stands in a value that is skipped: whatever value stands in its place, the
configuration is the same. -/
def CutsSkippedNumber (front back : String) (c : Config) : Prop :=
  ∃ before token more after : String, front = before ++ token ∧ back = more ++ after ∧
    token ≠ "" ∧ (∃ n : Numeral, n.Spelled (token ++ more).toList) ∧
      (∀ n : Numeral, ¬n.Spelled token.toList) ∧
        ∀ (v : Value) (spelled : String), v.Spelled spelled.toList →
          ofJson (before ++ spelled ++ after) = .ok c

theorem CutsSkippedNumber.of_cutShort {front back : String} {c : Config} {flaw : Flaw}
    (h : CutShort front.toList back.toList
      (fun t => document (record configFields {}) t = .ok c) flaw) :
    flaw = .unexpectedEnd ∨ flaw = .malformed ∧ CutsSkippedNumber front back c := by
  cases h with
  | early => exact .inl rfl
  | inNumber before token more after hfront hback htoken hn hshorter hplace =>
      refine .inr ⟨rfl, .ofList before, .ofList token, .ofList more, .ofList after, ?_⟩
      refine ⟨?_, ?_, ?_, ?_, ?_, ?_⟩
      · rw [← String.ofList_append, ← hfront, String.ofList_toList]
      · rw [← String.ofList_append, ← hback, String.ofList_toList]
      · simpa using htoken
      · exact ⟨_, by simpa using hn⟩
      · simpa using hshorter
      · intro v spelled hv
        rw [ofJson_eq_ok_iff]
        simpa using hplace v _ hv

theorem ofJson_eq_error_of_document {text : String} {flaw : Flaw}
    (h : document (record configFields {}) text.toList = .error flaw) :
    ofJson text = .error (.malformed flaw text) := by
  rw [ofJson, h]
  rfl

/-- Of a text that is accepted, a proper front part is accepted only if white space
is missing, and says the same then.  Otherwise it is refused as too short, or, when
it ends in a number of a value that is skipped, as malformed. -/
theorem truncated_never_misread (front back : String) (c : Config)
    (h : ofJson (front ++ back) = .ok c) (hback : back ≠ "") :
    Blank back.toList ∧ ofJson front = .ok c ∨
      ¬Blank back.toList ∧
        (ofJson front = .error (.malformed .unexpectedEnd front) ∨
          ofJson front = .error (.malformed .malformed front) ∧
            CutsSkippedNumber front back c) := by
  rw [ofJson_eq_ok_iff, String.toList_append] at h
  have hmissing : back.toList ≠ [] := by simpa using hback
  rcases document_record_cut configFields_read independent_configMeanings h hmissing with
    ⟨hblank, hfront⟩ | ⟨hnot, flaw, hshort, hflaw⟩
  · exact .inl ⟨hblank, ofJson_eq_ok_iff.2 hfront⟩
  · have herror := ofJson_eq_error_of_document hflaw
    refine .inr ⟨hnot, ?_⟩
    rcases CutsSkippedNumber.of_cutShort hshort with rfl | ⟨rfl, hcut⟩
    · exact .inl herror
    · exact .inr ⟨herror, hcut⟩

/-- A number of an unknown field, cut behind its sign. -/
theorem cut_behind_sign :
    ofJson ("\x7b\"x\":-" ++ "1\x7d") = .ok {} ∧
      ofJson "\x7b\"x\":-" = .error (.malformed .malformed "\x7b\"x\":-") ∧
        CutsSkippedNumber "\x7b\"x\":-" "1\x7d" {} := by
  have hwhole : ofJson ("\x7b\"x\":-" ++ "1\x7d") = .ok {} := by rfl
  have hfront : ofJson "\x7b\"x\":-" = .error (.malformed .malformed "\x7b\"x\":-") := by
    rfl
  refine ⟨hwhole, hfront, ?_⟩
  rcases truncated_never_misread _ _ _ hwhole (by decide) with ⟨-, hread⟩ | ⟨-, hearly | hlate⟩
  · cases hfront.symm.trans hread
  · cases hfront.symm.trans hearly
  · exact hlate.2

end PseudoLru.Config
