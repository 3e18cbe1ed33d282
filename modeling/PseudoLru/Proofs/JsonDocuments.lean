import PseudoLru.Proofs.JsonRecords

/-!
# Whole texts

A document is one value with white space around it.  A document that is a record
ends with a bracket or brace: a cut that leaves this mark loses only white space,
and any other cut goes through the record or the white space in front of it.
-/

namespace PseudoLru.Json

/-- A text that is one value, with white space around it. -/
def Spells (text : List Char) (v : Value) : Prop :=
  ∃ before spelled after, Blank before ∧ v.Spelled spelled ∧ Blank after ∧
    text = before ++ (spelled ++ after)

theorem document_eq_ok_iff {α : Type} {read : Reader α} {meaning? : Value → Option α}
    (h : Reads read meaning?) {text : List Char} {a : α} :
    document read text = .ok a ↔ ∃ v, Spells text v ∧ meaning? v = some a := by
  constructor
  · intro hdocument
    rcases bind_eq_ok_iff.1 hdocument with ⟨⟨a, after⟩, hread, hend⟩
    rcases h.sound hread with ⟨before, v, spelled, hbefore, hv, hmeaning, rfl⟩
    dsimp only at hend
    split_ifs at hend with hafter
    cases hend
    have hblank := skipBlank_eq_nil_iff.1 (List.isEmpty_iff.1 hafter)
    exact ⟨v, ⟨before, spelled, after, hbefore, hv, hblank, rfl⟩, hmeaning⟩
  · rintro ⟨v, ⟨before, spelled, after, hbefore, hv, hafter, rfl⟩, hmeaning⟩
    rw [document, h.append hbefore, h.complete hv hmeaning (.of_blank hafter)]
    simp only [bind, Except.bind, skipBlank_eq_nil_iff.2 hafter]
    rfl

theorem document_of_error {α : Type} {read : Reader α} {text : List Char} {flaw : Flaw}
    (h : read text = .error flaw) : document read text = .error flaw := by
  rw [document, h]
  rfl

/-! ### Where a record ends -/

/-- The text ends with a character that is no white space. -/
def EndsInMark (text : List Char) : Prop :=
  ∃ inside c, isBlank c = false ∧ text = inside ++ [c]

theorem EndsInMark.append {text : List Char} (h : EndsInMark text) (before : List Char) :
    EndsInMark (before ++ text) := by
  rcases h with ⟨inside, c, hc, rfl⟩
  exact ⟨before ++ inside, c, hc, (List.append_assoc ..).symm⟩

theorem EndsInMark.not_blank {front back : List Char} (h : EndsInMark (front ++ back))
    (hback : back ≠ []) : ¬Blank back := by
  intro hblank
  rcases h with ⟨inside, c, hc, htext⟩
  have hlast : back.getLast? = some c := by
    have happend := congrArg List.getLast? htext
    rwa [List.getLast?_append_of_ne_nil _ hback, List.getLast?_concat] at happend
  rw [hblank c (List.mem_of_getLast? hlast)] at hc
  cases hc

theorem endsInMark_mark {c : Char} (hc : isBlank c = false) : EndsInMark [c] := ⟨[], c, hc, rfl⟩

theorem ElementsSpelled.endsInMark {vs : List Value} {text : List Char}
    (h : ElementsSpelled vs text) : EndsInMark text := by
  induction vs generalizing text with
  | nil => cases h
  | cons v vs ih =>
      cases h with
      | last => exact (((endsInMark_mark rfl).append _).append _).append _
      | cons _ _ _ hmore =>
          exact ((((ih hmore).append [',']).append _).append _).append _

theorem MembersSpelled.endsInMark {ms : List (List StringItem × Value)} {text : List Char}
    (h : MembersSpelled ms text) : EndsInMark text := by
  induction ms generalizing text with
  | nil => cases h
  | cons m ms ih =>
      cases h with
      | last => exact ((((endsInMark_mark rfl).append _).append _).append _).append _
      | cons _ _ _ _ hmore =>
          exact (((((ih hmore).append [',']).append _).append _).append _).append _

section

variable {ρ : Type} {fields : List (Field ρ)} {meanings : List (FieldMeaning ρ)}
  {default result : ρ}

theorem Value.Spelled.endsInMark_of_record {v : Value} {text : List Char} (h : v.Spelled text)
    (hmeaning : recordMeaning? meanings default v = some result) : EndsInMark text := by
  cases h with
  | emptyArray => exact ((endsInMark_mark rfl).append _).append ['[']
  | array h => exact h.endsInMark.append ['[']
  | emptyObject => exact ((endsInMark_mark rfl).append _).append ['{']
  | object h => exact h.endsInMark.append ['{']
  | _ => cases hmeaning

/-! ### Cut documents -/

/-- What is cut off a record is either white space or missed. -/
theorem document_record_cut (hfields : FieldsRead fields meanings)
    (hindependent : Independent meanings) {front back : List Char}
    (h : document (record fields default) (front ++ back) = .ok result) (hback : back ≠ []) :
    Blank back ∧ document (record fields default) front = .ok result ∨
      ¬Blank back ∧ ∃ flaw,
        CutShort front back (fun t => document (record fields default) t = .ok result) flaw ∧
          document (record fields default) front = .error flaw := by
  have hreads : Reads (record fields default) (recordMeaning? meanings default) :=
    reads_record hfields hindependent
  rcases (document_eq_ok_iff hreads).1 h with
    ⟨v, ⟨before, spelled, after, hbefore, hv, hafter, htext⟩, hmeaning⟩
  rcases append_eq_append_cases htext with ⟨rest, -, rfl, rfl⟩ | ⟨p, rfl, hp⟩
  · -- within the white space in front
    have hblank := (blank_append_iff.1 hbefore).1
    refine .inr ⟨?_, .unexpectedEnd, .early, document_of_error ?_⟩
    · rcases hv.exists_cons with ⟨c, text, rfl, hc, -⟩
      intro hall
      rw [hall c (by simp)] at hc
      cases hc
    · rw [← List.append_nil front, hreads.append hblank, hreads.nil]
  rcases append_eq_append_cases hp.symm with ⟨rest, hrest, rfl, rfl⟩ | ⟨q, rfl, hq⟩
  · -- within the record
    rcases record_cut hfields hindependent hv hmeaning hrest with ⟨flaw, hshort, hflaw⟩
    refine .inr ⟨?_, flaw, hshort.around before after ?_, document_of_error ?_⟩
    · intro hall
      exact (hv.endsInMark_of_record hmeaning).not_blank hrest (blank_append_iff.1 hall).1
    · rintro t ⟨w, hw, hmeaning⟩
      exact (document_eq_ok_iff hreads).2 ⟨w, ⟨_, _, _, hbefore, hw, hafter, rfl⟩, hmeaning⟩
    · rw [hreads.append hbefore, hflaw]
  · -- behind the record
    rw [hq, blank_append_iff] at hafter
    refine .inl ⟨hafter.2, (document_eq_ok_iff hreads).2 ⟨v, ?_, hmeaning⟩⟩
    exact ⟨before, spelled, q, hbefore, hv, hafter.1, rfl⟩

end

end PseudoLru.Json
