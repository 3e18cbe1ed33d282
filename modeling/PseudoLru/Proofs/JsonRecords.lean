import PseudoLru.Proofs.JsonMembers

/-!
# Reading records

A record is read as it is meant, from an object or from an array.  A text that
was cut within a record is never read: in front of its closing bracket the
record is not complete, whatever defaults the missing fields have.
-/

namespace PseudoLru.Json

section

variable {ρ : Type} {fields : List (Field ρ)} {meanings : List (FieldMeaning ρ)}

/-! ### Elements -/

/-- The text behind an element of an array. -/
inductive MoreElements : List Value → List Char → Prop
  | close {between : List Char} : Blank between → MoreElements [] (between ++ [']'])
  | comma {vs : List Value} {between text : List Char} :
      Blank between → ElementsSpelled vs text → MoreElements vs (between ++ ',' :: text)

theorem elementsSpelled_iff {vs : List Value} {text : List Char} :
    ElementsSpelled vs text ↔ ∃ v others before spelled tail, vs = v :: others ∧ Blank before ∧
      Value.Spelled v spelled ∧ MoreElements others tail ∧ text = before ++ (spelled ++ tail) := by
  constructor
  · intro h
    cases h with
    | last hbefore hv hafter => exact ⟨_, _, _, _, _, rfl, hbefore, hv, .close hafter, rfl⟩
    | cons hbefore hv hafter hmore =>
        exact ⟨_, _, _, _, _, rfl, hbefore, hv, .comma hafter hmore, rfl⟩
  · rintro ⟨v, others, before, spelled, tail, rfl, hbefore, hv, htail, rfl⟩
    cases htail with
    | close hafter => exact .last hbefore hv hafter
    | comma hafter hmore => exact .cons hbefore hv hafter hmore

theorem MoreElements.endsNumber {vs : List Value} {text : List Char} (h : MoreElements vs text)
    (rest : List Char) : EndsNumber (text ++ rest) := by
  cases h with
  | close hbetween | comma hbetween _ =>
      rw [List.append_assoc]
      exact EndsNumber.append hbetween (by simp [EndsNumber])

/-- Reads an element as the given field, and the elements behind it. -/
def nextElement (field : Field ρ) (fields : List (Field ρ)) (record : ρ) : Reader ρ :=
  fun source => do
    let (change, source) ← field.read source
    elements false fields (change record) source

theorem elements_close {isFirst : Bool} {between : List Char} (hbetween : Blank between)
    (fields : List (Field ρ)) (record : ρ) (rest : List Char) :
    elements isFirst fields record (between ++ ']' :: rest) = .ok (record, rest) := by
  have hblank : skipBlank (between ++ ']' :: rest) = ']' :: rest := by
    rw [skipBlank_append hbetween, skipBlank_cons rfl]
  cases fields with
  | nil =>
      have hmark : mark ']' (between ++ ']' :: rest) = .ok ((), rest) :=
        (mark_eq_ok_iff rfl).2 ⟨between, hbetween, rfl⟩
      rw [elements, hmark]
      rfl
  | cons field fields => simp only [elements, hblank]

theorem elements_first {field : Field ρ} {source : List Char}
    (happend : ∀ {before : List Char}, Blank before → ∀ text,
      field.read (before ++ text) = field.read text)
    (h : (skipBlank source).head? ≠ some ']') (fields : List (Field ρ)) (record : ρ) :
    elements true (field :: fields) record source = nextElement field fields record source := by
  have ⟨before, hbefore, hsource⟩ := exists_blank source
  have hread : field.read source = field.read (skipBlank source) := by
    rw [← happend hbefore (skipBlank source), ← hsource]
  rw [elements, nextElement, hread]
  generalize skipBlank source = inner at h
  split
  · exact absurd rfl h
  · rfl

theorem elements_comma {field : Field ρ} {between : List Char} (hbetween : Blank between)
    (fields : List (Field ρ)) (record : ρ) (source : List Char) :
    elements false (field :: fields) record (between ++ ',' :: source) =
      nextElement field fields record source := by
  have hblank : skipBlank (between ++ ',' :: source) = ',' :: source := by
    rw [skipBlank_append hbetween, skipBlank_cons rfl]
  simp only [elements, hblank]
  rfl

theorem elements_end {isFirst : Bool} {source : List Char} (hfields : FieldsRead fields meanings)
    (hsource : Blank source) (record : ρ) :
    elements isFirst fields record source = .error .unexpectedEnd := by
  have hblank := skipBlank_eq_nil_iff.2 hsource
  cases hfields with
  | nil =>
      rw [elements, mark, hblank]
      rfl
  | cons hfield _ =>
      simp only [elements, hblank]
      cases isFirst with
      | true => simp [bind, Except.bind, hfield.2.nil]
      | false => rfl

section

variable {field : Field ρ} {meaning : FieldMeaning ρ} {record result : ρ}

theorem nextElement_sound {source rest : List Char} (hfield : Reads field.read meaning.change?)
    (hmore : ∀ {record : ρ} {source : List Char},
      elements false fields record source = .ok (result, rest) → ∃ vs spelled,
        MoreElements vs spelled ∧ byPosition? meanings record vs = some result ∧
          source = spelled ++ rest)
    (h : nextElement field fields record source = .ok (result, rest)) :
    ∃ vs spelled, ElementsSpelled vs spelled ∧
      byPosition? (meaning :: meanings) record vs = some result ∧ source = spelled ++ rest := by
  rcases bind_eq_ok_iff.1 h with ⟨⟨change, behind⟩, hread, hbehind⟩
  rcases hfield.sound hread with ⟨before, v, text, hbefore, hv, hchange, rfl⟩
  rcases hmore hbehind with ⟨vs, tail, htail, hresult, rfl⟩
  have hspelled := elementsSpelled_iff.2 ⟨v, vs, before, text, tail, rfl, hbefore, hv, htail, rfl⟩
  refine ⟨v :: vs, _, hspelled, ?_, by simp⟩
  rw [byPosition?, hchange]
  exact hresult

theorem moreElements_sound (hfields : FieldsRead fields meanings) {source rest : List Char}
    (h : elements false fields record source = .ok (result, rest)) :
    ∃ vs spelled, MoreElements vs spelled ∧ byPosition? meanings record vs = some result ∧
      source = spelled ++ rest := by
  induction hfields generalizing record source with
  | nil =>
      rcases bind_eq_ok_iff.1 h with ⟨⟨_, closed⟩, hmark, h⟩
      cases h
      rcases (mark_eq_ok_iff rfl).1 hmark with ⟨between, hbetween, rfl⟩
      exact ⟨[], _, .close hbetween, rfl, by simp⟩
  | cons hfield _ ih =>
      have ⟨between, hbetween, hsource⟩ := exists_blank source
      rw [elements] at h
      split at h
      · next closed hclosed =>
          cases h
          exact ⟨[], _, .close hbetween, rfl, by rw [hsource, hclosed]; simp⟩
      · rcases bind_eq_ok_iff.1 h with ⟨⟨_, opened⟩, hmark, h⟩
        rcases (mark_eq_ok_iff rfl).1 hmark with ⟨before, hbefore, hopened⟩
        rcases nextElement_sound hfield.2 ih h with ⟨vs, spelled, hspelled, hresult, rfl⟩
        refine ⟨vs, _, .comma (hbetween.append hbefore) hspelled, hresult, ?_⟩
        rw [hsource, hopened]
        simp

theorem firstElements_sound (hfields : FieldsRead fields meanings) {source rest : List Char}
    (h : elements true fields record source = .ok (result, rest)) :
    (∃ between, Blank between ∧ source = between ++ ']' :: rest ∧ result = record) ∨
      ∃ vs spelled, ElementsSpelled vs spelled ∧ byPosition? meanings record vs = some result ∧
        source = spelled ++ rest := by
  cases hfields with
  | nil =>
      rcases bind_eq_ok_iff.1 h with ⟨⟨_, closed⟩, hmark, h⟩
      cases h
      rcases (mark_eq_ok_iff rfl).1 hmark with ⟨between, hbetween, rfl⟩
      exact .inl ⟨between, hbetween, rfl, rfl⟩
  | cons hfield hfields =>
      have ⟨between, hbetween, hsource⟩ := exists_blank source
      by_cases hhead : (skipBlank source).head? = some ']'
      · have ⟨closed, hclosed⟩ : ∃ closed, skipBlank source = ']' :: closed := by
          cases hinner : skipBlank source with
          | nil => simp [hinner] at hhead
          | cons c closed => exact ⟨closed, by simpa [hinner] using hhead⟩
        rw [hsource, hclosed, elements_close hbetween] at h
        cases h
        exact .inl ⟨between, hbetween, by rw [hsource, hclosed], rfl⟩
      · rw [elements_first hfield.2.append hhead] at h
        exact .inr (nextElement_sound hfield.2 (moreElements_sound hfields) h)

theorem byPosition?_nil (meanings : List (FieldMeaning ρ)) (record : ρ) :
    byPosition? meanings record [] = some record := by
  cases meanings <;> rfl

theorem byPosition?_cons_iff {v : Value} {vs : List Value} :
    byPosition? (meaning :: meanings) record (v :: vs) = some result ↔
      ∃ change, meaning.change? v = some change ∧
        byPosition? meanings (change record) vs = some result := by
  rw [byPosition?]
  exact Option.bind_eq_some_iff

theorem nextElement_complete {spelled : List Char} {vs : List Value}
    (hfield : Reads field.read meaning.change?) (h : ElementsSpelled vs spelled)
    (hresult : byPosition? (meaning :: meanings) record vs = some result)
    (hmore : ∀ {record : ρ} {vs : List Value} {spelled : List Char}, MoreElements vs spelled →
      byPosition? meanings record vs = some result → ∀ rest,
        elements false fields record (spelled ++ rest) = .ok (result, rest)) (rest : List Char) :
    nextElement field fields record (spelled ++ rest) = .ok (result, rest) := by
  rcases elementsSpelled_iff.1 h with ⟨v, others, before, text, tail, rfl, hbefore, hv, htail, rfl⟩
  rcases byPosition?_cons_iff.1 hresult with ⟨change, hchange, hothers⟩
  have htext : before ++ (text ++ tail) ++ rest = before ++ (text ++ (tail ++ rest)) := by simp
  rw [nextElement, htext, hfield.append hbefore, hfield.complete hv hchange (htail.endsNumber rest)]
  exact hmore htail hothers rest

theorem moreElements_complete (hfields : FieldsRead fields meanings) {vs : List Value}
    {spelled : List Char} (h : MoreElements vs spelled)
    (hresult : byPosition? meanings record vs = some result) (rest : List Char) :
    elements false fields record (spelled ++ rest) = .ok (result, rest) := by
  induction hfields generalizing record vs spelled rest with
  | nil =>
      cases h with
      | close hbetween =>
          cases hresult
          rw [List.append_assoc]
          exact elements_close hbetween _ _ _
      | comma _ hspelled =>
          rcases elementsSpelled_iff.1 hspelled with ⟨v, others, _, _, _, rfl, -⟩
          cases hresult
  | cons hfield _ ih =>
      cases h with
      | close hbetween =>
          cases hresult
          rw [List.append_assoc]
          exact elements_close hbetween _ _ _
      | comma hbetween hspelled =>
          rw [List.append_assoc, List.cons_append, elements_comma hbetween]
          exact nextElement_complete hfield.2 hspelled hresult ih rest

theorem firstElements_complete (hfields : FieldsRead fields meanings) {vs : List Value}
    {spelled : List Char} (h : ElementsSpelled vs spelled)
    (hresult : byPosition? meanings record vs = some result) (rest : List Char) :
    elements true fields record (spelled ++ rest) = .ok (result, rest) := by
  cases hfields with
  | nil =>
      rcases elementsSpelled_iff.1 h with ⟨v, others, _, _, _, rfl, -⟩
      cases hresult
  | cons hfield hfields =>
      rw [elements_first hfield.2.append (h.head? rest)]
      exact nextElement_complete hfield.2 h hresult (moreElements_complete hfields) rest

theorem nextElement_cut {vs : List Value} {text front back : List Char}
    (hfield : Reads field.read meaning.change?) (hfields : FieldsRead fields meanings)
    (h : ElementsSpelled vs text)
    (hresult : byPosition? (meaning :: meanings) record vs = some result)
    (htext : text = front ++ back)
    (hmore : ∀ {record : ρ} {vs : List Value} {text front : List Char}, MoreElements vs text →
      byPosition? meanings record vs = some result → text = front ++ back →
        ∃ flaw, CutShort front back (fun t => ∃ vs, MoreElements vs t ∧
            byPosition? meanings record vs = some result) flaw ∧
          elements false fields record front = .error flaw) :
    ∃ flaw, CutShort front back (fun t => ∃ vs, ElementsSpelled vs t ∧
        byPosition? (meaning :: meanings) record vs = some result) flaw ∧
      nextElement field fields record front = .error flaw := by
  rcases elementsSpelled_iff.1 h with ⟨v, others, before, inner, tail, rfl, hbefore, hv, htail, rfl⟩
  rcases byPosition?_cons_iff.1 hresult with ⟨change, hchange, hothers⟩
  rcases hfield.within hbefore hv hchange htext with
    ⟨shorter, hshorter⟩ | ⟨flaw, hshort, hflaw⟩ | ⟨behind, rfl, hbehind⟩
  · refine ⟨.unexpectedEnd, .early, ?_⟩
    rw [nextElement, hshorter]
    exact elements_end hfields Blank.nil _
  · refine ⟨flaw, hshort.imp ?_, by rw [nextElement, hflaw]; rfl⟩
    rintro _ ⟨w, spelled, hw, hmeaning, rfl⟩
    exact ⟨w :: others, elementsSpelled_iff.2 ⟨w, others, before, spelled, tail, rfl, hbefore, hw,
      htail, rfl⟩, byPosition?_cons_iff.2 ⟨change, hmeaning, hothers⟩⟩
  · rcases hmore htail hothers hbehind with ⟨flaw, hshort, hflaw⟩
    have hends : EndsNumber behind := by
      have hall := htail.endsNumber []
      rw [List.append_nil, hbehind] at hall
      exact hall.of_append
    refine ⟨flaw, ?_, ?_⟩
    · have hlater : CutShort ((before ++ inner) ++ behind) back (fun t => ∃ vs,
          ElementsSpelled vs t ∧
            byPosition? (meaning :: meanings) record vs = some result) flaw :=
        hshort.behind _ fun t ⟨ws, hws, hmeaning⟩ =>
          ⟨v :: ws, elementsSpelled_iff.2 ⟨v, ws, before, inner, t, rfl, hbefore, hv, hws, by simp⟩,
            byPosition?_cons_iff.2 ⟨change, hchange, hmeaning⟩⟩
      simpa using hlater
    · rw [nextElement, hfield.append hbefore, hfield.complete hv hchange hends]
      exact hflaw

theorem elements_of_close {isFirst : Bool} {between front back : List Char}
    (hfields : FieldsRead fields meanings) (hbetween : Blank between)
    (htext : between ++ [']'] = front ++ back) (hback : back ≠ []) (record : ρ) :
    elements isFirst fields record front = .error .unexpectedEnd := by
  rcases cut_before_mark htext with ⟨rest, rfl⟩ | ⟨more, -, hmore⟩
  · exact elements_end hfields (blank_append_iff.1 hbetween).1 record
  · simp [hback] at hmore

theorem moreElements_cut (hfields : FieldsRead fields meanings) {vs : List Value}
    {text front back : List Char} (h : MoreElements vs text)
    (hresult : byPosition? meanings record vs = some result) (htext : text = front ++ back)
    (hback : back ≠ []) :
    ∃ flaw, CutShort front back (fun t => ∃ vs, MoreElements vs t ∧
        byPosition? meanings record vs = some result) flaw ∧
      elements false fields record front = .error flaw := by
  induction hfields generalizing record vs text front with
  | nil =>
      cases h with
      | close hbetween =>
          exact ⟨.unexpectedEnd, .early, elements_of_close .nil hbetween htext hback record⟩
      | comma _ hspelled =>
          rcases elementsSpelled_iff.1 hspelled with ⟨v, others, _, _, _, rfl, -⟩
          cases hresult
  | @cons _ meaning _ meanings hfield hfields ih =>
      cases h with
      | close hbetween =>
          exact ⟨.unexpectedEnd, .early,
            elements_of_close (.cons hfield hfields) hbetween htext hback record⟩
      | @comma _ between text hbetween hspelled =>
          rcases cut_before_mark htext with ⟨rest, rfl⟩ | ⟨behind, rfl, hbehind⟩
          · have hblank := (blank_append_iff.1 hbetween).1
            exact ⟨.unexpectedEnd, .early, elements_end (.cons hfield hfields) hblank record⟩
          · rcases nextElement_cut hfield.2 hfields hspelled hresult hbehind ih with
              ⟨flaw, hshort, hflaw⟩
            refine ⟨flaw, ?_, by rw [elements_comma hbetween, hflaw]⟩
            have hlater : CutShort (between ++ [','] ++ behind) back (fun t => ∃ vs,
                MoreElements vs t ∧
                  byPosition? (meaning :: meanings) record vs = some result) flaw :=
              hshort.behind _ fun t ⟨ws, hws, hmeaning⟩ =>
                ⟨ws, by simpa using MoreElements.comma hbetween hws, hmeaning⟩
            simpa using hlater

theorem firstElements_cut (hfields : FieldsRead fields meanings) {vs : List Value}
    {text front back : List Char} (h : ElementsSpelled vs text)
    (hresult : byPosition? meanings record vs = some result) (htext : text = front ++ back)
    (hback : back ≠ []) :
    ∃ flaw, CutShort front back (fun t => ∃ vs, ElementsSpelled vs t ∧
        byPosition? meanings record vs = some result) flaw ∧
      elements true fields record front = .error flaw := by
  cases hfields with
  | nil =>
      rcases elementsSpelled_iff.1 h with ⟨v, others, _, _, _, rfl, -⟩
      cases hresult
  | cons hfield hfields =>
      have hhead : (skipBlank (front ++ back)).head? ≠ some ']' := by
        simpa [htext] using h.head? []
      rw [elements_first hfield.2.append (head?_skipBlank_of_append hhead)]
      exact nextElement_cut hfield.2 hfields h hresult htext fun hvs hmeaning hcut =>
        moreElements_cut hfields hvs hmeaning hcut hback

end

/-! ### Records -/

section

variable {default result : ρ}

theorem record_emptyObject {between : List Char} (hbetween : Blank between)
    (fields : List (Field ρ)) (rest : List Char) :
    record fields default ('{' :: (between ++ '}' :: rest)) = .ok (default, rest) := by
  have hblank : skipBlank (between ++ '}' :: rest) = '}' :: rest := by
    rw [skipBlank_append hbetween, skipBlank_cons rfl]
  simp only [record, skipBlank_cons (show isBlank '{' = false from rfl), hblank]

theorem record_object {source : List Char} (h : (skipBlank source).head? ≠ some '}')
    (fields : List (Field ρ)) :
    record fields default ('{' :: source) =
      members fields ((skipBlank source).length + 1) [] default (skipBlank source) := by
  simp only [record, skipBlank_cons (show isBlank '{' = false from rfl)]
  generalize skipBlank source = inner at h
  split
  · exact absurd rfl h
  · rfl

theorem record_array (fields : List (Field ρ)) (source : List Char) :
    record fields default ('[' :: source) = elements true fields default source := by
  simp only [record, skipBlank_cons (show isBlank '[' = false from rfl)]

theorem record_openObject {source : List Char} (h : Blank source) (fields : List (Field ρ)) :
    record fields default ('{' :: source) = .error .unexpectedEnd := by
  have hblank := skipBlank_eq_nil_iff.2 h
  have hmember : namedMember fields [] [] = .error .unexpectedEnd := rfl
  rw [record_object (by simp [hblank]), hblank]
  exact members_error (Nat.lt_succ_self _) hmember

/-- Members start with a key, in front of which white space may stand. -/
theorem MembersSpelled.exists_quote {ms : List (List StringItem × Value)} {spelled : List Char}
    (h : MembersSpelled ms spelled) :
    ∃ before inner, Blank before ∧ spelled = before ++ '"' :: inner ∧
      MembersSpelled ms ('"' :: inner) := by
  cases h with
  | last hk hbefore hv hafter =>
      rcases hk with ⟨houter, hitems, hbetween⟩
      exact ⟨_, _, houter, by simp; rfl, by
        simpa using MembersSpelled.last (.mk Blank.nil hitems hbetween) hbefore hv hafter⟩
  | cons hk hbefore hv hafter hmore =>
      rcases hk with ⟨houter, hitems, hbetween⟩
      exact ⟨_, _, houter, by simp; rfl, by
        simpa using MembersSpelled.cons (.mk Blank.nil hitems hbetween) hbefore hv hafter hmore⟩

theorem MembersSpelled.blank_append {ms : List (List StringItem × Value)}
    {before spelled : List Char} (h : MembersSpelled ms spelled) (hbefore : Blank before) :
    MembersSpelled ms (before ++ spelled) := by
  rcases membersSpelled_iff.1 h with
    ⟨k, v, others, key, inner, text, tail, rfl, hk, hinner, hv, htail, rfl⟩
  exact membersSpelled_iff.2 ⟨k, v, others, before ++ key, inner, text, tail, rfl,
    hk.blank_append hbefore, hinner, hv, htail, by simp⟩

theorem record_sound (hfields : FieldsRead fields meanings) (hindependent : Independent meanings)
    {text rest : List Char} (h : record fields default text = .ok (result, rest)) :
    ∃ before v spelled, Blank before ∧ Value.Spelled v spelled ∧
      recordMeaning? meanings default v = some result ∧ text = before ++ (spelled ++ rest) := by
  have ⟨before, hbefore, htext⟩ := exists_blank text
  unfold record at h
  split at h
  · next opened hopened =>
      have ⟨between, hbetween, hinner⟩ := exists_blank opened
      split at h
      · next closed hclosed =>
          cases h
          refine ⟨before, _, _, hbefore, .emptyObject hbetween,
            (recordMeaning?_object_iff hindependent).2 rfl, ?_⟩
          rw [htext, hopened, hinner, hclosed]
          simp
      · rcases members_sound hfields (Nat.lt_succ_self _) h with ⟨ms, spelled, hms, hresult, heq⟩
        refine ⟨before, _, _, hbefore, .object (hms.blank_append hbetween),
          (recordMeaning?_object_iff hindependent).2 hresult, ?_⟩
        rw [htext, hopened, hinner, heq]
        simp
  · next opened hopened =>
      rcases firstElements_sound hfields h with
        ⟨between, hbetween, rfl, rfl⟩ | ⟨vs, spelled, hvs, hresult, rfl⟩
      · refine ⟨before, _, _, hbefore, .emptyArray hbetween, byPosition?_nil meanings _, ?_⟩
        rw [htext, hopened]
        simp
      · refine ⟨before, _, _, hbefore, .array hvs, hresult, ?_⟩
        rw [htext, hopened]
        simp
  · cases h

theorem record_complete (hfields : FieldsRead fields meanings)
    (hindependent : Independent meanings) {v : Value} {spelled : List Char} (hv : v.Spelled spelled)
    (hmeaning : recordMeaning? meanings default v = some result) (rest : List Char) :
    record fields default (spelled ++ rest) = .ok (result, rest) := by
  cases hv with
  | @emptyArray between hbetween =>
      rw [recordMeaning?, byPosition?_nil] at hmeaning
      cases hmeaning
      rw [List.cons_append, record_array, List.append_assoc]
      exact elements_close hbetween _ _ _
  | array hvs =>
      rw [List.cons_append, record_array]
      exact firstElements_complete hfields hvs hmeaning rest
  | @emptyObject between hbetween =>
      rw [recordMeaning?_object_iff hindependent] at hmeaning
      cases hmeaning
      rw [List.cons_append, List.append_assoc]
      exact record_emptyObject hbetween _ _
  | object hms =>
      rw [recordMeaning?_object_iff hindependent] at hmeaning
      rcases hms.exists_quote with ⟨before, inner, hbefore, rfl, hinner⟩
      have hblank : skipBlank (before ++ '"' :: inner ++ rest) = '"' :: inner ++ rest := by
        rw [List.append_assoc, skipBlank_append hbefore, List.cons_append, skipBlank_cons rfl]
      rw [List.cons_append, record_object (hms.head? rest), hblank]
      exact members_complete hfields hinner hmeaning (Nat.lt_succ_self _)
  | _ => cases hmeaning

/-- A cut within a record. -/
theorem record_cut (hfields : FieldsRead fields meanings) (hindependent : Independent meanings)
    {v : Value} {front back : List Char} (hv : v.Spelled (front ++ back))
    (hmeaning : recordMeaning? meanings default v = some result) (hback : back ≠ []) :
    ∃ flaw, CutShort front back (fun t => ∃ w : Value, w.Spelled t ∧
        recordMeaning? meanings default w = some result) flaw ∧
      record fields default front = .error flaw := by
  rcases front with _ | ⟨c, front⟩
  · exact ⟨.unexpectedEnd, .early, rfl⟩
  rw [List.cons_append] at hv
  generalize htext : front ++ back = text at hv
  cases hv with
  | emptyArray hbetween =>
      refine ⟨.unexpectedEnd, .early, ?_⟩
      rw [record_array]
      exact elements_of_close hfields hbetween htext.symm hback default
  | array hvs =>
      rcases firstElements_cut hfields hvs hmeaning htext.symm hback with ⟨flaw, hshort, hflaw⟩
      refine ⟨flaw, hshort.behind ['['] ?_, by rw [record_array, hflaw]⟩
      rintro t ⟨vs, hvs, hmeaning⟩
      exact ⟨.array vs, .array hvs, hmeaning⟩
  | emptyObject hbetween =>
      refine ⟨.unexpectedEnd, .early, ?_⟩
      rcases cut_before_mark htext.symm with ⟨rest, rfl⟩ | ⟨more, -, hmore⟩
      · exact record_openObject (blank_append_iff.1 hbetween).1 fields
      · simp [hback] at hmore
  | object hms =>
      rcases hms.exists_quote with ⟨before, inner, hbefore, rfl, hinner⟩
      rcases append_eq_append_cases htext with ⟨rest, -, rfl, -⟩ | ⟨p, rfl, hp⟩
      · exact ⟨.unexpectedEnd, .early, record_openObject (blank_append_iff.1 hbefore).1 fields⟩
      rw [recordMeaning?_object_iff hindependent] at hmeaning
      rcases members_cut hfields hinner hp hback hmeaning (Nat.lt_succ_self _) with
        ⟨flaw, hshort, hflaw⟩
      refine ⟨flaw, hshort.behind ('{' :: before) ?_, ?_⟩
      · rintro t ⟨ms, hms, hresult⟩
        exact ⟨.object ms, .object (hms.blank_append hbefore),
          (recordMeaning?_object_iff hindependent).2 hresult⟩
      · have hblank : skipBlank (before ++ p) = p := by
          rw [skipBlank_append hbefore]
          rcases List.cons_eq_append_iff.1 hp with ⟨rfl, -⟩ | ⟨p, rfl, -⟩
          · rfl
          · exact skipBlank_cons rfl p
        have hhead : (skipBlank (before ++ p)).head? ≠ some '}' := by
          rw [hblank]
          rcases List.cons_eq_append_iff.1 hp with ⟨rfl, -⟩ | ⟨p, rfl, -⟩ <;> simp
        rw [record_object hhead, hblank, hflaw]
  | _ => cases hmeaning

/-- Reading a record is reading what a value means as the record. -/
theorem reads_record (hfields : FieldsRead fields meanings) (hindependent : Independent meanings) :
    Reads (record fields default) (recordMeaning? meanings default) where
  append hbefore text := by simp only [record, skipBlank_append hbefore]
  nil := rfl
  sound h := record_sound hfields hindependent h
  complete hv hmeaning _ := record_complete hfields hindependent hv hmeaning _
  cut hv hmeaning hback := .inr (record_cut hfields hindependent hv hmeaning hback)

end

end

end PseudoLru.Json
