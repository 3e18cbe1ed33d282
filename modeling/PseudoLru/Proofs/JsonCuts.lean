import PseudoLru.Proofs.JsonSkipping

/-!
# Cutting a text within a value

A value that is skipped and whose text ends too early is reported as too short,
wherever the cut goes through: within a literal, a string, a key, between two
tokens or at any depth of brackets.  The one exception is a number, for which the
reader does not tell the end of the text from a wrong character.
-/

namespace PseudoLru.Json

/-- How a text that was cut between `front` and `back` fails: as too short, or as
malformed when the cut leaves a part of a number that is no number.  Such a number
is one that nobody asks for: any other value fits in its place. -/
inductive CutShort (front back : List Char) (Fits : List Char → Prop) : Flaw → Prop
  | early : CutShort front back Fits .unexpectedEnd
  | inNumber (before token more after : List Char) {n : Numeral} :
      front = before ++ token → back = more ++ after → token ≠ [] → n.Spelled (token ++ more) →
        (∀ shorter : Numeral, ¬shorter.Spelled token) →
          (∀ (w : Value) (spelled : List Char), w.Spelled spelled →
            Fits (before ++ (spelled ++ after))) →
              CutShort front back Fits .malformed

theorem CutShort.around {front back : List Char} {Fits FitsAround : List Char → Prop} {flaw : Flaw}
    (h : CutShort front back Fits flaw) (before after : List Char)
    (hfits : ∀ text, Fits text → FitsAround (before ++ (text ++ after))) :
    CutShort (before ++ front) (back ++ after) FitsAround flaw := by
  cases h with
  | early => exact .early
  | inNumber _ _ _ _ hfront hback htoken hn hshorter hplace =>
      refine .inNumber _ _ _ _ (by rw [hfront, List.append_assoc])
        (by rw [hback, List.append_assoc]) htoken hn hshorter fun w spelled hw => ?_
      simpa using hfits _ (hplace w spelled hw)

theorem CutShort.behind {front back : List Char} {Fits FitsBehind : List Char → Prop} {flaw : Flaw}
    (h : CutShort front back Fits flaw) (before : List Char)
    (hfits : ∀ text, Fits text → FitsBehind (before ++ text)) :
    CutShort (before ++ front) back FitsBehind flaw := by
  have haround : CutShort (before ++ front) (back ++ []) FitsBehind flaw :=
    h.around before [] (by simpa using hfits)
  rwa [List.append_nil] at haround

theorem CutShort.imp {front back : List Char} {Fits FitsToo : List Char → Prop} {flaw : Flaw}
    (h : CutShort front back Fits flaw) (hfits : ∀ text, Fits text → FitsToo text) :
    CutShort front back FitsToo flaw :=
  h.behind [] hfits

theorem cut_before_mark {before more front back : List Char} {due : Char}
    (htext : before ++ due :: more = front ++ back) :
    (∃ rest, before = front ++ rest) ∨
      ∃ behind, front = before ++ due :: behind ∧ more = behind ++ back := by
  rcases append_eq_append_cases htext.symm with ⟨rest, -, hbefore, -⟩ | ⟨behind, hfront, hmore⟩
  · exact .inl ⟨rest, hbefore⟩
  · rcases List.cons_eq_append_iff.1 hmore with ⟨rfl, -⟩ | ⟨behind, rfl, hbehind⟩
    · exact .inl ⟨[], by simpa using hfront.symm⟩
    · exact .inr ⟨behind, hfront, hbehind⟩

theorem skip_due_blank {text : List Char} (h : Blank text) (inside : List Bracket) :
    skip true inside text = .error .unexpectedEnd := by
  have happend := @skip_due_append inside text h []
  rwa [List.append_nil] at happend

theorem skip_within_blank {text : List Char} (h : Blank text) (bracket : Bracket)
    (inside : List Bracket) : skip false (bracket :: inside) text = .error .unexpectedEnd := by
  have happend := @skip_within_append inside text h bracket []
  rwa [List.append_nil, skip_within_nil] at happend

theorem skipKey_of_blank {text : List Char} (h : Blank text) :
    skipKey text = .error .unexpectedEnd := by
  have happend := skipKey_append h []
  rw [List.append_nil] at happend
  exact happend.trans rfl

/-- Reads a key that nobody asks for and its colon. -/
def ignoredKey : Reader Unit :=
  (mark '"').andThen fun _ => (string false).andThen fun _ => mark ':'

theorem truncates_ignoredKey : Truncates ignoredKey :=
  (truncates_mark '"').andThen fun _ =>
    (truncates_stringFrom false .plain []).andThen fun _ => truncates_mark ':'

theorem skipKey_eq_map (text : List Char) : skipKey text = (ignoredKey text).map (·.2) := by
  simp only [skipKey, ignoredKey, Reader.andThen]
  rcases mark '"' text with flaw | ⟨_, text⟩
  · rfl
  simp only [bind, Except.bind]
  rcases string false text with flaw | ⟨_, text⟩
  · rfl
  dsimp only
  rcases mark ':' text with flaw | ⟨_, text⟩ <;> rfl

theorem skipKey_of_append {k : List StringItem} {front back : List Char}
    (h : KeySpelled k (front ++ back)) (hback : back ≠ []) :
    skipKey front = .error .unexpectedEnd := by
  have hwhole := skipKey_eq_ok_iff.2 ⟨k, _, h, (List.append_nil _).symm⟩
  rw [skipKey_eq_map, map_snd_eq_ok_iff] at hwhole
  rcases hwhole with ⟨u, hwhole⟩
  rw [skipKey_eq_map, truncates_ignoredKey.unexpectedEnd hback hwhole]
  rfl

/-- A text cut within a value that is skipped. -/
def CutsAsValue (text : List Char) : Prop :=
  ∀ front back, text = front ++ back → back ≠ [] →
    (∃ n : Numeral, n.Spelled front) ∨
      ∃ flaw, CutShort front back (fun t => ∃ w : Value, w.Spelled t) flaw ∧
        ∀ inside, skip true inside front = .error flaw

theorem cutsAsValue_literal {c : Char} {due : List Char}
    (hread : ∀ text, skipScalar (c :: text) = (literal due text).map (·.2))
    (hblank : isBlank c = false) (hsquare : c ≠ '[') (hcurly : c ≠ '{') :
    CutsAsValue (c :: due) := by
  intro front back htext hback
  refine .inr ⟨.unexpectedEnd, .early, fun inside => ?_⟩
  rcases List.cons_eq_append_iff.1 htext with ⟨rfl, -⟩ | ⟨front, rfl, rfl⟩
  · rfl
  · have hwhole : literal (front ++ back) (front ++ back) = .ok ((), []) :=
      literal_eq_ok_iff.2 (List.append_nil _).symm
    rw [skip_scalar hblank hsquare hcurly, hread,
      (truncates_literal _).unexpectedEnd hback hwhole]
    rfl

theorem cutsAsValue_number {n : Numeral} {text : List Char} (h : n.Spelled text) :
    CutsAsValue text := by
  intro front back htext hback
  subst htext
  by_cases hshorter : ∃ shorter : Numeral, shorter.Spelled front
  · exact .inl hshorter
  rw [not_exists] at hshorter
  rcases front with _ | ⟨c, front⟩
  · exact .inr ⟨.unexpectedEnd, .early, skip_due_nil⟩
  · rcases h.exists_cons with ⟨d, rest, heq, hd⟩
    rw [List.cons_append, List.cons.injEq] at heq
    rcases heq with ⟨rfl, -⟩
    refine .inr ⟨.malformed, ?_, fun inside => ?_⟩
    · refine .inNumber [] _ back [] rfl (by simp) (by simp) h hshorter ?_
      intro w spelled hw
      exact ⟨w, by simpa using hw⟩
    · rw [skip_numeral hd, numeral_of_unfinished .malformed h hshorter]
      rfl

theorem cutsAsValue_string {items : List StringItem} {text : List Char}
    (h : StringSpelled items text) : CutsAsValue ('"' :: (text ++ ['"'])) := by
  intro front back htext hback
  refine .inr ⟨.unexpectedEnd, .early, fun inside => ?_⟩
  rcases List.cons_eq_append_iff.1 htext with ⟨rfl, -⟩ | ⟨front, rfl, hfront⟩
  · rfl
  · have hwhole : string false (front ++ back) = .ok (looseContent items, []) :=
      string_eq_ok_iff.2 ⟨items, text, hfront.symm, h, readContent?_false items⟩
    have hend : string false front = .error .unexpectedEnd :=
      (truncates_stringFrom false .plain []).unexpectedEnd hback hwhole
    have hscalar : skipScalar ('"' :: front) = .error .unexpectedEnd := by
      simp [skipScalar, hend, Except.map]
    rw [skip_scalar rfl (by decide) (by decide), hscalar]
    rfl

theorem head?_skipBlank_of_append {front back : List Char} {c : Char}
    (h : (skipBlank (front ++ back)).head? ≠ some c) : (skipBlank front).head? ≠ some c := by
  by_cases hblank : Blank front
  · simp [skipBlank_eq_nil_iff.2 hblank]
  · rw [skipBlank_append_of_not_blank hblank, List.head?_append] at h
    intro hhead
    rw [hhead] at h
    exact h rfl

theorem cutsAsValue_emptyArray {between : List Char} (h : Blank between) :
    CutsAsValue ('[' :: (between ++ [']'])) := by
  intro front back htext hback
  refine .inr ⟨.unexpectedEnd, .early, fun inside => ?_⟩
  rcases List.cons_eq_append_iff.1 htext with ⟨rfl, -⟩ | ⟨front, rfl, hfront⟩
  · rfl
  rcases cut_before_mark hfront with ⟨rest, rfl⟩ | ⟨behind, -, hbehind⟩
  · have hblank := (blank_append_iff.1 h).1
    rw [skip_array (by simp [skipBlank_eq_nil_iff.2 hblank]), skip_due_blank hblank]
  · simp [hback] at hbehind

theorem cutsAsValue_emptyObject {between : List Char} (h : Blank between) :
    CutsAsValue ('{' :: (between ++ ['}'])) := by
  intro front back htext hback
  refine .inr ⟨.unexpectedEnd, .early, fun inside => ?_⟩
  rcases List.cons_eq_append_iff.1 htext with ⟨rfl, -⟩ | ⟨front, rfl, hfront⟩
  · rfl
  rcases cut_before_mark hfront with ⟨rest, rfl⟩ | ⟨behind, -, hbehind⟩
  · have hblank := (blank_append_iff.1 h).1
    rw [skip_object (by simp [skipBlank_eq_nil_iff.2 hblank]), skipKey_of_blank hblank]
    rfl
  · simp [hback] at hbehind

/-- A text cut within a value, or within the white space in front of it or behind
it, up to the next mark. -/
theorem CutsAsValue.within {v : Value} {before text after more front back : List Char} {due : Char}
    (hcut : CutsAsValue text) (hv : v.Spelled text) (hbefore : Blank before) (hafter : Blank after)
    (htext : before ++ (text ++ (after ++ due :: more)) = front ++ back) :
    (∃ flaw, CutShort front back (fun t => ∃ (w : Value) (spelled : List Char), w.Spelled spelled ∧
        t = before ++ (spelled ++ (after ++ due :: more))) flaw ∧
          ∀ bracket inside, skip true (bracket :: inside) front = .error flaw) ∨
      ∃ behind, front = before ++ (text ++ (after ++ due :: behind)) ∧ more = behind ++ back := by
  rcases append_eq_append_cases htext.symm with ⟨rest, -, rfl, -⟩ | ⟨p, rfl, hp⟩
  · have hblank := (blank_append_iff.1 hbefore).1
    exact .inl ⟨.unexpectedEnd, .early, fun _ _ => skip_due_blank hblank _⟩
  rcases append_eq_append_cases hp.symm with ⟨rest, hrest, htext, hback⟩ | ⟨q, rfl, hq⟩
  · rcases hcut p rest htext hrest with ⟨n, hn⟩ | ⟨flaw, hshort, hskip⟩
    · refine .inl ⟨.unexpectedEnd, .early, fun bracket inside => ?_⟩
      have hnumber : skip true (bracket :: inside) (p ++ []) = skip false (bracket :: inside) [] :=
        (Value.Spelled.number hn).skip_append _ trivial
      rw [List.append_nil] at hnumber
      rw [skip_due_append hbefore, hnumber, skip_within_nil]
    · refine .inl ⟨flaw, ?_, fun bracket inside => ?_⟩
      · rw [hback]
        refine hshort.around before (after ++ due :: more) ?_
        rintro _ ⟨w, hw⟩
        exact ⟨w, _, hw, rfl⟩
      · rw [skip_due_append hbefore, hskip]
  rcases cut_before_mark hq with ⟨rest, rfl⟩ | ⟨behind, rfl, hmore⟩
  · have hblank := (blank_append_iff.1 hafter).1
    have hends : EndsNumber q := by
      rw [← List.append_nil q]
      exact EndsNumber.append hblank trivial
    refine .inl ⟨.unexpectedEnd, .early, fun bracket inside => ?_⟩
    rw [skip_due_append hbefore, hv.skip_append _ hends, skip_within_blank hblank]
  · exact .inr ⟨behind, rfl, hmore⟩

mutual

theorem Value.Spelled.cutsAsValue {v : Value} {text : List Char} (h : v.Spelled text) :
    CutsAsValue text := by
  cases h with
  | null => exact cutsAsValue_literal (fun _ => rfl) rfl (by decide) (by decide)
  | yes => exact cutsAsValue_literal (fun _ => rfl) rfl (by decide) (by decide)
  | no => exact cutsAsValue_literal (fun _ => rfl) rfl (by decide) (by decide)
  | number h => exact cutsAsValue_number h
  | string h => exact cutsAsValue_string h
  | emptyArray h => exact cutsAsValue_emptyArray h
  | array h =>
      intro front back htext hback
      rcases List.cons_eq_append_iff.1 htext with ⟨rfl, -⟩ | ⟨front, rfl, rfl⟩
      · exact .inr ⟨.unexpectedEnd, .early, skip_due_nil⟩
      rcases h.cut rfl hback with ⟨flaw, hshort, hskip⟩
      refine .inr ⟨flaw, ?_, fun inside => ?_⟩
      · exact hshort.behind ['['] fun t ⟨ws, hws⟩ => ⟨.array ws, .array hws⟩
      · have hhead : (skipBlank (front ++ back)).head? ≠ some ']' := by simpa using h.head? []
        rw [skip_array (head?_skipBlank_of_append hhead), hskip]
  | emptyObject h => exact cutsAsValue_emptyObject h
  | object h =>
      intro front back htext hback
      rcases List.cons_eq_append_iff.1 htext with ⟨rfl, -⟩ | ⟨front, rfl, rfl⟩
      · exact .inr ⟨.unexpectedEnd, .early, skip_due_nil⟩
      rcases h.cut rfl hback with ⟨flaw, hshort, hskip⟩
      refine .inr ⟨flaw, ?_, fun inside => ?_⟩
      · exact hshort.behind ['{'] fun t ⟨ms, hms⟩ => ⟨.object ms, .object hms⟩
      · have hhead : (skipBlank (front ++ back)).head? ≠ some '}' := by simpa using h.head? []
        rw [skip_object (head?_skipBlank_of_append hhead), hskip]

theorem ElementsSpelled.cut {vs : List Value} {text : List Char} (h : ElementsSpelled vs text)
    {front back : List Char} (htext : text = front ++ back) (hback : back ≠ []) :
    ∃ flaw, CutShort front back (fun t => ∃ ws, ElementsSpelled ws t) flaw ∧
      ∀ inside, skip true (.square :: inside) front = .error flaw := by
  cases h with
  | last hbefore hv hafter =>
      rcases hv.cutsAsValue.within hv hbefore hafter htext with
        ⟨flaw, hshort, hskip⟩ | ⟨behind, -, hnil⟩
      · refine ⟨flaw, hshort.imp ?_, hskip .square⟩
        rintro _ ⟨w, spelled, hw, rfl⟩
        exact ⟨_, .last hbefore hw hafter⟩
      · simp [hback] at hnil
  | @cons v vs before text after more hbefore hv hafter hmore =>
      rcases hv.cutsAsValue.within hv hbefore hafter htext with
        ⟨flaw, hshort, hskip⟩ | ⟨behind, rfl, hbehind⟩
      · refine ⟨flaw, hshort.imp ?_, hskip .square⟩
        rintro _ ⟨w, spelled, hw, rfl⟩
        exact ⟨_, .cons hbefore hw hafter hmore⟩
      · rcases hmore.cut hbehind hback with ⟨flaw, hshort, hskip⟩
        refine ⟨flaw, ?_, fun inside => ?_⟩
        · have hlater : CutShort (before ++ (text ++ (after ++ [','])) ++ behind) back
              (fun t => ∃ ws, ElementsSpelled ws t) flaw :=
            hshort.behind _ fun t ⟨ws, hws⟩ =>
              ⟨v :: ws, by simpa using ElementsSpelled.cons hbefore hv hafter hws⟩
          simpa using hlater
        · have hends : EndsNumber (after ++ ',' :: behind) :=
            EndsNumber.append hafter (by simp [EndsNumber])
          rw [skip_due_append hbefore, hv.skip_append _ hends, skip_within_append hafter,
            skip_comma_element, hskip]

theorem MembersSpelled.cut {ms : List (List StringItem × Value)} {text : List Char}
    (h : MembersSpelled ms text) {front back : List Char} (htext : text = front ++ back)
    (hback : back ≠ []) :
    ∃ flaw, CutShort front back (fun t => ∃ ms, MembersSpelled ms t) flaw ∧
      ∀ inside, skipKey front >>= skip true (.curly :: inside) = .error flaw := by
  cases h with
  | @last k v key before text after hkey hbefore hv hafter =>
      rcases append_eq_append_cases htext.symm with ⟨rest, hrest, rfl, -⟩ | ⟨front, rfl, hvalue⟩
      · exact ⟨.unexpectedEnd, .early, fun inside => by rw [skipKey_of_append hkey hrest]; rfl⟩
      rcases hv.cutsAsValue.within hv hbefore hafter hvalue with
        ⟨flaw, hshort, hskip⟩ | ⟨behind, -, hnil⟩
      · refine ⟨flaw, hshort.behind key ?_, fun inside => ?_⟩
        · rintro _ ⟨w, spelled, hw, rfl⟩
          exact ⟨_, .last hkey hbefore hw hafter⟩
        · rw [skipKey_eq_ok_iff.2 ⟨k, key, hkey, rfl⟩]
          exact hskip .curly inside
      · simp [hback] at hnil
  | @cons k v ms key before text after more hkey hbefore hv hafter hmore =>
      rcases append_eq_append_cases htext.symm with ⟨rest, hrest, rfl, -⟩ | ⟨front, rfl, hvalue⟩
      · exact ⟨.unexpectedEnd, .early, fun inside => by rw [skipKey_of_append hkey hrest]; rfl⟩
      rcases hv.cutsAsValue.within hv hbefore hafter hvalue with
        ⟨flaw, hshort, hskip⟩ | ⟨behind, rfl, hbehind⟩
      · refine ⟨flaw, hshort.behind key ?_, fun inside => ?_⟩
        · rintro _ ⟨w, spelled, hw, rfl⟩
          exact ⟨_, .cons hkey hbefore hw hafter hmore⟩
        · rw [skipKey_eq_ok_iff.2 ⟨k, key, hkey, rfl⟩]
          exact hskip .curly inside
      · rcases hmore.cut hbehind hback with ⟨flaw, hshort, hskip⟩
        refine ⟨flaw, ?_, fun inside => ?_⟩
        · have hlater : CutShort (key ++ (before ++ (text ++ (after ++ [',']))) ++ behind) back
              (fun t => ∃ ms, MembersSpelled ms t) flaw :=
            hshort.behind _ fun t ⟨ms, hms⟩ =>
              ⟨(k, v) :: ms, by simpa using MembersSpelled.cons hkey hbefore hv hafter hms⟩
          simpa using hlater
        · have hends : EndsNumber (after ++ ',' :: behind) :=
            EndsNumber.append hafter (by simp [EndsNumber])
          rw [skipKey_eq_ok_iff.2 ⟨k, key, hkey, rfl⟩]
          change skip true _ (before ++ _) = _
          rw [skip_due_append hbefore, hv.skip_append _ hends, skip_within_append hafter,
            skip_comma_member, hskip]

end

end PseudoLru.Json
