import PseudoLru.Proofs.JsonDocuments

/-!
# A text spells one value

Where a value ends is told by what skips values: two values in front of the same
text end at the same place.  So the parts of an array or an object are the same in
any two spellings of its text, and the values are the same part by part.
-/

namespace PseudoLru.Json

/-! ### Strings, keys and numbers -/

theorem StringSpelled.unique {items others : List StringItem} {text : List Char}
    (h : StringSpelled items text) (hother : StringSpelled others text) : items = others := by
  induction h generalizing others with
  | nil => cases hother; rfl
  | char _ hescape _ _ ih =>
      cases hother with
      | char _ _ _ hother => rw [ih hother]
      | short | unit => exact absurd rfl hescape
  | short hshort _ ih =>
      cases hother with
      | char _ hescape => exact absurd rfl hescape
      | short hshort' hother =>
          rw [hshort] at hshort'
          rw [ih hother, Option.some.inj hshort']
      | unit => cases hshort
  | @unit digits value items text hlength hvalue _ ih =>
      generalize hwhole : '\\' :: 'u' :: (digits ++ text) = whole at hother
      cases hother with
      | nil => cases hwhole
      | char _ hescape => exact absurd (List.cons.inj hwhole).1.symm hescape
      | short hshort =>
          rw [List.cons.injEq, List.cons.injEq] at hwhole
          rw [← hwhole.2.1] at hshort
          cases hshort
      | unit hlength' hvalue' hother =>
          rw [List.cons.injEq, List.cons.injEq] at hwhole
          rcases List.append_inj hwhole.2.2 (hlength.trans hlength'.symm) with ⟨rfl, rfl⟩
          rw [hvalue] at hvalue'
          rw [ih hother, Option.some.inj hvalue']

theorem StringSpelled.unique_of_append {items others : List StringItem}
    {text text' rest rest' : List Char} (h : StringSpelled items text)
    (hother : StringSpelled others text') (heq : text ++ '"' :: rest = text' ++ '"' :: rest') :
    items = others ∧ rest = rest' := by
  have hread : string false (text ++ '"' :: rest) = .ok (looseContent items, rest) :=
    string_eq_ok_iff.2 ⟨items, text, rfl, h, rfl⟩
  have hread' : string false (text' ++ '"' :: rest') = .ok (looseContent others, rest') :=
    string_eq_ok_iff.2 ⟨others, text', rfl, hother, rfl⟩
  rw [heq, hread', Except.ok.injEq, Prod.mk.injEq] at hread
  rcases hread with ⟨-, rfl⟩
  rw [List.append_cancel_right heq] at h
  exact ⟨h.unique hother, rfl⟩

theorem KeySpelled.unique {k k' : List StringItem} {key key' rest rest' : List Char}
    (h : KeySpelled k key) (hother : KeySpelled k' key') (heq : key ++ rest = key' ++ rest') :
    k = k' ∧ rest = rest' := by
  have hskip : skipKey (key ++ rest) = .ok rest := skipKey_eq_ok_iff.2 ⟨k, key, h, rfl⟩
  have hskip' : skipKey (key ++ rest) = .ok rest' := skipKey_eq_ok_iff.2 ⟨k', key', hother, heq⟩
  cases hskip.symm.trans hskip'
  refine ⟨?_, rfl⟩
  have hkey := congrArg skipBlank (List.append_cancel_right heq)
  rcases h with ⟨hbefore, hitems, -⟩
  rcases hother with ⟨hbefore', hitems', -⟩
  rw [skipBlank_append hbefore, skipBlank_append hbefore', skipBlank_cons rfl, skipBlank_cons rfl,
    List.cons.injEq] at hkey
  exact (hitems.unique_of_append hitems' hkey.2).1

theorem Numeral.Spelled.unique {n m : Numeral} {text : List Char} (h : n.Spelled text)
    (hother : m.Spelled text) : n = m := by
  have hread : numeral .malformed (text ++ []) = .ok (n, []) :=
    numeral_complete .malformed h trivial
  have hread' : numeral .malformed (text ++ []) = .ok (m, []) :=
    numeral_complete .malformed hother trivial
  cases hread.symm.trans hread'
  rfl

/-! ### Where a value ends -/

theorem Value.Spelled.ends {v w : Value} {before before' text text' rest rest' : List Char}
    (hbefore : Blank before) (hbefore' : Blank before') (hv : v.Spelled text)
    (hw : w.Spelled text') (hrest : EndsNumber rest) (hrest' : EndsNumber rest')
    (heq : before ++ (text ++ rest) = before' ++ (text' ++ rest')) :
    text = text' ∧ rest = rest' := by
  have hvalue := congrArg skipBlank heq
  rw [skipBlank_append hbefore, skipBlank_append hbefore'] at hvalue
  rcases hv.exists_cons with ⟨c, inner, rfl, hc, -⟩
  rcases hw.exists_cons with ⟨d, inner', rfl, hd, -⟩
  rw [List.cons_append, List.cons_append, skipBlank_cons hc, skipBlank_cons hd, ← List.cons_append,
    ← List.cons_append] at hvalue
  have hskip := hv.skip_append [] hrest
  rw [hvalue, hw.skip_append [] hrest'] at hskip
  cases hskip
  exact ⟨List.append_cancel_right hvalue, rfl⟩

/-! ### What a value starts with -/

theorem not_numeral {c : Char} (hminus : c ≠ '-') (hdigit : c.isDigit = false) (n : Numeral)
    (text : List Char) : ¬n.Spelled (c :: text) := by
  intro h
  rcases h.exists_cons with ⟨d, rest, heq, hd⟩
  rcases List.cons.inj heq with ⟨rfl, -⟩
  simp [hminus, hdigit] at hd

theorem Value.Spelled.array_cases {v : Value} {text : List Char} (h : v.Spelled ('[' :: text)) :
    (∃ between, Blank between ∧ text = between ++ [']'] ∧ v = .array []) ∨
      ∃ vs, ElementsSpelled vs text ∧ v = .array vs := by
  generalize hwhole : '[' :: text = whole at h
  cases h with
  | number hn =>
      subst hwhole
      exact absurd hn (not_numeral (by decide) (by decide) _ _)
  | emptyArray hbetween => exact .inl ⟨_, hbetween, (List.cons.inj hwhole).2, rfl⟩
  | array hvs => exact .inr ⟨_, (List.cons.inj hwhole).2 ▸ hvs, rfl⟩
  | _ => cases hwhole

theorem Value.Spelled.object_cases {v : Value} {text : List Char} (h : v.Spelled ('{' :: text)) :
    (∃ between, Blank between ∧ text = between ++ ['}'] ∧ v = .object []) ∨
      ∃ ms, MembersSpelled ms text ∧ v = .object ms := by
  generalize hwhole : '{' :: text = whole at h
  cases h with
  | number hn =>
      subst hwhole
      exact absurd hn (not_numeral (by decide) (by decide) _ _)
  | emptyObject hbetween => exact .inl ⟨_, hbetween, (List.cons.inj hwhole).2, rfl⟩
  | object hms => exact .inr ⟨_, (List.cons.inj hwhole).2 ▸ hms, rfl⟩
  | _ => cases hwhole

theorem ElementsSpelled.not_close {vs : List Value} {between : List Char} (h : Blank between) :
    ¬ElementsSpelled vs (between ++ [']']) := by
  intro hvs
  have hhead := hvs.head? []
  rw [List.append_nil, skipBlank_append h] at hhead
  exact hhead rfl

theorem MembersSpelled.not_close {ms : List (List StringItem × Value)} {between : List Char}
    (h : Blank between) : ¬MembersSpelled ms (between ++ ['}']) := by
  intro hms
  have hhead := hms.head? []
  rw [List.append_nil, skipBlank_append h] at hhead
  exact hhead rfl

/-! ### Behind an element or a member -/

theorem eq_of_blank_append {before before' more more' : List Char} {c d : Char}
    (hbefore : Blank before) (hbefore' : Blank before') (hc : isBlank c = false)
    (hd : isBlank d = false) (heq : before ++ c :: more = before' ++ d :: more') :
    c = d ∧ more = more' := by
  have hskip := congrArg skipBlank heq
  rwa [skipBlank_append hbefore, skipBlank_append hbefore', skipBlank_cons hc, skipBlank_cons hd,
    List.cons.injEq] at hskip

theorem MoreElements.ends {vs : List Value} {text : List Char} (h : MoreElements vs text) :
    EndsNumber text := by
  have hends := h.endsNumber []
  rwa [List.append_nil] at hends

theorem MoreMembers.ends {ms : List (List StringItem × Value)} {text : List Char}
    (h : MoreMembers ms text) : EndsNumber text := by
  have hends := h.endsNumber []
  rwa [List.append_nil] at hends

theorem MoreElements.eq_nil_of_close {vs : List Value} {between : List Char}
    (h : MoreElements vs (between ++ [']'])) (hbetween : Blank between) : vs = [] := by
  generalize hwhole : between ++ [']'] = whole at h
  cases h with
  | close => rfl
  | comma hblank _ =>
      have hmark := (eq_of_blank_append hbetween hblank rfl rfl hwhole).1
      exact absurd hmark (by decide)

theorem MoreElements.spelled_of_comma {vs : List Value} {between text : List Char}
    (h : MoreElements vs (between ++ ',' :: text)) (hbetween : Blank between) :
    ElementsSpelled vs text := by
  generalize hwhole : between ++ ',' :: text = whole at h
  cases h with
  | close hblank =>
      have hmark := (eq_of_blank_append hbetween hblank rfl rfl hwhole).1
      exact absurd hmark (by decide)
  | comma hblank hmore =>
      rwa [(eq_of_blank_append hbetween hblank rfl rfl hwhole).2]

theorem MoreMembers.eq_nil_of_close {ms : List (List StringItem × Value)} {between : List Char}
    (h : MoreMembers ms (between ++ ['}'])) (hbetween : Blank between) : ms = [] := by
  generalize hwhole : between ++ ['}'] = whole at h
  cases h with
  | close => rfl
  | comma hblank _ =>
      have hmark := (eq_of_blank_append hbetween hblank rfl rfl hwhole).1
      exact absurd hmark (by decide)

theorem MoreMembers.spelled_of_comma {ms : List (List StringItem × Value)}
    {between text : List Char} (h : MoreMembers ms (between ++ ',' :: text))
    (hbetween : Blank between) : MembersSpelled ms text := by
  generalize hwhole : between ++ ',' :: text = whole at h
  cases h with
  | close hblank =>
      have hmark := (eq_of_blank_append hbetween hblank rfl rfl hwhole).1
      exact absurd hmark (by decide)
  | comma hblank hmore =>
      rwa [(eq_of_blank_append hbetween hblank rfl rfl hwhole).2]

/-! ### Values -/

mutual

theorem Value.Spelled.unique {v w : Value} {text : List Char} (h : v.Spelled text)
    (hother : w.Spelled text) : v = w := by
  cases h with
  | null | yes | no =>
      cases hother with
      | number hn => exact absurd hn (not_numeral (by decide) (by decide) _ _)
      | _ => rfl
  | number hn =>
      cases hother with
      | number hm => rw [hn.unique hm]
      | _ => exact absurd hn (not_numeral (by decide) (by decide) _ _)
  | string hitems =>
      generalize hwhole : '"' :: _ = whole at hother
      cases hother with
      | number hn =>
          subst hwhole
          exact absurd hn (not_numeral (by decide) (by decide) _ _)
      | string hitems' =>
          rw [(hitems.unique_of_append hitems' (List.cons.inj hwhole).2).1]
      | _ => cases hwhole
  | emptyArray hbetween =>
      rcases hother.array_cases with ⟨_, -, -, rfl⟩ | ⟨ws, hws, rfl⟩
      · rfl
      · exact absurd hws (ElementsSpelled.not_close hbetween)
  | array hvs =>
      rcases hother.array_cases with ⟨between, hbetween, rfl, rfl⟩ | ⟨ws, hws, rfl⟩
      · exact absurd hvs (ElementsSpelled.not_close hbetween)
      · rw [hvs.unique hws]
  | emptyObject hbetween =>
      rcases hother.object_cases with ⟨_, -, -, rfl⟩ | ⟨others, hothers, rfl⟩
      · rfl
      · exact absurd hothers (MembersSpelled.not_close hbetween)
  | object hms =>
      rcases hother.object_cases with ⟨between, hbetween, rfl, rfl⟩ | ⟨others, hothers, rfl⟩
      · exact absurd hms (MembersSpelled.not_close hbetween)
      · rw [hms.unique hothers]

theorem ElementsSpelled.unique {vs ws : List Value} {text : List Char}
    (h : ElementsSpelled vs text) (hother : ElementsSpelled ws text) : vs = ws := by
  rcases elementsSpelled_iff.1 hother with
    ⟨w, others, before', text', tail', rfl, hbefore', hw, htail', heq⟩
  cases h with
  | last hbefore hv hafter =>
      rcases hv.ends hbefore hbefore' hw (MoreElements.close hafter).ends htail'.ends heq with
        ⟨rfl, rfl⟩
      rw [hv.unique hw, htail'.eq_nil_of_close hafter]
  | cons hbefore hv hafter hmore =>
      rcases hv.ends hbefore hbefore' hw (MoreElements.comma hafter hmore).ends htail'.ends heq with
        ⟨rfl, rfl⟩
      rw [hv.unique hw, hmore.unique (htail'.spelled_of_comma hafter)]

theorem MembersSpelled.unique {ms others : List (List StringItem × Value)} {text : List Char}
    (h : MembersSpelled ms text) (hother : MembersSpelled others text) : ms = others := by
  rcases membersSpelled_iff.1 hother with
    ⟨k', w, others, key', before', text', tail', rfl, hk', hbefore', hw, htail', heq⟩
  cases h with
  | last hk hbefore hv hafter =>
      rcases hk.unique hk' heq with ⟨rfl, hvalue⟩
      rcases hv.ends hbefore hbefore' hw (MoreMembers.close hafter).ends htail'.ends hvalue with
        ⟨rfl, rfl⟩
      rw [hv.unique hw, htail'.eq_nil_of_close hafter]
  | cons hk hbefore hv hafter hmore =>
      rcases hk.unique hk' heq with ⟨rfl, hvalue⟩
      rcases hv.ends hbefore hbefore' hw (MoreMembers.comma hafter hmore).ends htail'.ends hvalue
        with ⟨rfl, rfl⟩
      rw [hv.unique hw, hmore.unique (htail'.spelled_of_comma hafter)]

end

/-- A text spells at most one value. -/
theorem Spells.unique {text : List Char} {v w : Value} (h : Spells text v)
    (hother : Spells text w) : w = v := by
  rcases h with ⟨before, spelled, after, hbefore, hv, hafter, rfl⟩
  rcases hother with ⟨before', spelled', after', hbefore', hw, hafter', heq⟩
  rcases hv.ends hbefore hbefore' hw (.of_blank hafter) (.of_blank hafter') heq with ⟨rfl, -⟩
  exact hw.unique hv

end PseudoLru.Json
