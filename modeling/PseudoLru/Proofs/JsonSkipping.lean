import PseudoLru.Proofs.JsonNumbers

/-!
# Skipping values, up to the end of the text

A value that is skipped is well formed, and every well-formed value is skipped,
however deep its brackets nest.  The brackets that are open say what has to come
behind the value that is being skipped.

A round takes something off the text and leaves the rest to the rounds that
follow.  So the number of rounds only has to exceed the length of the text, and the
proofs use a form without it.
-/

namespace PseudoLru.Json

/-! ### Keys and scalars -/

theorem readContent?_false (items : List StringItem) :
    readContent? false items = some (looseContent items) := rfl

theorem skipKey_eq_ok_iff {text rest : List Char} :
    skipKey text = .ok rest ↔ ∃ k spelled, KeySpelled k spelled ∧ text = spelled ++ rest := by
  simp only [skipKey, bind_eq_ok_iff, Prod.exists, string_eq_ok_iff,
    mark_eq_ok_iff (show isBlank '"' = false from rfl),
    mark_eq_ok_iff (show isBlank ':' = false from rfl)]
  constructor
  · rintro ⟨_, _, ⟨before, hbefore, rfl⟩, _, _, ⟨items, spelled, rfl, hspelled, -⟩, _, _,
      ⟨between, hbetween, rfl⟩, h⟩
    cases h
    exact ⟨items, _, .mk hbefore hspelled hbetween, by simp⟩
  · rintro ⟨items, _, ⟨hbefore, hspelled, hbetween⟩, rfl⟩
    exact ⟨(), _, ⟨_, hbefore, by simp; rfl⟩, _, _,
      ⟨items, _, rfl, hspelled, readContent?_false items⟩, (), rest,
      ⟨_, hbetween, by simp⟩, rfl⟩

theorem map_snd_eq_ok_iff {α : Type} {x : Except Flaw (α × List Char)} {rest : List Char} :
    x.map (·.2) = .ok rest ↔ ∃ a, x = .ok (a, rest) := by
  cases x <;> simp [Except.map, Prod.ext_iff]

theorem skipScalar_sound {text rest : List Char} (h : skipScalar text = .ok rest) :
    ∃ (v : Value) (spelled : List Char), v.Spelled spelled ∧ text = spelled ++ rest := by
  rcases text with _ | ⟨c, text⟩
  · cases h
  · rw [skipScalar] at h
    split_ifs at h with hnull hyes hno hquote hnumber <;>
      rcases map_snd_eq_ok_iff.1 h with ⟨a, hread⟩
    · exact ⟨_, _, .null, by rw [hnull, literal_eq_ok_iff.1 hread]; rfl⟩
    · exact ⟨_, _, .yes, by rw [hyes, literal_eq_ok_iff.1 hread]; rfl⟩
    · exact ⟨_, _, .no, by rw [hno, literal_eq_ok_iff.1 hread]; rfl⟩
    · rcases string_eq_ok_iff.1 hread with ⟨items, spelled, rfl, hspelled, -⟩
      exact ⟨_, _, .string hspelled, by simp [hquote]⟩
    · rcases numeral_sound hread with ⟨spelled, hspelled, htext⟩
      exact ⟨_, _, .number hspelled, htext⟩

theorem length_skipBlank_le (text : List Char) : (skipBlank text).length ≤ text.length :=
  List.length_dropWhile_le isBlank text

theorem length_lt_of_skipBlank {text rest : List Char} {c : Char}
    (h : skipBlank text = c :: rest) : rest.length < text.length := by
  have hle := length_skipBlank_le text
  rw [h, List.length_cons] at hle
  omega

theorem KeySpelled.length_pos {k : List StringItem} {spelled : List Char}
    (h : KeySpelled k spelled) : 0 < spelled.length := by
  cases h
  simp

theorem length_lt_of_skipKey {text rest : List Char} (h : skipKey text = .ok rest) :
    rest.length < text.length := by
  rcases skipKey_eq_ok_iff.1 h with ⟨k, spelled, hspelled, rfl⟩
  simpa using hspelled.length_pos

theorem Value.Spelled.length_pos {v : Value} {spelled : List Char} (h : v.Spelled spelled) :
    0 < spelled.length := by
  cases h with
  | number h =>
      rcases h.exists_cons with ⟨c, text, rfl, -⟩
      simp
  | _ => simp

theorem length_lt_of_skipScalar {text rest : List Char} (h : skipScalar text = .ok rest) :
    rest.length < text.length := by
  rcases skipScalar_sound h with ⟨v, spelled, hspelled, rfl⟩
  simpa using hspelled.length_pos

/-! ### One round -/

/-- What skips a value, if one is due, and all up to the end of the open brackets. -/
abbrev Skipper := (due : Bool) → (inside : List Bracket) → List Char → Except Flaw (List Char)

def skipDue (go : Skipper) (inside : List Bracket) (text : List Char) : Except Flaw (List Char) :=
  match skipBlank text with
  | '[' :: text =>
      match skipBlank text with
      | ']' :: text => go false inside text
      | text => go true (.square :: inside) text
  | '{' :: text =>
      match skipBlank text with
      | '}' :: text => go false inside text
      | text => skipKey text >>= go true (.curly :: inside)
  | text => skipScalar text >>= go false inside

def skipInArray (go : Skipper) (inside : List Bracket) (text : List Char) :
    Except Flaw (List Char) :=
  match skipBlank text with
  | [] => .error .unexpectedEnd
  | ',' :: text => go true (.square :: inside) text
  | ']' :: text => go false inside text
  | _ => .error .malformed

def skipInObject (go : Skipper) (inside : List Bracket) (text : List Char) :
    Except Flaw (List Char) :=
  match skipBlank text with
  | [] => .error .unexpectedEnd
  | ',' :: text => skipKey text >>= go true (.curly :: inside)
  | '}' :: text => go false inside text
  | _ => .error .malformed

/-- Skips the next part and leaves what follows to `go`. -/
def skipRound (go : Skipper) : Skipper
  | true, inside, text => skipDue go inside text
  | false, [], text => .ok text
  | false, .square :: inside, text => skipInArray go inside text
  | false, .curly :: inside, text => skipInObject go inside text

theorem skipWithin_succ (rounds : Nat) (due : Bool) (inside : List Bracket) (text : List Char) :
    skipWithin (rounds + 1) due inside text = skipRound (skipWithin rounds) due inside text := by
  cases due with
  | true => rfl
  | false => rcases inside with _ | ⟨_ | _, inside⟩ <;> rfl

section

variable {go others : Skipper} {due : Bool} {inside : List Bracket} {text : List Char}

theorem skipDue_congr (h : ∀ due inside rest, rest.length < text.length →
    go due inside rest = others due inside rest) :
    skipDue go inside text = skipDue others inside text := by
  unfold skipDue
  split
  · next opened hopened =>
      have hlt := length_lt_of_skipBlank hopened
      split
      · next closed hclosed => exact h _ _ _ ((length_lt_of_skipBlank hclosed).trans hlt)
      · exact h _ _ _ ((length_skipBlank_le opened).trans_lt hlt)
  · next opened hopened =>
      have hlt := length_lt_of_skipBlank hopened
      split
      · next closed hclosed => exact h _ _ _ ((length_lt_of_skipBlank hclosed).trans hlt)
      · refine bind_congr_ok fun rest hrest => h _ _ _ ?_
        exact (length_lt_of_skipKey hrest).trans ((length_skipBlank_le opened).trans_lt hlt)
  · refine bind_congr_ok fun rest hrest => h _ _ _ ?_
    exact (length_lt_of_skipScalar hrest).trans_le (length_skipBlank_le text)

/-- A round leaves a shorter text. -/
theorem skipRound_congr (h : ∀ due inside rest, rest.length < text.length →
    go due inside rest = others due inside rest) :
    skipRound go due inside text = skipRound others due inside text := by
  cases due with
  | true => exact skipDue_congr h
  | false =>
      rcases inside with _ | ⟨_ | _, inside⟩
      · rfl
      · rw [skipRound, skipRound, skipInArray, skipInArray]
        split
        · rfl
        · next rest hrest => exact h _ _ _ (length_lt_of_skipBlank hrest)
        · next rest hrest => exact h _ _ _ (length_lt_of_skipBlank hrest)
        · rfl
      · rw [skipRound, skipRound, skipInObject, skipInObject]
        split
        · rfl
        · next rest hrest =>
            refine bind_congr_ok fun behind hbehind => h _ _ _ ?_
            exact (length_lt_of_skipKey hbehind).trans (length_lt_of_skipBlank hrest)
        · next rest hrest => exact h _ _ _ (length_lt_of_skipBlank hrest)
        · rfl

end

/-! ### As many rounds as needed -/

/-- Rounds that are not needed change nothing. -/
theorem skipWithin_congr {rounds others : Nat} {due : Bool} {inside : List Bracket}
    {text : List Char} (hrounds : text.length < rounds) (hothers : text.length < others) :
    skipWithin rounds due inside text = skipWithin others due inside text := by
  induction rounds generalizing others due inside text with
  | zero => omega
  | succ rounds ih =>
      rcases others with _ | others
      · omega
      rw [skipWithin_succ, skipWithin_succ]
      refine skipRound_congr fun due inside rest hrest => ?_
      exact ih (by omega) (by omega)

/-- Skips a value, if one is due, and all up to the end of the open brackets. -/
def skip (due : Bool) (inside : List Bracket) (text : List Char) : Except Flaw (List Char) :=
  skipWithin (text.length + 1) due inside text

theorem skipWithin_eq_skip {rounds : Nat} {due : Bool} {inside : List Bracket} {text : List Char}
    (h : text.length < rounds) : skipWithin rounds due inside text = skip due inside text :=
  skipWithin_congr h (Nat.lt_succ_self _)

theorem skip_eq_skipRound (due : Bool) (inside : List Bracket) (text : List Char) :
    skip due inside text = skipRound skip due inside text := by
  rw [skip, skipWithin_succ]
  exact skipRound_congr fun due inside rest hrest => skipWithin_eq_skip hrest

theorem skipValue_eq {rounds : Nat} {text : List Char} (h : text.length < rounds) :
    skipValue rounds text = (skip true [] text).map fun rest => ((), rest) := by
  rw [skipValue, skipWithin_eq_skip h]
  cases skip true [] text <;> rfl

section

variable {inside : List Bracket} {before text : List Char}

theorem skip_due (inside : List Bracket) (text : List Char) :
    skip true inside text = skipDue skip inside text :=
  skip_eq_skipRound true inside text

theorem skip_inArray (inside : List Bracket) (text : List Char) :
    skip false (.square :: inside) text = skipInArray skip inside text :=
  skip_eq_skipRound false (.square :: inside) text

theorem skip_inObject (inside : List Bracket) (text : List Char) :
    skip false (.curly :: inside) text = skipInObject skip inside text :=
  skip_eq_skipRound false (.curly :: inside) text

theorem skip_due_append (hbefore : Blank before) (text : List Char) :
    skip true inside (before ++ text) = skip true inside text := by
  rw [skip_due, skip_due, skipDue, skipDue, skipBlank_append hbefore]

theorem skip_within_append (hbefore : Blank before) (bracket : Bracket) (text : List Char) :
    skip false (bracket :: inside) (before ++ text) = skip false (bracket :: inside) text := by
  cases bracket with
  | square =>
      rw [skip_inArray, skip_inArray, skipInArray, skipInArray, skipBlank_append hbefore]
  | curly =>
      rw [skip_inObject, skip_inObject, skipInObject, skipInObject, skipBlank_append hbefore]

theorem skip_due_nil (inside : List Bracket) : skip true inside [] = .error .unexpectedEnd := rfl

theorem skip_within_nil (bracket : Bracket) (inside : List Bracket) :
    skip false (bracket :: inside) [] = .error .unexpectedEnd := by
  cases bracket <;> rfl

theorem skip_emptyArray (hbefore : Blank before) (text : List Char) :
    skip true inside ('[' :: (before ++ ']' :: text)) = skip false inside text := by
  have hblank : skipBlank (before ++ ']' :: text) = ']' :: text := by
    rw [skipBlank_append hbefore, skipBlank_cons rfl]
  rw [skip_due, skipDue, skipBlank_cons rfl]
  simp only [hblank]

theorem skip_array (h : (skipBlank text).head? ≠ some ']') :
    skip true inside ('[' :: text) = skip true (.square :: inside) text := by
  have ⟨before, hbefore, htext⟩ := exists_blank text
  have hskip : skip true (.square :: inside) text =
      skip true (.square :: inside) (skipBlank text) := by
    rw [← skip_due_append hbefore (skipBlank text), ← htext]
  rw [hskip, skip_due, skipDue]
  simp only [skipBlank_cons (show isBlank '[' = false from rfl)]
  generalize skipBlank text = inner at h
  split
  · exact absurd rfl h
  · rfl

theorem skip_emptyObject (hbefore : Blank before) (text : List Char) :
    skip true inside ('{' :: (before ++ '}' :: text)) = skip false inside text := by
  have hblank : skipBlank (before ++ '}' :: text) = '}' :: text := by
    rw [skipBlank_append hbefore, skipBlank_cons rfl]
  rw [skip_due, skipDue, skipBlank_cons rfl]
  simp only [hblank]

theorem skipKey_append (hbefore : Blank before) (text : List Char) :
    skipKey (before ++ text) = skipKey text := by
  simp only [skipKey, mark, skipBlank_append hbefore]

theorem skip_object (h : (skipBlank text).head? ≠ some '}') :
    skip true inside ('{' :: text) = skipKey text >>= skip true (.curly :: inside) := by
  have ⟨before, hbefore, htext⟩ := exists_blank text
  have hkey : skipKey text = skipKey (skipBlank text) := by
    rw [← skipKey_append hbefore (skipBlank text), ← htext]
  rw [hkey, skip_due, skipDue]
  simp only [skipBlank_cons (show isBlank '{' = false from rfl)]
  generalize skipBlank text = inner at h
  split
  · exact absurd rfl h
  · rfl

theorem skip_comma_element (text : List Char) :
    skip false (.square :: inside) (',' :: text) = skip true (.square :: inside) text :=
  skip_inArray inside (',' :: text)

theorem skip_closeArray (text : List Char) :
    skip false (.square :: inside) (']' :: text) = skip false inside text :=
  skip_inArray inside (']' :: text)

theorem skip_comma_member (text : List Char) :
    skip false (.curly :: inside) (',' :: text) =
      skipKey text >>= skip true (.curly :: inside) :=
  skip_inObject inside (',' :: text)

theorem skip_closeObject (text : List Char) :
    skip false (.curly :: inside) ('}' :: text) = skip false inside text :=
  skip_inObject inside ('}' :: text)

theorem skip_scalar {c : Char} (hblank : isBlank c = false) (hsquare : c ≠ '[') (hcurly : c ≠ '{')
    (text : List Char) :
    skip true inside (c :: text) = skipScalar (c :: text) >>= skip false inside := by
  rw [skip_due, skipDue, skipBlank_cons hblank]
  split
  · next heq => exact absurd (List.cons.inj heq).1 hsquare
  · next heq => exact absurd (List.cons.inj heq).1 hcurly
  · rfl

end

/-! ### What was skipped is well formed -/

/-- The text up to the end of the open brackets, from behind a value in the
innermost of them. -/
inductive Closes : List Bracket → List Char → Prop
  | nil : Closes [] []
  | closeArray {inside : List Bracket} {before text : List Char} :
      Blank before → Closes inside text → Closes (.square :: inside) (before ++ ']' :: text)
  | elements {inside : List Bracket} {vs : List Value} {before more text : List Char} :
      Blank before → ElementsSpelled vs more → Closes inside text →
        Closes (.square :: inside) (before ++ ',' :: (more ++ text))
  | closeObject {inside : List Bracket} {before text : List Char} :
      Blank before → Closes inside text → Closes (.curly :: inside) (before ++ '}' :: text)
  | members {inside : List Bracket} {ms : List (List StringItem × Value)}
      {before more text : List Char} :
      Blank before → MembersSpelled ms more → Closes inside text →
        Closes (.curly :: inside) (before ++ ',' :: (more ++ text))

theorem Blank.append {before after : List Char} (h : Blank before) (hafter : Blank after) :
    Blank (before ++ after) :=
  blank_append_iff.2 ⟨h, hafter⟩

theorem KeySpelled.blank_append {k : List StringItem} {before spelled : List Char}
    (h : KeySpelled k spelled) (hbefore : Blank before) : KeySpelled k (before ++ spelled) := by
  rcases h with ⟨hinner, htext, hbetween⟩
  rw [← List.append_assoc]
  exact .mk (Blank.append hbefore hinner) htext hbetween

/-- What is skipped: a value if one is due, and the end of the open brackets. -/
def Skips (due : Bool) (inside : List Bracket) (text : List Char) : Prop :=
  if due then
    ∃ (before : List Char) (v : Value) (spelled rest : List Char),
      Blank before ∧ v.Spelled spelled ∧ Closes inside rest ∧ text = before ++ (spelled ++ rest)
  else
    Closes inside text

theorem Skips.array {inside : List Bracket} {before text : List Char}
    (h : Skips true (.square :: inside) text) (hbefore : Blank before) :
    ∃ vs elements rest, ElementsSpelled vs elements ∧ Closes inside rest ∧
      before ++ text = elements ++ rest := by
  rcases h with ⟨between, v, spelled, rest, hbetween, hv, hrest, rfl⟩
  cases hrest with
  | closeArray hafter hrest =>
      exact ⟨_, _, _, .last (hbefore.append hbetween) hv hafter, hrest, by simp⟩
  | elements hafter hmore hrest =>
      exact ⟨_, _, _, .cons (hbefore.append hbetween) hv hafter hmore, hrest, by simp⟩

theorem Skips.object {inside : List Bracket} {k : List StringItem} {key text : List Char}
    (h : Skips true (.curly :: inside) text) (hk : KeySpelled k key) :
    ∃ ms members rest, MembersSpelled ms members ∧ Closes inside rest ∧
      key ++ text = members ++ rest := by
  rcases h with ⟨between, v, spelled, rest, hbetween, hv, hrest, rfl⟩
  cases hrest with
  | closeObject hafter hrest =>
      exact ⟨_, _, _, .last hk hbetween hv hafter, hrest, by simp⟩
  | members hafter hmore hrest =>
      exact ⟨_, _, _, .cons hk hbetween hv hafter hmore, hrest, by simp⟩

/-- Only what is well formed is skipped. -/
def Skipper.Sound (go : Skipper) : Prop :=
  ∀ {due : Bool} {inside : List Bracket} {text rest : List Char}, go due inside text = .ok rest →
    ∃ spelled, Skips due inside spelled ∧ text = spelled ++ rest

section

variable {go : Skipper} {inside : List Bracket} {text rest : List Char}

theorem Skipper.Sound.skipDue (ih : go.Sound) (h : skipDue go inside text = .ok rest) :
    ∃ spelled, Skips true inside spelled ∧ text = spelled ++ rest := by
  have ⟨before, hbefore, htext⟩ := exists_blank text
  unfold Json.skipDue at h
  split at h
  · next opened hopened =>
      have ⟨between, hbetween, hinner⟩ := exists_blank opened
      split at h
      · next closed hclosed =>
          rcases ih h with ⟨tail, htail, rfl⟩
          refine ⟨_, ⟨before, _, _, tail, hbefore, .emptyArray hbetween, htail, rfl⟩, ?_⟩
          rw [htext, hopened, hinner, hclosed]
          simp
      · rcases ih h with ⟨inner, hskips, heq⟩
        rcases hskips.array hbetween with ⟨vs, elements, tail, helements, htail, hsplit⟩
        refine ⟨_, ⟨before, _, _, tail, hbefore, .array helements, htail, rfl⟩, ?_⟩
        rw [htext, hopened, hinner, heq, ← List.append_assoc between, hsplit]
        simp
  · next opened hopened =>
      have ⟨between, hbetween, hinner⟩ := exists_blank opened
      split at h
      · next closed hclosed =>
          rcases ih h with ⟨tail, htail, rfl⟩
          refine ⟨_, ⟨before, _, _, tail, hbefore, .emptyObject hbetween, htail, rfl⟩, ?_⟩
          rw [htext, hopened, hinner, hclosed]
          simp
      · rcases bind_eq_ok_iff.1 h with ⟨behind, hkey, hbehind⟩
        rcases skipKey_eq_ok_iff.1 hkey with ⟨k, key, hk, hkeyText⟩
        rcases ih hbehind with ⟨inner, hskips, rfl⟩
        rcases hskips.object (hk.blank_append hbetween) with
          ⟨ms, members, tail, hmembers, htail, hsplit⟩
        refine ⟨_, ⟨before, _, _, tail, hbefore, .object hmembers, htail, rfl⟩, ?_⟩
        rw [htext, hopened, hinner, hkeyText, ← List.append_assoc key,
          ← List.append_assoc between, ← List.append_assoc between, hsplit]
        simp
  · rcases bind_eq_ok_iff.1 h with ⟨behind, hscalar, hbehind⟩
    rcases skipScalar_sound hscalar with ⟨v, spelled, hv, hvalue⟩
    rcases ih hbehind with ⟨tail, htail, rfl⟩
    refine ⟨_, ⟨before, v, spelled, tail, hbefore, hv, htail, rfl⟩, ?_⟩
    rw [htext, hvalue]
    simp

theorem Skipper.Sound.skipInArray (ih : go.Sound) (h : skipInArray go inside text = .ok rest) :
    ∃ spelled, Skips false (.square :: inside) spelled ∧ text = spelled ++ rest := by
  have ⟨before, hbefore, htext⟩ := exists_blank text
  unfold Json.skipInArray at h
  split at h
  · cases h
  · next opened hopened =>
      rcases ih h with ⟨inner, hskips, rfl⟩
      rcases hskips.array Blank.nil with ⟨vs, elements, tail, helements, htail, hsplit⟩
      refine ⟨_, Closes.elements hbefore helements htail, ?_⟩
      rw [htext, hopened, ← hsplit]
      simp
  · next opened hopened =>
      rcases ih h with ⟨tail, htail, rfl⟩
      refine ⟨_, Closes.closeArray hbefore htail, ?_⟩
      rw [htext, hopened]
      simp
  · cases h

theorem Skipper.Sound.skipInObject (ih : go.Sound) (h : skipInObject go inside text = .ok rest) :
    ∃ spelled, Skips false (.curly :: inside) spelled ∧ text = spelled ++ rest := by
  have ⟨before, hbefore, htext⟩ := exists_blank text
  unfold Json.skipInObject at h
  split at h
  · cases h
  · next opened hopened =>
      rcases bind_eq_ok_iff.1 h with ⟨behind, hkey, hbehind⟩
      rcases skipKey_eq_ok_iff.1 hkey with ⟨k, key, hk, rfl⟩
      rcases ih hbehind with ⟨inner, hskips, rfl⟩
      rcases hskips.object hk with ⟨ms, members, tail, hmembers, htail, hsplit⟩
      refine ⟨_, Closes.members hbefore hmembers htail, ?_⟩
      rw [htext, hopened, ← hsplit]
      simp
  · next opened hopened =>
      rcases ih h with ⟨tail, htail, rfl⟩
      refine ⟨_, Closes.closeObject hbefore htail, ?_⟩
      rw [htext, hopened]
      simp
  · cases h

theorem Skipper.Sound.skipRound (ih : go.Sound) : (skipRound go).Sound := by
  intro due inside text rest h
  cases due with
  | true => exact ih.skipDue h
  | false =>
      rcases inside with _ | ⟨_ | _, inside⟩
      · cases h
        exact ⟨[], Closes.nil, rfl⟩
      · exact ih.skipInArray h
      · exact ih.skipInObject h

end

theorem skipWithin_sound (rounds : Nat) : Skipper.Sound (skipWithin rounds) := by
  induction rounds with
  | zero =>
      intro due inside text rest h
      cases h
  | succ rounds ih =>
      intro due inside text rest h
      rw [skipWithin_succ] at h
      exact ih.skipRound h

/-- A value that was skipped is spelled in front of the rest. -/
theorem skipValue_sound {rounds : Nat} {text : List Char} {u : Unit} {rest : List Char}
    (h : skipValue rounds text = .ok (u, rest)) :
    ∃ (before : List Char) (v : Value) (spelled : List Char),
      Blank before ∧ v.Spelled spelled ∧ text = before ++ (spelled ++ rest) := by
  rcases bind_eq_ok_iff.1 h with ⟨behind, hskip, h⟩
  cases h
  rcases skipWithin_sound _ hskip with ⟨_, ⟨before, v, spelled, _, hbefore, hv, ⟨⟩, rfl⟩, rfl⟩
  exact ⟨before, v, spelled, hbefore, hv, by simp⟩

/-! ### What is well formed is skipped -/

theorem ne_of_isDigit {c d : Char} (hc : c.isDigit = true) (hd : d.isDigit = false) : c ≠ d := by
  rintro rfl
  simp [hc] at hd

theorem isBlank_of_isDigit {c : Char} (hc : c.isDigit = true) : isBlank c = false := by
  simp [isBlank, ne_of_isDigit hc]

/-- A value starts with a character that is no white space and no mark. -/
theorem Value.Spelled.exists_cons {v : Value} {spelled : List Char} (h : v.Spelled spelled) :
    ∃ c text, spelled = c :: text ∧ isBlank c = false ∧ c ≠ ']' ∧ c ≠ ',' := by
  cases h with
  | number h =>
      rcases h.exists_cons with ⟨c, text, rfl, rfl | hc⟩
      · exact ⟨_, _, rfl, by decide⟩
      · exact ⟨c, text, rfl, isBlank_of_isDigit hc, ne_of_isDigit hc rfl, ne_of_isDigit hc rfl⟩
  | _ => exact ⟨_, _, rfl, by decide⟩

theorem skip_numeral {c : Char} (hc : c = '-' ∨ c.isDigit = true) (inside : List Bracket)
    (text : List Char) :
    skip true inside (c :: text) =
      (numeral .malformed (c :: text)).map (·.2) >>= skip false inside := by
  rcases hc with rfl | hc
  · exact skip_scalar rfl (by decide) (by decide) text
  · rw [skip_scalar (isBlank_of_isDigit hc) (ne_of_isDigit hc rfl) (ne_of_isDigit hc rfl),
      skipScalar, if_neg (ne_of_isDigit hc rfl), if_neg (ne_of_isDigit hc rfl),
      if_neg (ne_of_isDigit hc rfl), if_neg (ne_of_isDigit hc rfl), if_pos (.inr hc)]

theorem ElementsSpelled.head? {vs : List Value} {spelled : List Char}
    (h : ElementsSpelled vs spelled) (rest : List Char) :
    (skipBlank (spelled ++ rest)).head? ≠ some ']' := by
  cases h with
  | last hbefore hv _ | cons hbefore hv _ _ =>
      rcases hv.exists_cons with ⟨c, text, rfl, hblank, hc, -⟩
      rw [List.append_assoc, skipBlank_append hbefore, List.cons_append, List.cons_append,
        skipBlank_cons hblank]
      simpa using hc

theorem MembersSpelled.head? {ms : List (List StringItem × Value)} {spelled : List Char}
    (h : MembersSpelled ms spelled) (rest : List Char) :
    (skipBlank (spelled ++ rest)).head? ≠ some '}' := by
  cases h with
  | last hkey _ _ _ | cons hkey _ _ _ _ =>
      rcases hkey with ⟨hbefore, -, -⟩
      rw [List.append_assoc, List.append_assoc, skipBlank_append hbefore, List.cons_append,
        skipBlank_cons rfl]
      simp

mutual

theorem Value.Spelled.skip_append {v : Value} {spelled : List Char} (h : v.Spelled spelled)
    (inside : List Bracket) {rest : List Char} (hrest : EndsNumber rest) :
    skip true inside (spelled ++ rest) = skip false inside rest := by
  cases h with
  | null => exact skip_scalar rfl (by decide) (by decide) _
  | yes => exact skip_scalar rfl (by decide) (by decide) _
  | no => exact skip_scalar rfl (by decide) (by decide) _
  | number h =>
      rcases h.exists_cons with ⟨c, text, rfl, hc⟩
      rw [List.cons_append, skip_numeral hc, ← List.cons_append,
        numeral_complete .malformed h hrest]
      rfl
  | @string items text h =>
      have hstring : string false (text ++ '"' :: rest) = .ok (looseContent items, rest) :=
        string_eq_ok_iff.2 ⟨items, text, rfl, h, readContent?_false items⟩
      have hscalar : skipScalar ('"' :: (text ++ '"' :: rest)) = .ok rest := by
        simp [skipScalar, hstring, Except.map]
      have htext : '"' :: (text ++ ['"']) ++ rest = '"' :: (text ++ '"' :: rest) := by simp
      rw [htext, skip_scalar rfl (by decide) (by decide), hscalar]
      rfl
  | @emptyArray between h =>
      have htext : '[' :: (between ++ [']']) ++ rest = '[' :: (between ++ ']' :: rest) := by simp
      rw [htext, skip_emptyArray h]
  | array h =>
      rw [List.cons_append, skip_array (h.head? rest), h.skip_append inside rest]
  | @emptyObject between h =>
      have htext : '{' :: (between ++ ['}']) ++ rest = '{' :: (between ++ '}' :: rest) := by simp
      rw [htext, skip_emptyObject h]
  | object h =>
      rw [List.cons_append, skip_object (h.head? rest), h.skip_append inside rest]

theorem ElementsSpelled.skip_append {vs : List Value} {spelled : List Char}
    (h : ElementsSpelled vs spelled) (inside : List Bracket) (rest : List Char) :
    skip true (.square :: inside) (spelled ++ rest) = skip false inside rest := by
  cases h with
  | @last v before text after hbefore hv hafter =>
      have htext : before ++ (text ++ (after ++ [']'])) ++ rest =
          before ++ (text ++ (after ++ ']' :: rest)) := by simp
      have hends : EndsNumber (after ++ ']' :: rest) :=
        EndsNumber.append hafter (by simp [EndsNumber])
      rw [htext, skip_due_append hbefore, hv.skip_append _ hends, skip_within_append hafter,
        skip_closeArray]
  | @cons v vs before text after more hbefore hv hafter hmore =>
      have htext : before ++ (text ++ (after ++ ',' :: more)) ++ rest =
          before ++ (text ++ (after ++ ',' :: (more ++ rest))) := by simp
      have hends : EndsNumber (after ++ ',' :: (more ++ rest)) :=
        EndsNumber.append hafter (by simp [EndsNumber])
      rw [htext, skip_due_append hbefore, hv.skip_append _ hends, skip_within_append hafter,
        skip_comma_element, hmore.skip_append inside rest]

theorem MembersSpelled.skip_append {ms : List (List StringItem × Value)} {spelled : List Char}
    (h : MembersSpelled ms spelled) (inside : List Bracket) (rest : List Char) :
    (skipKey (spelled ++ rest) >>= skip true (.curly :: inside)) = skip false inside rest := by
  cases h with
  | @last k v key before text after hkey hbefore hv hafter =>
      have htext : key ++ (before ++ (text ++ (after ++ ['}']))) ++ rest =
          key ++ (before ++ (text ++ (after ++ '}' :: rest))) := by simp
      have hends : EndsNumber (after ++ '}' :: rest) :=
        EndsNumber.append hafter (by simp [EndsNumber])
      rw [htext, skipKey_eq_ok_iff.2 ⟨k, key, hkey, rfl⟩]
      change skip true _ (before ++ _) = _
      rw [skip_due_append hbefore, hv.skip_append _ hends, skip_within_append hafter,
        skip_closeObject]
  | @cons k v ms key before text after more hkey hbefore hv hafter hmore =>
      have htext : key ++ (before ++ (text ++ (after ++ ',' :: more))) ++ rest =
          key ++ (before ++ (text ++ (after ++ ',' :: (more ++ rest)))) := by simp
      have hends : EndsNumber (after ++ ',' :: (more ++ rest)) :=
        EndsNumber.append hafter (by simp [EndsNumber])
      rw [htext, skipKey_eq_ok_iff.2 ⟨k, key, hkey, rfl⟩]
      change skip true _ (before ++ _) = _
      rw [skip_due_append hbefore, hv.skip_append _ hends, skip_within_append hafter,
        skip_comma_member, hmore.skip_append inside rest]

end

end PseudoLru.Json
