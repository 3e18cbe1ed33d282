import PseudoLru.Proofs.JsonLexemes

/-!
# Numbers in JSON

A number goes on as long as it can, so it is read alike in front of every text
that cannot continue it.  Cut short it may be a shorter number; otherwise it ends
where a digit is due, behind its sign, its point or the mark or sign of its
exponent.
-/

namespace PseudoLru.Json

/-- A cut through two texts goes through the first, or behind it. -/
theorem append_eq_append_cases {p s x y : List Char} (h : p ++ s = x ++ y) :
    (∃ x', x' ≠ [] ∧ x = p ++ x' ∧ s = x' ++ y) ∨ ∃ p', p = x ++ p' ∧ y = p' ++ s := by
  rcases List.append_eq_append_iff.1 h with ⟨x', hx, hs⟩ | ⟨p', hp, hy⟩
  · by_cases hnil : x' = []
    · subst hnil
      exact .inr ⟨[], by simpa using hx.symm, by simpa using hs.symm⟩
    · exact .inl ⟨x', hnil, hx, hs⟩
  · exact .inr ⟨p', hp, hy⟩

/-! ### Digits -/

def NoDigit (text : List Char) : Prop := text.takeWhile Char.isDigit = []

theorem noDigit_cons_iff {c : Char} {text : List Char} :
    NoDigit (c :: text) ↔ c.isDigit = false := by
  simp [NoDigit]

theorem dropWhile_of_noDigit {text : List Char} (h : NoDigit text) :
    text.dropWhile Char.isDigit = text := by
  cases text with
  | nil => rfl
  | cons c text => simp [noDigit_cons_iff.1 h]

theorem noDigit_dropWhile (text : List Char) : NoDigit (text.dropWhile Char.isDigit) := by
  induction text with
  | nil => rfl
  | cons c text ih => cases hc : c.isDigit <;> simp [hc, ih, noDigit_cons_iff]

theorem digits_eq_ok_iff {atEnd : Flaw} {text ds rest : List Char} :
    digits atEnd text = .ok (ds, rest) ↔ AreDigits ds ∧ NoDigit rest ∧ text = ds ++ rest := by
  unfold digits
  constructor
  · intro h
    split_ifs at h with hend hnone
    cases h
    exact ⟨⟨by simpa using hnone, fun _ => List.mem_takeWhile_imp⟩, noDigit_dropWhile text,
      List.takeWhile_append_dropWhile.symm⟩
  · rintro ⟨⟨hne, hds⟩, hrest, rfl⟩
    have htake : (ds ++ rest).takeWhile Char.isDigit = ds := by
      rw [List.takeWhile_append_of_pos hds, hrest, List.append_nil]
    have hdrop : (ds ++ rest).dropWhile Char.isDigit = rest := by
      rw [List.dropWhile_append_of_pos hds, dropWhile_of_noDigit hrest]
    simp [htake, hdrop, hne]

theorem wholeDigits_eq_ok_iff {atEnd : Flaw} {text ds rest : List Char} :
    wholeDigits atEnd text = .ok (ds, rest) ↔
      AreDigits ds ∧ (ds.head? = some '0' → ds = ['0']) ∧ NoDigit rest ∧ text = ds ++ rest := by
  unfold wholeDigits
  split
  · next text =>
      constructor
      · intro h
        split_ifs at h with hmore
        cases h
        exact ⟨by simp [AreDigits], fun _ => rfl, by simpa [NoDigit] using hmore, rfl⟩
      · rintro ⟨⟨hne, -⟩, hzero, hrest, heq⟩
        rcases ds with _ | ⟨d, ds⟩
        · exact absurd rfl hne
        · rw [List.cons_append, List.cons.injEq] at heq
          rcases heq with ⟨rfl, rfl⟩
          have hnil : ds = [] := by simpa using hzero rfl
          subst hnil
          have htake : rest.takeWhile Char.isDigit = [] := hrest
          simp [htake]
  · next hother =>
      rw [digits_eq_ok_iff]
      constructor
      · rintro ⟨hds, hrest, rfl⟩
        refine ⟨hds, ?_, hrest, rfl⟩
        intro hhead
        rcases ds with _ | ⟨d, ds⟩
        · cases hhead
        · cases hhead
          exact absurd rfl (hother _)
      · rintro ⟨hds, -, hrest, heq⟩
        exact ⟨hds, hrest, heq⟩

/-! ### Numbers -/

/-- No number that ends in front of the text goes on in it. -/
def EndsNumber : List Char → Prop
  | [] => True
  | c :: _ => c.isDigit = false ∧ c ≠ '.' ∧ c ≠ 'e' ∧ c ≠ 'E'

theorem EndsNumber.noDigit {text : List Char} (h : EndsNumber text) : NoDigit text := by
  cases text with
  | nil => rfl
  | cons c text => exact noDigit_cons_iff.2 h.1

theorem AreDigits.head?_append {ds : List Char} (hds : AreDigits ds) (text : List Char) (c : Char)
    (hc : c.isDigit = false) : (ds ++ text).head? ≠ some c := by
  rcases ds with _ | ⟨d, ds⟩
  · exact absurd rfl hds.1
  · intro h
    cases h
    exact absurd (hds.2 c (by simp)) (by simp [hc])

theorem EndsNumber.append {before text : List Char} (hbefore : Blank before)
    (h : EndsNumber text) : EndsNumber (before ++ text) := by
  cases before with
  | nil => exact h
  | cons c before =>
      have hc := hbefore c (by simp)
      simp only [isBlank, Bool.or_eq_true, decide_eq_true_eq] at hc
      rcases hc with ((rfl | rfl) | rfl) | rfl <;> simp [EndsNumber]

/-- A number starts with a minus or a digit. -/
theorem Numeral.Spelled.exists_cons {n : Numeral} {spelled : List Char} (h : n.Spelled spelled) :
    ∃ c text, spelled = c :: text ∧ (c = '-' ∨ c.isDigit = true) := by
  rcases h.parts with ⟨point, exponent, -, -, rfl⟩
  rcases hwhole : n.whole with _ | ⟨d, ds⟩
  · exact absurd hwhole h.digits.1
  · have hd : d.isDigit = true := h.digits.2 d (by simp [hwhole])
    cases n.negative
    · exact ⟨d, _, rfl, .inr hd⟩
    · exact ⟨'-', _, rfl, .inl rfl⟩

theorem minusSign_append {negative : Bool} {ds : List Char} (hds : AreDigits ds)
    (text : List Char) :
    minusSign (minusText negative ++ (ds ++ text)) = .ok (negative, ds ++ text) := by
  rcases ds with _ | ⟨d, ds⟩
  · exact absurd rfl hds.1
  · have hd : d ≠ '-' := by
      rintro rfl
      exact absurd (hds.2 '-' (by simp)) (by decide)
    cases negative with
    | true => rfl
    | false => simp [minusText, minusSign, hd]

theorem minusSign_eq_ok {text : List Char} {negative : Bool} {rest : List Char}
    (h : minusSign text = .ok (negative, rest)) : text = minusText negative ++ rest := by
  unfold minusSign at h
  split at h <;> cases h <;> rfl

theorem fractionDigits_sound {atEnd : Flaw} {text fraction rest : List Char}
    (h : fractionDigits atEnd text = .ok (fraction, rest)) :
    ∃ spelled, FractionSpelled fraction spelled ∧ text = spelled ++ rest := by
  unfold fractionDigits at h
  split at h
  · rcases digits_eq_ok_iff.1 h with ⟨hds, -, rfl⟩
    exact ⟨_, .point hds, rfl⟩
  · cases h
    exact ⟨[], .none, rfl⟩

theorem fractionDigits_complete {fraction spelled rest : List Char} (atEnd : Flaw)
    (h : FractionSpelled fraction spelled) (hrest : NoDigit rest) (hpoint : rest.head? ≠ some '.') :
    fractionDigits atEnd (spelled ++ rest) = .ok (fraction, rest) := by
  cases h with
  | none =>
      rw [List.nil_append]
      unfold fractionDigits
      split
      · exact absurd rfl hpoint
      · rfl
  | point hds => exact digits_eq_ok_iff.2 ⟨hds, hrest, rfl⟩

theorem exponentSign_sound {text : List Char} {negative : Bool} {rest : List Char}
    (h : exponentSign text = .ok (negative, rest)) :
    ∃ sign, ExponentSignSpelled negative sign ∧ text = sign ++ rest := by
  unfold exponentSign at h
  split at h <;> cases h
  · exact ⟨_, .plus, rfl⟩
  · exact ⟨_, .minus, rfl⟩
  · exact ⟨_, .none, rfl⟩

theorem exponentSign_complete {negative : Bool} {sign text : List Char}
    (h : ExponentSignSpelled negative sign) (hplus : text.head? ≠ some '+')
    (hminus : text.head? ≠ some '-') :
    exponentSign (sign ++ text) = .ok (negative, text) := by
  cases h with
  | none =>
      rw [List.nil_append]
      unfold exponentSign
      split
      · exact absurd rfl hplus
      · exact absurd rfl hminus
      · rfl
  | plus | minus => rfl

theorem exponentPart_sound {atEnd : Flaw} {text : List Char} {exponent? : Option (Bool × List Char)}
    {rest : List Char} (h : exponentPart atEnd text = .ok (exponent?, rest)) :
    ∃ spelled, ExponentSpelled exponent? spelled ∧ text = spelled ++ rest := by
  cases text with
  | nil =>
      cases h
      exact ⟨[], .none, rfl⟩
  | cons c text =>
      rw [exponentPart] at h
      split_ifs at h with hc
      · simp only [bind_eq_ok_iff, Prod.exists] at h
        rcases h with ⟨negative, middle, hsign, ds, _, hds, h⟩
        cases h
        rcases exponentSign_sound hsign with ⟨sign, hspelled, rfl⟩
        rcases digits_eq_ok_iff.1 hds with ⟨hdigits, -, rfl⟩
        exact ⟨_, .some hc hspelled hdigits, by simp⟩
      · cases h
        exact ⟨[], .none, rfl⟩

theorem exponentPart_complete {exponent? : Option (Bool × List Char)} {spelled rest : List Char}
    (atEnd : Flaw) (h : ExponentSpelled exponent? spelled) (hrest : EndsNumber rest) :
    exponentPart atEnd (spelled ++ rest) = .ok (exponent?, rest) := by
  cases h with
  | none =>
      cases rest with
      | nil => rfl
      | cons c rest => simp [exponentPart, hrest.2.2]
  | @some e negative sign ds he hsign hds =>
      have hhead := hds.head?_append rest
      have hsigned := exponentSign_complete hsign (hhead '+' (by decide)) (hhead '-' (by decide))
      have hdigits : digits atEnd (ds ++ rest) = .ok (ds, rest) :=
        digits_eq_ok_iff.2 ⟨hds, hrest.noDigit, rfl⟩
      rw [List.cons_append, exponentPart, if_pos he, List.append_assoc, hsigned]
      simp [Bind.bind, Except.bind, hdigits, Pure.pure, Except.pure]

theorem numeral_sound {atEnd : Flaw} {text : List Char} {n : Numeral} {rest : List Char}
    (h : numeral atEnd text = .ok (n, rest)) :
    ∃ spelled, n.Spelled spelled ∧ text = spelled ++ rest := by
  simp only [numeral, bind_eq_ok_iff, Prod.exists] at h
  rcases h with ⟨negative, _, hminus, whole, _, hwhole, fraction, _, hfraction, exponent?, _,
    hexponent, h⟩
  cases h
  rcases exponentPart_sound hexponent with ⟨exponent, hexponentSpelled, rfl⟩
  rcases fractionDigits_sound hfraction with ⟨point, hpointSpelled, rfl⟩
  rcases wholeDigits_eq_ok_iff.1 hwhole with ⟨hds, hzero, -, rfl⟩
  have htext := minusSign_eq_ok hminus
  exact ⟨_, ⟨hds, hzero, point, exponent, hpointSpelled, hexponentSpelled, rfl⟩, by simp [htext]⟩

/-- Behind the digits in front of its point, a number goes on with its fraction
and its exponent. -/
theorem numeral_append (atEnd : Flaw) (negative : Bool) {whole text : List Char}
    (hds : AreDigits whole) (hzero : whole.head? = some '0' → whole = ['0'])
    (htext : NoDigit text) :
    numeral atEnd (minusText negative ++ (whole ++ text)) = do
      let (fraction, text) ← fractionDigits atEnd text
      let (exponent?, text) ← exponentPart atEnd text
      return (⟨negative, whole, fraction, exponent?⟩, text) := by
  have hwhole : wholeDigits atEnd (whole ++ text) = .ok (whole, text) :=
    wholeDigits_eq_ok_iff.2 ⟨hds, hzero, htext, rfl⟩
  rw [numeral, minusSign_append hds]
  simp [Bind.bind, Except.bind, hwhole]

theorem FractionSpelled.noDigit {fraction spelled text : List Char}
    (h : FractionSpelled fraction spelled) (htext : NoDigit text) : NoDigit (spelled ++ text) := by
  cases h with
  | none => exact htext
  | point => exact noDigit_cons_iff.2 rfl

theorem ExponentSpelled.append {exponent? : Option (Bool × List Char)} {spelled text : List Char}
    (h : ExponentSpelled exponent? spelled) (htext : EndsNumber text) :
    NoDigit (spelled ++ text) ∧ (spelled ++ text).head? ≠ Option.some '.' := by
  cases h with
  | none =>
      refine ⟨htext.noDigit, ?_⟩
      cases text with
      | nil => simp
      | cons c text => simpa using htext.2.1
  | some he => rcases he with rfl | rfl <;> simp [noDigit_cons_iff]

theorem numeral_complete {n : Numeral} {spelled rest : List Char} (atEnd : Flaw)
    (h : n.Spelled spelled) (hrest : EndsNumber rest) :
    numeral atEnd (spelled ++ rest) = .ok (n, rest) := by
  rcases h.parts with ⟨point, exponent, hpoint, hexponent, rfl⟩
  have ⟨hnoDigit, hnoPoint⟩ := hexponent.append hrest
  have htext : minusText n.negative ++ (n.whole ++ (point ++ exponent)) ++ rest =
      minusText n.negative ++ (n.whole ++ (point ++ (exponent ++ rest))) := by simp
  rw [htext, numeral_append atEnd n.negative h.digits h.zero (hpoint.noDigit hnoDigit),
    fractionDigits_complete atEnd hpoint hnoDigit hnoPoint]
  simp [Bind.bind, Except.bind, exponentPart_complete atEnd hexponent hrest, Pure.pure, Except.pure]

theorem AreDigits.of_append {a b : List Char} (h : AreDigits (a ++ b)) (ha : a ≠ []) :
    AreDigits a :=
  ⟨ha, fun c hc => h.2 c (by simp [hc])⟩

theorem eq_nil_of_append {text front more : List Char} (hlength : text.length ≤ 1)
    (h : text = front ++ more) (hmore : more ≠ []) : front = [] := by
  have hpos := List.length_pos_of_ne_nil hmore
  rw [h, List.length_append] at hlength
  exact List.eq_nil_of_length_eq_zero (by omega)

theorem exponentPart_of_sign {e : Char} {negative : Bool} {sign : List Char} (atEnd : Flaw)
    (he : e = 'e' ∨ e = 'E') (hsign : ExponentSignSpelled negative sign) :
    exponentPart atEnd (e :: sign) = .error atEnd := by
  rw [exponentPart, if_pos he]
  cases hsign <;> rfl

theorem FractionSpelled.of_append {fraction front back : List Char}
    (h : FractionSpelled fraction (front ++ back)) :
    (∃ shorter, FractionSpelled shorter front) ∨ front = ['.'] := by
  rcases front with _ | ⟨c, front⟩
  · exact .inl ⟨[], .none⟩
  · rw [List.cons_append] at h
    cases h with
    | point hds =>
        by_cases hnil : front = []
        · exact .inr (by rw [hnil])
        · exact .inl ⟨front, .point (hds.of_append hnil)⟩

theorem ExponentSpelled.of_append {exponent? : Option (Bool × List Char)}
    {front back : List Char} (h : ExponentSpelled exponent? (front ++ back)) :
    (∃ shorter, ExponentSpelled shorter front) ∨
      ∃ e negative sign, (e = 'e' ∨ e = 'E') ∧ ExponentSignSpelled negative sign ∧
        front = e :: sign := by
  rcases front with _ | ⟨e, front⟩
  · exact .inl ⟨Option.none, .none⟩
  · rw [List.cons_append] at h
    generalize htext : front ++ back = text at h
    cases h with
    | @some _ negative sign ds he hsign hds =>
        rcases append_eq_append_cases htext with ⟨more, hmore, hfront, -⟩ | ⟨p, rfl, hp⟩
        · have hlength : sign.length ≤ 1 := by cases hsign <;> simp
          have hnil := eq_nil_of_append hlength hfront hmore
          exact .inr ⟨e, false, [], he, .none, by rw [hnil]⟩
        · by_cases hnil : p = []
          · exact .inr ⟨e, negative, sign, he, hsign, by simp [hnil]⟩
          · exact .inl ⟨_, .some he hsign (AreDigits.of_append (hp ▸ hds) hnil)⟩

theorem wholeDigits_of_append {whole front back : List Char} (hds : AreDigits whole)
    (hzero : whole.head? = some '0' → whole = ['0']) (h : whole = front ++ back)
    (hback : back ≠ []) (hfront : front ≠ []) :
    AreDigits front ∧ (front.head? = some '0' → front = ['0']) := by
  refine ⟨AreDigits.of_append (h ▸ hds) hfront, fun hhead => ?_⟩
  have hone := hzero (by rw [h, List.head?_append, hhead]; rfl)
  have hlength : whole.length ≤ 1 := by simp [hone]
  exact absurd (eq_nil_of_append hlength h hback) hfront

/-- A number that is cut short is a shorter number, or it ends where a digit is
due. -/
theorem numeral_of_append {n : Numeral} {front back : List Char} (atEnd : Flaw)
    (h : n.Spelled (front ++ back)) :
    (∃ shorter : Numeral, shorter.Spelled front) ∨ numeral atEnd front = .error atEnd := by
  rcases h.parts with ⟨point, exponent, hpoint, hexponent, htext⟩
  rcases append_eq_append_cases htext with ⟨more, hmore, hminus, -⟩ | ⟨p, rfl, hp⟩
  · have hlength : (minusText n.negative).length ≤ 1 := by
      cases n.negative <;> simp [minusText]
    rw [eq_nil_of_append hlength hminus hmore]
    exact .inr rfl
  rcases append_eq_append_cases hp.symm with ⟨more, hmore, hwhole, -⟩ | ⟨q, rfl, hq⟩
  · by_cases hnil : p = []
    · subst hnil
      exact .inr (by cases n.negative <;> rfl)
    · have ⟨hds, hzero⟩ := wholeDigits_of_append h.digits h.zero hwhole hmore hnil
      exact .inl ⟨⟨n.negative, p, [], none⟩, hds, hzero, [], [], .none, .none, by simp⟩
  rcases append_eq_append_cases hq.symm with ⟨more, hmore, hfraction, -⟩ | ⟨r, rfl, hr⟩
  · rcases (hfraction ▸ hpoint).of_append with ⟨shorter, hshorter⟩ | rfl
    · exact .inl ⟨⟨n.negative, n.whole, shorter, none⟩, h.digits, h.zero, q, [], hshorter, .none,
        by simp⟩
    · rw [numeral_append atEnd n.negative h.digits h.zero (noDigit_cons_iff.2 rfl)]
      exact .inr rfl
  · rcases (hr ▸ hexponent).of_append with
      ⟨shorter, hshorter⟩ | ⟨e, negative, sign, he, hsign, rfl⟩
    · exact .inl ⟨⟨n.negative, n.whole, n.fraction, shorter⟩, h.digits, h.zero, point, r, hpoint,
        hshorter, by simp⟩
    · have hnoDigit : NoDigit (e :: sign) := by
        rcases he with rfl | rfl <;> exact noDigit_cons_iff.2 rfl
      have hnoPoint : (e :: sign).head? ≠ some '.' := by
        rcases he with rfl | rfl <;> simp
      rw [numeral_append atEnd n.negative h.digits h.zero (hpoint.noDigit hnoDigit),
        fractionDigits_complete atEnd hpoint hnoDigit hnoPoint]
      simp [Bind.bind, Except.bind, exponentPart_of_sign atEnd he hsign]

/-- A part of a number that is none itself ends where a digit is due. -/
theorem numeral_of_unfinished {n : Numeral} {front back : List Char} (atEnd : Flaw)
    (h : n.Spelled (front ++ back)) (hfront : ∀ shorter : Numeral, ¬shorter.Spelled front) :
    numeral atEnd front = .error atEnd := by
  rcases numeral_of_append atEnd h with ⟨shorter, hshorter⟩ | hend
  · exact absurd hshorter (hfront shorter)
  · exact hend

end PseudoLru.Json
