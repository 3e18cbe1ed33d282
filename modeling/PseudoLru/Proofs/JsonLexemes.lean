import Mathlib.Data.List.TakeWhile
import Mathlib.Tactic
import PseudoLru.Json.Record
import PseudoLru.Proofs.JsonGrammar
import PseudoLru.Proofs.Results

/-!
# White space, marks and strings

The readers of lexemes meet the grammar: what was read is spelled in front of the
rest, and what is spelled is read.  These readers look at each character only
once and stop behind the last one they need, so a text that lacks its end makes
them fail as too short, never otherwise.

A string is followed from state to state: what a state has read of an item that
is not complete, and the half of a surrogate pair that waits for the other one,
belong in front of what is spelled by the rest of the text.
-/

namespace PseudoLru.Json

/-! ### White space -/

theorem Blank.nil : Blank [] := by simp [Blank]

theorem blank_append_iff {a b : List Char} : Blank (a ++ b) ↔ Blank a ∧ Blank b := by
  simp [Blank, or_imp, forall_and]

theorem skipBlank_eq_nil_iff {text : List Char} : skipBlank text = [] ↔ Blank text :=
  List.dropWhile_eq_nil_iff

@[simp] theorem skipBlank_append {before : List Char} (h : Blank before) (text : List Char) :
    skipBlank (before ++ text) = skipBlank text :=
  List.dropWhile_append_of_pos h

theorem skipBlank_append_of_not_blank {front : List Char} (h : ¬Blank front)
    (back : List Char) : skipBlank (front ++ back) = skipBlank front ++ back := by
  have hne : (skipBlank front).isEmpty = false := by
    simpa [← skipBlank_eq_nil_iff] using h
  rw [skipBlank, List.dropWhile_append]
  exact if_neg (by simpa [skipBlank] using hne)

theorem skipBlank_cons {c : Char} (h : isBlank c = false) (text : List Char) :
    skipBlank (c :: text) = c :: text :=
  List.dropWhile_cons_of_neg (by simp [h])

theorem exists_blank (text : List Char) :
    ∃ before, Blank before ∧ text = before ++ skipBlank text :=
  ⟨text.takeWhile isBlank, fun _ => List.mem_takeWhile_imp,
    (List.takeWhile_append_dropWhile).symm⟩

/-! ### Texts that end too early -/

/-- A text that the reader takes to be complete is incomplete without its end,
unless the end was left over. -/
def Truncates {α : Type} (read : Reader α) : Prop :=
  ∀ (front back : List Char) (a : α) (rest : List Char),
    read (front ++ back) = .ok (a, rest) →
      read front = .error .unexpectedEnd ∨
        ∃ left, rest = left ++ back ∧ read front = .ok (a, left)

/-- Reads one thing behind the other. -/
def Reader.andThen {α β : Type} (read : Reader α) (next : α → Reader β) : Reader β := fun text =>
  read text >>= fun result => next result.1 result.2

namespace Truncates

variable {α β : Type} {read : Reader α}

theorem andThen {next : α → Reader β} (hread : Truncates read)
    (hnext : ∀ a, Truncates (next a)) : Truncates (read.andThen next) := by
  intro front back b rest h
  rcases bind_eq_ok_iff.1 h with ⟨⟨a, middle⟩, hr, hmore⟩
  rcases hread _ _ _ _ hr with hend | ⟨left, rfl, hleft⟩
  · simp [Reader.andThen, hend, Bind.bind, Except.bind]
  · simpa [Reader.andThen, hleft, Bind.bind, Except.bind] using hnext a _ _ _ _ hmore

theorem pure (a : α) : Truncates fun text => .ok (a, text) := by
  intro front back b rest h
  cases h
  exact .inr ⟨front, rfl, rfl⟩

theorem of_error (h : ∀ text, ∃ flaw, read text = .error flaw) : Truncates read := by
  intro front back a rest hread
  have ⟨flaw, hflaw⟩ := h (front ++ back)
  cases hflaw.symm.trans hread

theorem skipBlank (hread : Truncates read) (hnil : read [] = .error .unexpectedEnd) :
    Truncates fun text => read (skipBlank text) := by
  intro front back a rest h
  by_cases hblank : Blank front
  · exact .inl (by simpa [skipBlank_eq_nil_iff.2 hblank] using hnil)
  · exact hread _ _ _ _ (by simpa [skipBlank_append_of_not_blank hblank] using h)

/-- What was read is incomplete without its end. -/
theorem unexpectedEnd {front back : List Char} {a : α} (hread : Truncates read)
    (hback : back ≠ []) (h : read (front ++ back) = .ok (a, [])) :
    read front = .error .unexpectedEnd := by
  rcases hread _ _ _ _ h with hend | ⟨left, hleft, -⟩
  · exact hend
  · simp [hback] at hleft

end Truncates

theorem truncates_literal (due : List Char) : Truncates (literal due) := by
  induction due with
  | nil => exact Truncates.pure ()
  | cons d due ih =>
      intro front back a rest h
      cases front with
      | nil => exact .inl rfl
      | cons c front =>
          by_cases hc : c = d
          · simp only [literal, hc, if_true, List.cons_append] at h ⊢
            exact ih _ _ _ _ h
          · simp [literal, hc] at h

theorem truncates_mark (due : Char) : Truncates (mark due) :=
  (truncates_literal [due]).skipBlank rfl

/-- For a reader that skips white space it is enough to look at texts that start
with another character. -/
theorem truncates_of_head {α : Type} {read : Reader α}
    (happend : ∀ {before : List Char}, Blank before → ∀ text, read (before ++ text) = read text)
    (hnil : read [] = .error .unexpectedEnd)
    (hhead : ∀ c, isBlank c = false → Truncates fun text => read (c :: text)) :
    Truncates read := by
  intro front back a rest h
  have ⟨before, hbefore, hfront⟩ := exists_blank front
  rcases hinner : skipBlank front with _ | ⟨c, inner⟩
  · rw [hfront, hinner, happend hbefore]
    exact .inl hnil
  · have hc : isBlank c = false := by
      have hnot := List.head?_dropWhile_not isBlank front
      rw [show front.dropWhile isBlank = c :: inner from hinner] at hnot
      exact hnot
    rw [hfront, hinner, List.append_assoc, happend hbefore] at h
    rw [hfront, hinner, happend hbefore]
    exact hhead c hc inner back a rest h

theorem truncates_null : Truncates null := by
  refine truncates_of_head (fun h text => by simp only [null, skipBlank_append h]) rfl ?_
  intro c hc
  simp only [null, skipBlank_cons hc]
  by_cases hn : c = 'n'
  · subst hn
    exact truncates_literal _
  · refine .of_error fun text => ⟨misplaced (c :: text), ?_⟩
    split
    · next heq => exact absurd (List.cons.inj heq).1 hn
    · rfl

theorem truncates_stringFrom (strict : Bool) (state : StringState) (content : List Char) :
    Truncates (stringFrom strict state content) := by
  intro front back a rest h
  induction front generalizing state content with
  | nil => exact .inl (by simp [stringFrom])
  | cons c front ih =>
      rw [List.cons_append, stringFrom] at h
      rw [stringFrom]
      split at h <;> simp_all

theorem truncates_key : Truncates key := by
  have hkey : key = (mark '"').andThen fun _ =>
      (string true).andThen fun content text => .ok (String.ofList content, text) := rfl
  rw [hkey]
  exact (truncates_mark '"').andThen fun _ =>
    (truncates_stringFrom true .plain []).andThen fun content => .pure (String.ofList content)

theorem literal_eq_ok_iff {due text : List Char} {u : Unit} {rest : List Char} :
    literal due text = .ok (u, rest) ↔ text = due ++ rest := by
  induction due generalizing text with
  | nil => simp [literal]
  | cons d due ih =>
      cases text with
      | nil => simp [literal]
      | cons c text =>
          by_cases hc : c = d
          · simp [literal, hc, ih]
          · simp [literal, hc]

theorem mark_eq_ok_iff {due : Char} (hdue : isBlank due = false) {text : List Char} {u : Unit}
    {rest : List Char} :
    mark due text = .ok (u, rest) ↔ ∃ before, Blank before ∧ text = before ++ due :: rest := by
  rw [mark, literal_eq_ok_iff]
  constructor
  · intro h
    have ⟨before, hbefore, heq⟩ := exists_blank text
    exact ⟨before, hbefore, by rw [heq, h]; rfl⟩
  · rintro ⟨before, hbefore, rfl⟩
    simp [hbefore, skipBlank_cons hdue]

theorem null_eq_ok_iff {text rest : List Char} {u : Unit} :
    null text = .ok (u, rest) ↔
      ∃ before, Blank before ∧ text = before ++ ('n' :: 'u' :: 'l' :: 'l' :: rest) := by
  constructor
  · intro h
    have ⟨before, hbefore, htext⟩ := exists_blank text
    unfold null at h
    split at h
    · next inner hinner =>
        refine ⟨before, hbefore, ?_⟩
        rw [htext, hinner, literal_eq_ok_iff.1 h]
        rfl
    · cases h
  · rintro ⟨before, hbefore, rfl⟩
    simp only [null, skipBlank_append hbefore, skipBlank_cons (show isBlank 'n' = false from rfl)]
    exact literal_eq_ok_iff.2 rfl

/-! ### Strings -/

/-- The content of a string as a reader takes it that does not look for the
other half of a surrogate. -/
def looseContent (items : List StringItem) : List Char :=
  items.map fun
    | .char c => c
    | .unit value => Char.ofNat value

/-- What a reader of the given strictness makes of a string. -/
def readContent? (strict : Bool) (items : List StringItem) : Option (List Char) :=
  if strict then content? items else some (looseContent items)

namespace StringState

/-- What was read of the character or escape in which the reader stands. -/
def pendingText : StringState → List Char
  | .plain | .betweenHalves _ => []
  | .escape | .secondEscape _ => ['\\']
  | .hex _ digits => '\\' :: 'u' :: digits

/-- The half of a surrogate pair that was read. -/
def pendingItems : StringState → List StringItem
  | .plain | .escape | .hex none _ => []
  | .hex (some high) _ | .betweenHalves high | .secondEscape high => [.unit high]

/-- The states that a reader can be in. -/
def Sound (strict : Bool) (state : StringState) : Prop :=
  (∀ high? digits, state = .hex high? digits → digits.length < 4) ∧
    ∀ high, .unit high ∈ state.pendingItems → strict = true ∧ isHighSurrogate high = true

end StringState

@[simp] theorem readContent?_char (strict : Bool) (c : Char) (items : List StringItem) :
    readContent? strict (.char c :: items) = (readContent? strict items).map (c :: ·) := by
  cases strict <;> simp [readContent?, content?, looseContent]

theorem readContent?_single (strict : Bool) {value : Nat} (items : List StringItem)
    (hhigh : (strict && StringState.isHighSurrogate value) = false)
    (hlow : (strict && StringState.isLowSurrogate value) = false) :
    readContent? strict (.unit value :: items) =
      (readContent? strict items).map (Char.ofNat value :: ·) := by
  cases strict with
  | false => rfl
  | true =>
      rw [readContent?, content?.eq_def]
      simp_all [readContent?]

theorem readContent?_pair {high low : Nat} (items : List StringItem)
    (hhigh : StringState.isHighSurrogate high = true)
    (hlow : StringState.isLowSurrogate low = true) :
    readContent? true (.unit high :: .unit low :: items) =
      (readContent? true items).map (surrogatePair high low :: ·) := by
  simp [readContent?, content?, hhigh, hlow]

theorem utf8Size_of_digit? {c : Char} {value : Nat} (h : Text.digit? 16 c = some value) :
    c.utf8Size = 1 := by
  rw [Char.utf8Size_eq_one_iff]
  simp only [Text.digit?, Option.filter_eq_some_iff] at h
  have h := h.1
  split_ifs at h with h₁ h₂ h₃
  · exact UInt32.le_trans h₁.2 (by decide)
  · exact UInt32.le_trans h₂.2 (by decide)
  · exact UInt32.le_trans h₃.2 (by decide)

theorem utf8ByteSize_cons (c : Char) (text : List Char) :
    (String.ofList (c :: text)).utf8ByteSize =
      c.utf8Size + (String.ofList text).utf8ByteSize := by
  simp [String.ofList_cons]

theorem utf8ByteSize_of_digits? {digits : List Char} {value : Nat}
    (h : Text.digits? 16 digits = some value) :
    (String.ofList digits).utf8ByteSize = digits.length := by
  unfold Text.digits? at h
  generalize 0 = start at h
  induction digits generalizing start with
  | nil => rfl
  | cons c digits ih =>
      simp only [List.foldlM_cons, Option.bind_eq_bind, Option.bind_eq_some_iff,
        Option.map_eq_some_iff] at h
      rcases h with ⟨_, ⟨_, hc, -⟩, hmore⟩
      rw [utf8ByteSize_cons, utf8Size_of_digit? hc, ih _ hmore, List.length_cons, add_comm]

theorem length_le_utf8ByteSize (text : List Char) :
    text.length ≤ (String.ofList text).utf8ByteSize := by
  induction text with
  | nil => simp
  | cons c text ih =>
      have hc := c.utf8Size_pos
      rw [utf8ByteSize_cons, List.length_cons]
      omega

namespace StringState

theorem Sound.plain (strict : Bool) : Sound strict .plain := by
  simp [Sound, pendingItems]

theorem ofDigits_eq_ok {strict : Bool} {high? : Option Nat} {digits : List Char} {c : Char}
    {result : StringStep} (hlength : digits.length < 4)
    (h : ofDigits strict high? (digits ++ [c]) = .ok result) :
    (result = .more (.hex high? (digits ++ [c])) ∧ (digits ++ [c]).length < 4) ∨
      ∃ value, (digits ++ [c]).length = 4 ∧ Text.digits? 16 (digits ++ [c]) = some value ∧
        ofUnit strict high? value = .ok result := by
  unfold ofDigits at h
  split_ifs at h with hsize
  · have hle := length_le_utf8ByteSize (digits ++ [c])
    exact .inl ⟨by simpa using h.symm, by omega⟩
  · split at h
    · next value hvalue =>
        have hsame := utf8ByteSize_of_digits? hvalue
        have hadd : (digits ++ [c]).length = digits.length + 1 := by simp
        exact .inr ⟨value, by omega, hvalue, h⟩
    · cases h

theorem ofUnit_eq_more {strict : Bool} {high? : Option Nat} {value : Nat} {state : StringState}
    (h : ofUnit strict high? value = .ok (.more state)) :
    strict = true ∧ high? = none ∧ isHighSurrogate value = true ∧
      state = .betweenHalves value := by
  unfold ofUnit at h
  split at h <;> split_ifs at h <;> simp_all

/-- One character of a string that completes an item, or half of one, or leaves
the reader within it. -/
theorem step_eq_more {strict : Bool} {state state' : StringState} {c : Char}
    (hsound : state.Sound strict) (h : state.step strict c = .ok (.more state')) :
    state'.Sound strict ∧
      (state'.pendingText = state.pendingText ++ [c] ∧
          state'.pendingItems = state.pendingItems ∨
        state'.pendingText = [] ∧ ∃ item, state'.pendingItems = state.pendingItems ++ [item] ∧
          ∀ items text, StringSpelled items text →
            StringSpelled (item :: items) (state.pendingText ++ c :: text)) := by
  cases state with
  | plain =>
      simp only [step] at h
      split_ifs at h <;> simp_all [Sound, pendingText, pendingItems]
      subst h
      simp
  | escape =>
      simp only [step] at h
      split_ifs at h with hc
      · cases h
        simp [Sound, pendingText, pendingItems, hc]
      · split at h <;> cases h
  | hex high? digits =>
      have hlength := hsound.1 high? digits rfl
      rcases ofDigits_eq_ok hlength h with ⟨hmore, hshort⟩ | ⟨value, hfour, hvalue, hunit⟩
      · cases hmore
        refine ⟨⟨?_, ?_⟩, .inl ⟨rfl, ?_⟩⟩
        · simp_all
        · cases high? <;> exact hsound.2
        · cases high? <;> rfl
      · rcases ofUnit_eq_more hunit with ⟨rfl, rfl, hhigh, rfl⟩
        refine ⟨by simp [Sound, pendingItems, hhigh], .inr ⟨rfl, .unit value, rfl, ?_⟩⟩
        intro items text hspelled
        simpa [pendingText] using StringSpelled.unit hfour hvalue hspelled
  | betweenHalves high =>
      simp only [step] at h
      split_ifs at h with hc
      cases h
      simp_all [Sound, pendingText, pendingItems]
  | secondEscape high =>
      simp only [step] at h
      split_ifs at h with hc
      cases h
      simp_all [Sound, pendingText, pendingItems]

theorem step_eq_char {strict : Bool} {state : StringState} {c meant : Char}
    (hsound : state.Sound strict) (h : state.step strict c = .ok (.char meant)) :
    ∃ item,
      (∀ items text, StringSpelled items text →
        StringSpelled (item :: items) (state.pendingText ++ c :: text)) ∧
      ∀ items, readContent? strict (state.pendingItems ++ item :: items) =
        (readContent? strict items).map (meant :: ·) := by
  cases state with
  | plain =>
      simp only [step] at h
      split_ifs at h with hquote hescape hcontrol <;> cases h
      exact ⟨.char c, fun items text => StringSpelled.char hquote hescape (Char.not_lt.1 hcontrol),
        readContent?_char strict c⟩
  | escape =>
      simp only [step] at h
      split_ifs at h with hc
      · cases h
      · split at h <;> cases h
        next hshort =>
          exact ⟨.char meant, fun items text => StringSpelled.short hshort,
            readContent?_char strict meant⟩
  | hex high? digits =>
      rcases ofDigits_eq_ok (hsound.1 high? digits rfl) h with
        ⟨hmore, -⟩ | ⟨value, hfour, hvalue, hunit⟩
      · cases hmore
      · refine ⟨.unit value, ?_, ?_⟩
        · intro items text hspelled
          simpa [pendingText] using StringSpelled.unit hfour hvalue hspelled
        · intro items
          cases high? with
          | none =>
              simp only [ofUnit] at hunit
              split_ifs at hunit with hlow hhigh <;> cases hunit
              exact readContent?_single strict items (by simpa using hhigh) (by simpa using hlow)
          | some high =>
              have ⟨hstrict, hhigh⟩ := hsound.2 high (by simp [pendingItems])
              simp only [ofUnit] at hunit
              split_ifs at hunit with hlow
              simp only [Except.ok.injEq, StringStep.char.injEq] at hunit
              rw [← hunit, hstrict]
              exact readContent?_pair items hhigh hlow
  | betweenHalves high =>
      simp only [step] at h
      split_ifs at h
      cases h
  | secondEscape high =>
      simp only [step] at h
      split_ifs at h
      cases h

theorem step_eq_close {strict : Bool} {state : StringState} {c : Char}
    (hsound : state.Sound strict) (h : state.step strict c = .ok .close) :
    state = .plain ∧ c = '"' := by
  cases state with
  | plain =>
      simp only [step] at h
      split_ifs at h with hc <;> cases h
      exact ⟨rfl, hc⟩
  | escape =>
      simp only [step] at h
      split_ifs at h
      · cases h
      · split at h <;> cases h
  | hex high? digits =>
      rcases ofDigits_eq_ok (hsound.1 high? digits rfl) h with ⟨hmore, -⟩ | ⟨_, -, -, hunit⟩
      · cases hmore
      · unfold ofUnit at hunit
        split at hunit <;> split_ifs at hunit <;> cases hunit
  | betweenHalves high =>
      simp only [step] at h
      split_ifs at h
      cases h
  | secondEscape high =>
      simp only [step] at h
      split_ifs at h
      cases h

end StringState

open StringState

/-- A string that was read is spelled by what was read of it. -/
theorem stringFrom_sound {strict : Bool} {state : StringState} {content text : List Char}
    {result rest : List Char} (hsound : state.Sound strict)
    (h : stringFrom strict state content text = .ok (result, rest)) :
    ∃ items spelled said, text = spelled ++ '"' :: rest ∧
      StringSpelled items (state.pendingText ++ spelled) ∧
        readContent? strict (state.pendingItems ++ items) = some said ∧
          result = content.reverse ++ said := by
  induction text generalizing state content with
  | nil => simp [stringFrom] at h
  | cons c text ih =>
      rw [stringFrom] at h
      split at h
      · cases h
      · next hstep =>
          have ⟨hstate, hc⟩ := step_eq_close hsound hstep
          cases h
          subst hstate hc
          refine ⟨[], [], [], rfl, .nil, ?_, by simp⟩
          cases strict <;> rfl
      · next meant hstep =>
          have ⟨item, hspelled, hcontent⟩ := step_eq_char hsound hstep
          rcases ih (Sound.plain strict) h with ⟨items, spelled, said, rfl, hmore, hsaid, rfl⟩
          exact ⟨item :: items, c :: spelled, meant :: said, rfl, hspelled _ _ hmore,
            by simp_all [pendingItems], by simp⟩
      · next state' hstep =>
          have ⟨hsound', hpending⟩ := step_eq_more hsound hstep
          rcases ih hsound' h with ⟨items, spelled, said, rfl, hmore, hsaid, rfl⟩
          rcases hpending with ⟨htext, hitems⟩ | ⟨htext, item, hitems, hspelled⟩
          · refine ⟨items, c :: spelled, said, rfl, ?_, hitems ▸ hsaid, rfl⟩
            simpa [htext] using hmore
          · refine ⟨item :: items, c :: spelled, said, rfl, ?_, ?_, rfl⟩
            · exact hspelled _ _ (by simpa [htext] using hmore)
            · simpa [hitems] using hsaid

theorem stringFrom_more {strict : Bool} {state state' : StringState} {c : Char}
    (h : state.step strict c = .ok (.more state')) (content text : List Char) :
    stringFrom strict state content (c :: text) = stringFrom strict state' content text := by
  rw [stringFrom, h]

theorem stringFrom_char {strict : Bool} {state : StringState} {c meant : Char}
    (h : state.step strict c = .ok (.char meant)) (content text : List Char) :
    stringFrom strict state content (c :: text) =
      stringFrom strict .plain (meant :: content) text := by
  rw [stringFrom, h]

/-- Of the four digits of an escape the last one decides. -/
theorem exists_step_of_digits (strict : Bool) (high? : Option Nat) {digits : List Char}
    {value : Nat} (hlength : digits.length = 4) (hvalue : Text.digits? 16 digits = some value) :
    ∃ state c, state.step strict c = ofUnit strict high? value ∧ ∀ content text,
      stringFrom strict (.hex high? []) content (digits ++ text) =
        stringFrom strict state content (c :: text) := by
  rcases digits with _ | ⟨a, _ | ⟨b, _ | ⟨c, _ | ⟨d, _ | ⟨e, digits⟩⟩⟩⟩⟩ <;>
    simp only [List.length_nil, List.length_cons] at hlength <;> try omega
  have hsizes : a.utf8Size = 1 ∧ b.utf8Size = 1 ∧ c.utf8Size = 1 ∧ d.utf8Size = 1 := by
    have h := hvalue
    simp only [Text.digits?, List.foldlM_cons, Option.bind_eq_bind, Option.bind_eq_some_iff,
      Option.map_eq_some_iff] at h
    rcases h with ⟨_, ⟨_, ha, -⟩, _, ⟨_, hb, -⟩, _, ⟨_, hc, -⟩, _, ⟨_, hd, -⟩, -⟩
    exact ⟨utf8Size_of_digit? ha, utf8Size_of_digit? hb, utf8Size_of_digit? hc,
      utf8Size_of_digit? hd⟩
  have hfirst : step strict (.hex high? []) a = .ok (.more (.hex high? [a])) := by
    simp [step, ofDigits, hsizes]
  have hsecond : step strict (.hex high? [a]) b = .ok (.more (.hex high? [a, b])) := by
    simp [step, ofDigits, hsizes]
  have hthird : step strict (.hex high? [a, b]) c = .ok (.more (.hex high? [a, b, c])) := by
    simp [step, ofDigits, hsizes]
  refine ⟨.hex high? [a, b, c], d, ?_, fun content text => ?_⟩
  · simp [step, ofDigits, hsizes, hvalue]
  · exact (stringFrom_more hfirst content _).trans
      ((stringFrom_more hsecond content _).trans (stringFrom_more hthird content _))

theorem ofUnit_high {value : Nat} (hhigh : isHighSurrogate value = true) :
    ofUnit true none value = .ok (.more (.betweenHalves value)) := by
  have hlow : isLowSurrogate value = false := by
    simp only [isHighSurrogate, isLowSurrogate, Bool.and_eq_true, decide_eq_true_eq,
      Bool.and_eq_false_iff, decide_eq_false_iff_not] at hhigh ⊢
    omega
  simp [ofUnit, hhigh, hlow]

theorem ofUnit_single {strict : Bool} {value : Nat}
    (hhigh : (strict && isHighSurrogate value) = false)
    (hlow : (strict && isLowSurrogate value) = false) :
    ofUnit strict none value = .ok (.char (Char.ofNat value)) := by
  simp only [ofUnit, hhigh, hlow]
  rfl

theorem ofUnit_pair {strict : Bool} {high low : Nat} (hlow : isLowSurrogate low = true) :
    ofUnit strict (some high) low = .ok (.char (surrogatePair high low)) := by
  simp only [ofUnit, hlow, if_true]
  rfl

theorem readContent?_alone {high : Nat} {items : List StringItem}
    (hhigh : isHighSurrogate high = true)
    (hother : ∀ low items', items = .unit low :: items' → isLowSurrogate low = false) :
    readContent? true (.unit high :: items) = none := by
  rw [readContent?, content?.eq_def]
  simp only [hhigh, if_true]
  split
  · simp [hother _ _ rfl]
  · rfl

theorem readContent?_low {value : Nat} {items : List StringItem}
    (hhigh : isHighSurrogate value = false) (hlow : isLowSurrogate value = true) :
    readContent? true (.unit value :: items) = none := by
  rw [readContent?, content?.eq_def]
  simp [hhigh, hlow]

/-- An escape is half of a pair of which the other half is due, or a character. -/
theorem stringFrom_unit {strict : Bool} {digits : List Char} {value : Nat}
    {items : List StringItem} {said : List Char} (hlength : digits.length = 4)
    (hvalue : Text.digits? 16 digits = some value)
    (hsaid : readContent? strict (.unit value :: items) = some said) :
    (strict = true ∧ isHighSurrogate value = true ∧ ∀ content text,
      stringFrom strict .plain content ('\\' :: 'u' :: (digits ++ text)) =
        stringFrom strict (.betweenHalves value) content text) ∨
      ∃ more, readContent? strict items = some more ∧ said = Char.ofNat value :: more ∧
        ∀ content text, stringFrom strict .plain content ('\\' :: 'u' :: (digits ++ text)) =
          stringFrom strict .plain (Char.ofNat value :: content) text := by
  rcases exists_step_of_digits strict none hlength hvalue with ⟨state, c, hlast, hdigits⟩
  have hfirst : step strict .plain '\\' = .ok (.more .escape) := rfl
  have hsecond : step strict .escape 'u' = .ok (.more (.hex none [])) := rfl
  by_cases hhigh : (strict && isHighSurrogate value) = true
  · rcases Bool.and_eq_true_iff.1 hhigh with ⟨rfl, hhigh⟩
    refine .inl ⟨rfl, hhigh, fun content text => ?_⟩
    rw [stringFrom_more hfirst, stringFrom_more hsecond, hdigits,
      stringFrom_more (hlast.trans (ofUnit_high hhigh))]
  · have hlow : (strict && isLowSurrogate value) = false := by
      by_contra hlow
      rw [Bool.not_eq_false, Bool.and_eq_true_iff] at hlow
      rcases hlow with ⟨rfl, hlow⟩
      cases (readContent?_low (by simpa using hhigh) hlow).symm.trans hsaid
    rw [Bool.not_eq_true] at hhigh
    rw [readContent?_single strict items hhigh hlow, Option.map_eq_some_iff] at hsaid
    rcases hsaid with ⟨more, hmore, rfl⟩
    refine .inr ⟨more, hmore, rfl, fun content text => ?_⟩
    rw [stringFrom_more hfirst, stringFrom_more hsecond, hdigits,
      stringFrom_char (hlast.trans (ofUnit_single hhigh hlow))]

theorem stringFrom_otherHalf {high value : Nat} {digits : List Char} {items : List StringItem}
    {said : List Char} (hlength : digits.length = 4) (hvalue : Text.digits? 16 digits = some value)
    (hhigh : isHighSurrogate high = true)
    (hsaid : readContent? true (.unit high :: .unit value :: items) = some said) :
    ∃ more, readContent? true items = some more ∧ said = surrogatePair high value :: more ∧
      ∀ content text,
        stringFrom true (.betweenHalves high) content ('\\' :: 'u' :: (digits ++ text)) =
          stringFrom true .plain (surrogatePair high value :: content) text := by
  have hlow : isLowSurrogate value = true := by
    by_contra hlow
    have hnone := @readContent?_alone high (.unit value :: items) hhigh
      (by rintro low items' ⟨⟩; simpa using hlow)
    cases hnone.symm.trans hsaid
  rcases exists_step_of_digits true (some high) hlength hvalue with ⟨state, c, hlast, hdigits⟩
  have hfirst : step true (.betweenHalves high) '\\' = .ok (.more (.secondEscape high)) := rfl
  have hsecond : step true (.secondEscape high) 'u' = .ok (.more (.hex (some high) [])) := rfl
  rw [readContent?_pair items hhigh hlow, Option.map_eq_some_iff] at hsaid
  rcases hsaid with ⟨more, hmore, rfl⟩
  refine ⟨more, hmore, rfl, fun content text => ?_⟩
  rw [stringFrom_more hfirst, stringFrom_more hsecond, hdigits,
    stringFrom_char (hlast.trans (ofUnit_pair hlow))]

theorem eq_plain_or_betweenHalves {strict : Bool} {state : StringState}
    (hsound : state.Sound strict) (hstate : state.pendingText = []) :
    state = .plain ∨
      ∃ high, state = .betweenHalves high ∧ strict = true ∧ isHighSurrogate high = true := by
  cases state with
  | plain => exact .inl rfl
  | betweenHalves high => exact .inr ⟨high, rfl, hsound.2 high (by simp [pendingItems])⟩
  | escape | secondEscape _ | hex _ _ => simp [pendingText] at hstate

/-- The other half of a surrogate pair follows, or none is due. -/
theorem eq_plain_of_readContent? {strict : Bool} {state : StringState} {items : List StringItem}
    {said : List Char} (hsound : state.Sound strict) (hstate : state.pendingText = [])
    (hsaid : readContent? strict (state.pendingItems ++ items) = some said)
    (hother : ∀ low items', items = .unit low :: items' → isLowSurrogate low = false) :
    state = .plain := by
  rcases eq_plain_or_betweenHalves hsound hstate with rfl | ⟨high, rfl, rfl, hhigh⟩
  · rfl
  · cases (readContent?_alone hhigh hother).symm.trans hsaid

/-- A string is read up to its closing quote, from behind any of its items. -/
theorem stringFrom_complete {strict : Bool} {state : StringState} {items : List StringItem}
    {spelled content said : List Char} (hspelled : StringSpelled items spelled)
    (hsound : state.Sound strict) (hstate : state.pendingText = [])
    (hsaid : readContent? strict (state.pendingItems ++ items) = some said) (rest : List Char) :
    stringFrom strict state content (spelled ++ '"' :: rest) =
      .ok (content.reverse ++ said, rest) := by
  induction hspelled generalizing state content said with
  | nil =>
      have hplain := eq_plain_of_readContent? hsound hstate hsaid (by simp)
      subst hplain
      have hnil : said = [] := by
        cases strict <;>
          simpa [readContent?, content?, looseContent, pendingItems, eq_comm] using hsaid
      simp [stringFrom, step, hnil]
  | @char c _ _ hquote hescape hcontrol _ ih =>
      have hplain := eq_plain_of_readContent? hsound hstate hsaid (by simp)
      subst hplain
      have hstep : step strict .plain c = .ok (.char c) := by
        simp [step, hquote, hescape, Char.not_lt.2 hcontrol]
      simp only [pendingItems, List.nil_append, readContent?_char, Option.map_eq_some_iff] at hsaid
      rcases hsaid with ⟨more, hmore, rfl⟩
      rw [List.cons_append, stringFrom_char hstep, ih (Sound.plain strict) rfl hmore]
      simp
  | @short e c _ _ hshort _ ih =>
      have hplain := eq_plain_of_readContent? hsound hstate hsaid (by simp)
      subst hplain
      have hfirst : step strict .plain '\\' = .ok (.more .escape) := rfl
      have hsecond : step strict .escape e = .ok (.char c) := by
        have hne : e ≠ 'u' := by
          rintro rfl
          cases hshort
        simp [step, hne, hshort]
      simp only [pendingItems, List.nil_append, readContent?_char, Option.map_eq_some_iff] at hsaid
      rcases hsaid with ⟨more, hmore, rfl⟩
      rw [List.cons_append, stringFrom_more hfirst, List.cons_append, stringFrom_char hsecond,
        ih (Sound.plain strict) rfl hmore]
      simp
  | @unit digits value items text hlength hvalue _ ih =>
      rw [List.cons_append, List.cons_append, List.append_assoc]
      rcases eq_plain_or_betweenHalves hsound hstate with rfl | ⟨high, rfl, rfl, hhigh⟩
      · rcases stringFrom_unit hlength hvalue hsaid with
          ⟨rfl, hhigh, hread⟩ | ⟨more, hmore, rfl, hread⟩
        · have hbetween : (betweenHalves value).Sound true := by simp [Sound, pendingItems, hhigh]
          rw [hread, ih hbetween rfl hsaid]
        · rw [hread, ih (Sound.plain strict) rfl hmore]
          simp
      · rcases stringFrom_otherHalf hlength hvalue hhigh hsaid with ⟨more, hmore, rfl, hread⟩
        rw [hread, ih (Sound.plain true) rfl hmore]
        simp

theorem string_eq_ok_iff {strict : Bool} {text content rest : List Char} :
    string strict text = .ok (content, rest) ↔
      ∃ items spelled, text = spelled ++ '"' :: rest ∧ StringSpelled items spelled ∧
        readContent? strict items = some content := by
  constructor
  · intro h
    rcases stringFrom_sound (Sound.plain strict) h with
      ⟨items, spelled, said, htext, hspelled, hsaid, hcontent⟩
    subst hcontent
    exact ⟨items, spelled, htext, hspelled, hsaid⟩
  · rintro ⟨items, spelled, rfl, hspelled, hsaid⟩
    exact stringFrom_complete hspelled (Sound.plain strict) rfl hsaid rest

theorem key_eq_ok_iff {text : List Char} {name : String} {rest : List Char} :
    key text = .ok (name, rest) ↔
      ∃ before items spelled, Blank before ∧ text = before ++ '"' :: (spelled ++ '"' :: rest) ∧
        StringSpelled items spelled ∧ text? items = some name := by
  simp only [key, bind_eq_ok_iff, Prod.exists, mark_eq_ok_iff (show isBlank '"' = false from rfl),
    string_eq_ok_iff]
  constructor
  · rintro ⟨_, _, ⟨before, hbefore, rfl⟩, content, _, ⟨items, spelled, rfl, hspelled, hsaid⟩, h⟩
    cases h
    have hcontent : content? items = some content := hsaid
    exact ⟨before, items, spelled, hbefore, rfl, hspelled, by simp [text?, hcontent]⟩
  · rintro ⟨before, items, spelled, hbefore, rfl, hspelled, hsaid⟩
    simp only [text?, Option.map_eq_some_iff] at hsaid
    rcases hsaid with ⟨content, hcontent, rfl⟩
    exact ⟨(), _, ⟨before, hbefore, rfl⟩, content, rest,
      ⟨items, spelled, rfl, hspelled, by simpa [readContent?] using hcontent⟩, rfl⟩

end PseudoLru.Json
