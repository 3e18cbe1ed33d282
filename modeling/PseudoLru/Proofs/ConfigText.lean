import PseudoLru.Config
import PseudoLru.Proofs.JsonUnambiguity
import PseudoLru.Proofs.Numerals

/-!
# What a configuration text says

A JSON value denotes a configuration if its parts do: a number that is written
with digits only and fits, a policy by its name, and a record in either of its two
forms.  The texts that are read as a configuration are those that spell such a
value.

Each reader of a part reads what its values mean, and a record of such parts does
so too.  So all that is special here are the numbers, the policies, and that no
two fields of a record get in each other's way.
-/

namespace PseudoLru

namespace Json

/-! ### Numbers -/

/-- A number that is written with digits only and is less than the bound. -/
def naturalMeaning? (bound : Nat) : Value → Option Nat
  | .number n => if n.isPlain then (Text.digits? 10 n.whole).filter (· < bound) else none
  | _ => none

theorem digits?_eq_some_iff {digits : List Char} (hdigits : AreDigits digits) {value : Nat} :
    Text.digits? 10 digits = some value ↔ Text.HasValue 10 digits value := by
  have hsome : digits.isEmpty = false := List.isEmpty_eq_false_iff.mpr hdigits.1
  rw [← Text.digits?_eq_some_iff (by decide), hsome]
  rfl

/-- What the number means is the positional value of its digits. -/
theorem naturalMeaning?_eq_some_iff {n : Numeral} (hdigits : AreDigits n.whole)
    {bound value : Nat} :
    naturalMeaning? bound (.number n) = some value ↔
      n.isPlain = true ∧ Text.HasValue 10 n.whole value ∧ value < bound := by
  rw [naturalMeaning?, Option.ite_none_right_eq_some, Option.filter_eq_some_iff,
    digits?_eq_some_iff hdigits, decide_eq_true_iff]

theorem digit?_eq_digitValue {c : Char} (hc : c.isDigit = true) :
    Text.digit? 10 c = some (Numeral.digitValue c) := by
  rw [Char.isDigit, Bool.and_eq_true, decide_eq_true_iff, decide_eq_true_iff] at hc
  have hrange : '0' ≤ c ∧ c ≤ '9' := hc
  have hless : Numeral.digitValue c < 10 := Nat.sub_lt_left_of_lt_add hc.1 (Nat.lt_succ_of_le hc.2)
  rw [Text.digit?, if_pos hrange, Option.filter_eq_some_iff]
  exact ⟨rfl, decide_eq_true hless⟩

/-- The reader counts on from the value of the digits that it has read. -/
theorem foldlM_digit?_eq_foldl {digits : List Char} (hdigits : ∀ c ∈ digits, c.isDigit = true)
    (start : Nat) :
    digits.foldlM (fun value c => (Text.digit? 10 c).map (value * 10 + ·)) start =
      some (digits.foldl (fun value c => value * 10 + Numeral.digitValue c) start) := by
  induction digits generalizing start with
  | nil => rfl
  | cons c digits ih =>
      have ⟨hc, hrest⟩ := List.forall_mem_cons.1 hdigits
      rw [List.foldlM_cons, digit?_eq_digitValue hc, List.foldl_cons]
      exact ih hrest _

theorem hasValue_iff_eq_digitsValue {digits : List Char} (hdigits : AreDigits digits)
    {value : Nat} : Text.HasValue 10 digits value ↔ value = Numeral.digitsValue digits := by
  rw [← digits?_eq_some_iff hdigits, Text.digits?, foldlM_digit?_eq_foldl hdigits.2,
    Option.some_inj, eq_comm]
  rfl

theorem below_eq_ok_iff {n : Numeral} (hdigits : AreDigits n.whole) {bound value : Nat} :
    n.below bound = .ok value ↔ naturalMeaning? bound (.number n) = some value := by
  rw [naturalMeaning?_eq_some_iff hdigits, hasValue_iff_eq_digitsValue hdigits, Numeral.below]
  split_ifs with h
  · rw [Except.ok.injEq]
    constructor
    · rintro rfl
      exact ⟨h.1, rfl, h.2⟩
    · rintro ⟨-, rfl, -⟩
      rfl
  · constructor
    · intro herror
      cases herror
    · rintro ⟨hplain, rfl, hless⟩
      exact absurd ⟨hplain, hless⟩ h

theorem natural_append {bound : Nat} {before : List Char} (h : Blank before) (text : List Char) :
    natural bound (before ++ text) = natural bound text := by
  simp only [natural, skipBlank_append h]

theorem natural_numeral {bound : Nat} {c : Char} (hc : c = '-' ∨ c.isDigit = true)
    (text : List Char) :
    natural bound (c :: text) = do
      let (n, source) ← numeral .unexpectedEnd (c :: text)
      return (← n.below bound, source) := by
  have hblank : isBlank c = false := by
    rcases hc with rfl | hc
    · rfl
    · exact isBlank_of_isDigit hc
  simp only [natural, skipBlank_cons hblank, if_pos hc]

theorem natural_sound {bound value : Nat} {text rest : List Char}
    (h : natural bound text = .ok (value, rest)) :
    ∃ before v spelled, Blank before ∧ Value.Spelled v spelled ∧
      naturalMeaning? bound v = some value ∧ text = before ++ (spelled ++ rest) := by
  have ⟨before, hbefore, htext⟩ := exists_blank text
  unfold natural at h
  split at h
  · cases h
  · next c inner hinner =>
      split_ifs at h with hc
      · rcases bind_eq_ok_iff.1 h with ⟨⟨n, behind⟩, hnumeral, h⟩
        rcases bind_eq_ok_iff.1 h with ⟨value, hvalue, h⟩
        cases h
        rcases numeral_sound hnumeral with ⟨spelled, hspelled, heq⟩
        exact ⟨before, .number n, spelled, hbefore, .number hspelled,
          (below_eq_ok_iff hspelled.digits).1 hvalue, by rw [htext, hinner, heq]⟩

theorem natural_complete {bound value : Nat} {n : Numeral} {spelled rest : List Char}
    (hn : n.Spelled spelled) (hvalue : naturalMeaning? bound (.number n) = some value)
    (hrest : EndsNumber rest) : natural bound (spelled ++ rest) = .ok (value, rest) := by
  rcases hn.exists_cons with ⟨c, text, rfl, hc⟩
  rw [List.cons_append, natural_numeral hc, ← List.cons_append,
    numeral_complete .unexpectedEnd hn hrest]
  simp only [bind, Except.bind, (below_eq_ok_iff hn.digits).2 hvalue]
  rfl

theorem le_foldl_digits (digits : List Char) (start : Nat) :
    start ≤ digits.foldl (fun value c => value * 10 + Numeral.digitValue c) start := by
  induction digits generalizing start with
  | nil => exact le_rfl
  | cons c digits ih => exact le_trans (by dsimp only; omega) (ih _)

theorem digitsValue_le_append (front back : List Char) :
    Numeral.digitsValue front ≤ Numeral.digitsValue (front ++ back) := by
  rw [Numeral.digitsValue, Numeral.digitsValue, List.foldl_append]
  exact le_foldl_digits back _

theorem Numeral.Spelled.whole_eq {n : Numeral} {spelled : List Char} (hn : n.Spelled spelled)
    (hplain : n.isPlain = true) : spelled = n.whole := by
  rcases n with ⟨negative, whole, fraction, exponent?⟩
  simp only [Numeral.isPlain, Bool.and_eq_true, Bool.not_eq_true', List.isEmpty_iff,
    Option.isNone_iff_eq_none] at hplain
  rcases hplain with ⟨⟨rfl, rfl⟩, rfl⟩
  rcases hn.parts with ⟨point, exponent, hpoint, hexponent, rfl⟩
  cases hpoint with
  | none =>
      cases hexponent
      simp [minusText]
  | point hds => exact absurd rfl hds.1

/-- A number below a bound cut short is a smaller number. -/
theorem natural_of_append {bound value : Nat} {n : Numeral} {front back : List Char}
    (hn : n.Spelled (front ++ back)) (hvalue : naturalMeaning? bound (.number n) = some value)
    (hback : back ≠ []) (hfront : front ≠ []) :
    ∃ shorter, natural bound front = .ok (shorter, []) := by
  have ⟨hplain, hlong, hless⟩ := (naturalMeaning?_eq_some_iff hn.digits).1 hvalue
  have hwhole := hn.whole_eq hplain
  have ⟨hds, hzero⟩ := wholeDigits_of_append hn.digits hn.zero hwhole.symm hback hfront
  have hshorter : (⟨false, front, [], none⟩ : Numeral).Spelled front :=
    ⟨hds, hzero, [], [], .none, .none, by simp [minusText]⟩
  have hle := digitsValue_le_append front back
  rw [hwhole, ← (hasValue_iff_eq_digitsValue hn.digits).1 hlong] at hle
  have hmeaning : naturalMeaning? bound (.number ⟨false, front, [], none⟩) =
      some (Numeral.digitsValue front) :=
    (naturalMeaning?_eq_some_iff hds).2
      ⟨rfl, (hasValue_iff_eq_digitsValue hds).2 rfl, hle.trans_lt hless⟩
  have hread : natural bound (front ++ []) = .ok (Numeral.digitsValue front, []) :=
    natural_complete hshorter hmeaning trivial
  rw [List.append_nil] at hread
  exact ⟨_, hread⟩

theorem reads_natural (bound : Nat) : Reads (natural bound) (naturalMeaning? bound) where
  append := natural_append
  nil := rfl
  sound := natural_sound
  complete {v spelled rest value} hv hvalue hrest := by
    cases hv with
    | number hn => exact natural_complete hn hvalue hrest
    | _ => cases hvalue
  cut {v front back value} hv hvalue hback := by
    generalize htext : front ++ back = text at hv
    cases hv with
    | number hn =>
        subst htext
        by_cases hfront : front = []
        · exact .inr ⟨.unexpectedEnd, .early, by rw [hfront]; rfl⟩
        · exact .inl (natural_of_append hn hvalue hback hfront)
    | _ => cases hvalue

end Json

namespace Config

open Json

/-! ### Policies -/

/-- A policy is denoted by its name, or by an object with the name as its only key
and `null` as the value. -/
def policyMeaning? : Value → Option VictimPolicy
  | .string items => (text? items).bind VictimPolicy.ofName?
  | .object [(name, .null)] => (text? name).bind VictimPolicy.ofName?
  | _ => none

theorem policyOfName_eq_ok_iff {name : String} {policy : VictimPolicy} :
    policyOfName name = .ok policy ↔ VictimPolicy.ofName? name = some policy := by
  unfold policyOfName
  cases VictimPolicy.ofName? name <;> simp

theorem policy_append {before : List Char} (h : Blank before) (text : List Char) :
    policy (before ++ text) = policy text := by
  simp only [policy, skipBlank_append h]

theorem truncates_policyOfName {α : Type} (name : String) {next : VictimPolicy → Reader α}
    (h : ∀ policy, Truncates (next policy)) :
    Truncates fun source => policyOfName name >>= fun policy => next policy source := by
  cases policyOfName name with
  | error flaw => exact .of_error fun _ => ⟨flaw, rfl⟩
  | ok policy => exact h policy

/-- Reads the rest of an object behind a key that names a policy. -/
def policyEnd (p : VictimPolicy) : Reader VictimPolicy :=
  (mark ':').andThen fun _ => null.andThen fun _ => (mark '}').andThen fun _ source =>
    .ok (p, source)

theorem truncates_policyEnd (p : VictimPolicy) : Truncates (policyEnd p) :=
  (truncates_mark ':').andThen fun _ => truncates_null.andThen fun _ =>
    (truncates_mark '}').andThen fun _ => .pure p

theorem truncates_policy : Truncates policy := by
  refine truncates_of_head policy_append rfl ?_
  intro c hc
  simp only [policy, skipBlank_cons hc]
  by_cases hquote : c = '"'
  · subst hquote
    change Truncates ((string true).andThen fun name source =>
      policyOfName (String.ofList name) >>= fun p => .ok (p, source))
    exact (truncates_stringFrom true .plain []).andThen fun name =>
      truncates_policyOfName (String.ofList name) .pure
  by_cases hopen : c = '{'
  · subst hopen
    change Truncates (key.andThen fun name source =>
      policyOfName name >>= fun p => policyEnd p source)
    exact truncates_key.andThen fun name => truncates_policyOfName name truncates_policyEnd
  · refine .of_error fun text => ⟨.malformed, ?_⟩
    split
    · next heq => cases heq
    · next heq => exact absurd (List.cons.inj heq).1 hquote
    · next heq => exact absurd (List.cons.inj heq).1 hopen
    · rfl

theorem policy_sound {text rest : List Char} {p : VictimPolicy} (h : policy text = .ok (p, rest)) :
    ∃ before v spelled, Blank before ∧ Value.Spelled v spelled ∧ policyMeaning? v = some p ∧
      text = before ++ (spelled ++ rest) := by
  have ⟨before, hbefore, htext⟩ := exists_blank text
  unfold policy at h
  split at h
  · cases h
  · next inner hinner =>
      rcases bind_eq_ok_iff.1 h with ⟨⟨content, behind⟩, hstring, h⟩
      rcases bind_eq_ok_iff.1 h with ⟨p, hp, h⟩
      cases h
      rcases string_eq_ok_iff.1 hstring with ⟨items, spelled, rfl, hspelled, hcontent⟩
      have hname : text? items = some (String.ofList content) := by
        rw [text?, show content? items = some content from hcontent]
        rfl
      refine ⟨before, .string items, _, hbefore, .string hspelled, ?_, by rw [htext, hinner]; simp⟩
      rw [policyMeaning?, hname]
      exact policyOfName_eq_ok_iff.1 hp
  · next inner hinner =>
      rcases bind_eq_ok_iff.1 h with ⟨⟨name, behind⟩, hkey, h⟩
      rcases bind_eq_ok_iff.1 h with ⟨p, hp, h⟩
      rcases bind_eq_ok_iff.1 h with ⟨⟨_, behind⟩, hcolon, h⟩
      rcases bind_eq_ok_iff.1 h with ⟨⟨_, behind⟩, hnull, h⟩
      rcases bind_eq_ok_iff.1 h with ⟨⟨_, behind⟩, hclose, h⟩
      cases h
      rcases key_eq_ok_iff.1 hkey with ⟨outer, items, spelled, houter, rfl, hspelled, hname⟩
      rcases (mark_eq_ok_iff rfl).1 hcolon with ⟨between, hbetween, rfl⟩
      rcases null_eq_ok_iff.1 hnull with ⟨blank, hblank, rfl⟩
      rcases (mark_eq_ok_iff rfl).1 hclose with ⟨after, hafter, rfl⟩
      refine ⟨before, .object [(items, .null)], _, hbefore,
        .object (.last (.mk houter hspelled hbetween) hblank .null hafter), ?_,
        by rw [htext, hinner]; simp⟩
      rw [policyMeaning?, hname]
      exact policyOfName_eq_ok_iff.1 hp
  · cases h

theorem policy_complete {v : Value} {spelled : List Char} {p : VictimPolicy}
    (hv : v.Spelled spelled) (hp : policyMeaning? v = some p) (rest : List Char) :
    policy (spelled ++ rest) = .ok (p, rest) := by
  cases hv with
  | @string items text hitems =>
      rw [policyMeaning?, text?, Option.bind_map, Option.bind_eq_some_iff] at hp
      rcases hp with ⟨content, hcontent, hname⟩
      have hstring : string true (text ++ '"' :: rest) = .ok (content, rest) :=
        string_eq_ok_iff.2 ⟨items, text, rfl, hitems, hcontent⟩
      have htext : '"' :: (text ++ ['"']) ++ rest = '"' :: (text ++ '"' :: rest) := by simp
      rw [htext]
      simp only [policy, skipBlank_cons (show isBlank '"' = false from rfl), hstring, bind,
        Except.bind, policyOfName_eq_ok_iff.2 hname]
      rfl
  | object hms =>
      cases hms with
      | @last k v key before text after hk hbefore hv hafter =>
          cases hv with
          | null =>
              rw [policyMeaning?, Option.bind_eq_some_iff] at hp
              rcases hp with ⟨name, hname, hp⟩
              rcases hk.exists_key hname
                  (before ++ ('n' :: 'u' :: 'l' :: 'l' :: (after ++ '}' :: rest))) with
                ⟨colon, hkey, hmark⟩
              have hnull : null (before ++ ('n' :: 'u' :: 'l' :: 'l' :: (after ++ '}' :: rest))) =
                  .ok ((), after ++ '}' :: rest) :=
                null_eq_ok_iff.2 ⟨before, hbefore, rfl⟩
              have hclose : mark '}' (after ++ '}' :: rest) = .ok ((), rest) :=
                (mark_eq_ok_iff rfl).2 ⟨after, hafter, rfl⟩
              have htext : '{' :: (key ++ (before ++ (['n', 'u', 'l', 'l'] ++ (after ++ ['}'])))) ++
                  rest = '{' :: (key ++
                    (before ++ ('n' :: 'u' :: 'l' :: 'l' :: (after ++ '}' :: rest)))) := by
                simp
              rw [htext]
              simp only [policy, skipBlank_cons (show isBlank '{' = false from rfl), hkey, bind,
                Except.bind, policyOfName_eq_ok_iff.2 hp, hmark, hnull, hclose]
              rfl
          | _ => cases hp
      | cons _ _ _ _ hmore =>
          cases hmore <;> simp [policyMeaning?] at hp
  | _ => cases hp

theorem reads_policy : Reads policy policyMeaning? where
  append := policy_append
  nil := rfl
  sound := policy_sound
  complete hv hp _ := policy_complete hv hp _
  cut {v front back p} hv hp hback := by
    have hwhole : policy (front ++ back) = .ok (p, []) := by
      simpa using policy_complete hv hp []
    exact .inr ⟨.unexpectedEnd, .early, truncates_policy.unexpectedEnd hback hwhole⟩

/-! ### Configurations -/

def wordMeaning? : Value → Option Nat := naturalMeaning? UInt64.size

def geometryMeanings : List (FieldMeaning Geometry) := [
  .of "ways" wordMeaning? fun ways g => { g with ways },
  .of "sets" wordMeaning? fun sets g => { g with sets },
  .of "offset_bits" (naturalMeaning? UInt32.size) fun offsetBits g => { g with offsetBits },
  .of "victim_selection" policyMeaning? fun policy g => { g with policy }]

def workloadMeanings : List (FieldMeaning MatMul) := [
  .of "matrix_size" wordMeaning? fun size m => { m with size },
  .of "element_bytes" wordMeaning? fun bytes m => { m with elementBytes := UInt64.ofNat bytes },
  .of "a_base" wordMeaning? fun base m => { m with leftBase := UInt64.ofNat base },
  .of "b_base" wordMeaning? fun base m => { m with rightBase := UInt64.ofNat base },
  .of "c_base" wordMeaning? fun base m => { m with resultBase := UInt64.ofNat base }]

def configMeanings : List (FieldMeaning Config) := [
  .of "cache" (recordMeaning? geometryMeanings {}) fun cache c => { c with cache },
  .of "workload" (recordMeaning? workloadMeanings {}) fun workload c => { c with workload }]

/-- The configuration that a JSON value denotes. -/
def denoted? : Value → Option Config := recordMeaning? configMeanings {}

theorem independent_geometryMeanings : Independent geometryMeanings := by
  simp only [Independent, geometryMeanings, List.pairwise_cons, List.mem_cons, List.not_mem_nil,
    forall_eq_or_imp, false_imp_iff, implies_true, List.Pairwise.nil, and_true]
  refine ⟨⟨?_, ?_, ?_⟩, ⟨?_, ?_⟩, ?_⟩
  all_goals
    refine apart_of ?_ fun _ _ _ => rfl
    decide

theorem independent_workloadMeanings : Independent workloadMeanings := by
  simp only [Independent, workloadMeanings, List.pairwise_cons, List.mem_cons, List.not_mem_nil,
    forall_eq_or_imp, false_imp_iff, implies_true, List.Pairwise.nil, and_true]
  refine ⟨⟨?_, ?_, ?_, ?_⟩, ⟨?_, ?_, ?_⟩, ⟨?_, ?_⟩, ?_⟩
  all_goals
    refine apart_of ?_ fun _ _ _ => rfl
    decide

theorem independent_configMeanings : Independent configMeanings := by
  simp only [Independent, configMeanings, List.pairwise_cons, List.mem_cons, List.not_mem_nil,
    forall_eq_or_imp, false_imp_iff, implies_true, List.Pairwise.nil, and_true]
  refine apart_of ?_ fun _ _ _ => rfl
  decide

theorem reads_word : Reads word wordMeaning? := reads_natural UInt64.size

theorem geometryFields_read : FieldsRead geometryFields geometryMeanings :=
  .cons (reads_of reads_word _ _) <| .cons (reads_of reads_word _ _) <|
    .cons (reads_of (reads_natural _) _ _) <| .cons (reads_of reads_policy _ _) .nil

theorem workloadFields_read : FieldsRead workloadFields workloadMeanings :=
  .cons (reads_of reads_word _ _) <| .cons (reads_of reads_word _ _) <|
    .cons (reads_of reads_word _ _) <| .cons (reads_of reads_word _ _) <|
      .cons (reads_of reads_word _ _) .nil

theorem configFields_read : FieldsRead configFields configMeanings :=
  .cons (reads_of (reads_record geometryFields_read independent_geometryMeanings) _ _) <|
    .cons (reads_of (reads_record workloadFields_read independent_workloadMeanings) _ _) .nil

theorem reads_config : Reads (record configFields {}) denoted? :=
  reads_record configFields_read independent_configMeanings

theorem ofJson_eq_ok_iff {text : String} {c : Config} :
    ofJson text = .ok c ↔ document (record configFields {}) text.toList = .ok c := by
  rw [ofJson]
  cases document (record configFields {}) text.toList <;> simp [Except.mapError]

/-- The texts that are accepted are those of one value that denotes a
configuration. -/
theorem ofJson_accepts_what_denotes (text : String) (c : Config) :
    ofJson text = .ok c ↔
      ∃ v, Spells text.toList v ∧ (∀ w, Spells text.toList w → w = v) ∧ denoted? v = some c := by
  rw [ofJson_eq_ok_iff, document_eq_ok_iff reads_config]
  constructor
  · rintro ⟨v, hspells, hdenoted⟩
    exact ⟨v, hspells, fun w hother => hspells.unique hother, hdenoted⟩
  · rintro ⟨v, hspells, -, hdenoted⟩
    exact ⟨v, hspells, hdenoted⟩

/-- An escape in a key of the cache, which is written as an object in an array. -/
example : ofJson "[ \x7b\"w\\u0061ys\":8\x7d ]" = .ok { cache := { ways := 8 } } := by rfl

end Config

end PseudoLru
