import PseudoLru.Proofs.JsonCuts
import PseudoLru.Proofs.JsonMeaning

/-!
# Reading the members of an object

What it takes for a reader to read what values mean: it accepts the texts of the
values that have a meaning and no others, and of a text that was cut within such
a value it says that it is too short.  The readers of fields pass this on to the
reader of members, whose members may come in any order and between others.
-/

namespace PseudoLru.Json

/-! ### Readers and meanings -/

/-- The reader takes exactly the values that have a meaning, and reads it.  It
tells a text that was cut within such a value. -/
structure Reads {α : Type} (read : Reader α) (meaning? : Value → Option α) : Prop where
  append : ∀ {before : List Char}, Blank before → ∀ text, read (before ++ text) = read text
  nil : read [] = .error .unexpectedEnd
  sound : ∀ {text rest : List Char} {a : α}, read text = .ok (a, rest) →
    ∃ before v spelled, Blank before ∧ Value.Spelled v spelled ∧ meaning? v = some a ∧
      text = before ++ (spelled ++ rest)
  complete : ∀ {v : Value} {spelled rest : List Char} {a : α}, v.Spelled spelled →
    meaning? v = some a → EndsNumber rest → read (spelled ++ rest) = .ok (a, rest)
  cut : ∀ {v : Value} {front back : List Char} {a : α}, v.Spelled (front ++ back) →
    meaning? v = some a → back ≠ [] → (∃ shorter, read front = .ok (shorter, [])) ∨
      ∃ flaw, CutShort front back (fun t => ∃ w : Value, w.Spelled t ∧ meaning? w = some a) flaw ∧
        read front = .error flaw

theorem EndsNumber.of_append {front back : List Char} (h : EndsNumber (front ++ back)) :
    EndsNumber front := by
  cases front with
  | nil => trivial
  | cons c front => exact h

/-- A cut within a value, in the white space in front of it, or behind it. -/
theorem Reads.within {α : Type} {read : Reader α} {meaning? : Value → Option α} {v : Value} {a : α}
    {before text tail front back : List Char} (hread : Reads read meaning?) (hbefore : Blank before)
    (hv : v.Spelled text) (ha : meaning? v = some a)
    (htext : before ++ (text ++ tail) = front ++ back) :
    (∃ shorter, read front = .ok (shorter, [])) ∨
      (∃ flaw, CutShort front back (fun t => ∃ (w : Value) (spelled : List Char),
        w.Spelled spelled ∧ meaning? w = some a ∧ t = before ++ (spelled ++ tail)) flaw ∧
          read front = .error flaw) ∨
      ∃ behind, front = before ++ (text ++ behind) ∧ tail = behind ++ back := by
  rcases append_eq_append_cases htext.symm with ⟨rest, -, rfl, -⟩ | ⟨p, rfl, hp⟩
  · have hblank := (blank_append_iff.1 hbefore).1
    refine .inr (.inl ⟨.unexpectedEnd, .early, ?_⟩)
    rw [← List.append_nil front, hread.append hblank, hread.nil]
  rcases append_eq_append_cases hp.symm with ⟨rest, hrest, rfl, rfl⟩ | ⟨q, rfl, hq⟩
  · rw [hread.append hbefore]
    rcases hread.cut hv ha hrest with hshorter | ⟨flaw, hshort, hflaw⟩
    · exact .inl hshorter
    · refine .inr (.inl ⟨flaw, hshort.around before tail ?_, hflaw⟩)
      rintro _ ⟨w, hw, hmeaning⟩
      exact ⟨w, _, hw, hmeaning, rfl⟩
  · exact .inr (.inr ⟨q, rfl, hq⟩)

theorem Reads.map {α β : Type} {read : Reader α} {meaning? : Value → Option α}
    (h : Reads read meaning?) (f : α → β) :
    Reads (fun source => do
        let (value, source) ← read source
        return (f value, source))
      (fun v => (meaning? v).map f) where
  append hbefore text := by simp only [h.append hbefore]
  nil := by simp [h.nil, bind, Except.bind]
  sound hread := by
    rcases bind_eq_ok_iff.1 hread with ⟨⟨a, rest⟩, ha, hrest⟩
    cases hrest
    rcases h.sound ha with ⟨before, v, spelled, hbefore, hv, hmeaning, htext⟩
    exact ⟨before, v, spelled, hbefore, hv, by rw [hmeaning]; rfl, htext⟩
  complete hv hmeaning hrest := by
    rcases Option.map_eq_some_iff.1 hmeaning with ⟨a, ha, rfl⟩
    rw [h.complete hv ha hrest]
    rfl
  cut hv hmeaning hback := by
    rcases Option.map_eq_some_iff.1 hmeaning with ⟨a, ha, rfl⟩
    rcases h.cut hv ha hback with ⟨shorter, hshorter⟩ | ⟨flaw, hshort, hflaw⟩
    · exact .inl ⟨f shorter, by rw [hshorter]; rfl⟩
    · refine .inr ⟨flaw, hshort.imp ?_, by rw [hflaw]; rfl⟩
      rintro t ⟨w, hw, hmeaning⟩
      exact ⟨w, hw, by rw [hmeaning]; rfl⟩

/-- The reader of a value that nobody asks for. -/
def skipped : Reader Unit := fun text => (skip true [] text).map fun rest => ((), rest)

theorem reads_skipped : Reads skipped fun _ => some () where
  append hbefore text := by rw [skipped, skipped, skip_due_append hbefore]
  nil := rfl
  sound {text rest a} hread := by
    rw [skipped, ← skipValue_eq (Nat.lt_succ_self text.length)] at hread
    rcases skipValue_sound hread with ⟨before, v, spelled, hbefore, hv, htext⟩
    exact ⟨before, v, spelled, hbefore, hv, rfl, htext⟩
  complete hv _ hrest := by
    rw [skipped, hv.skip_append [] hrest]
    rfl
  cut {v front back a} hv _ hback := by
    rcases hv.cutsAsValue front back rfl hback with ⟨n, hn⟩ | ⟨flaw, hshort, hskip⟩
    · have hnumber : skip true [] (front ++ []) = skip false [] [] :=
        (Value.Spelled.number hn).skip_append _ trivial
      rw [List.append_nil] at hnumber
      exact .inl ⟨(), by rw [skipped, hnumber]; rfl⟩
    · refine .inr ⟨flaw, hshort.imp ?_, by rw [skipped, hskip]; rfl⟩
      rintro t ⟨w, hw⟩
      exact ⟨w, hw, rfl⟩

/-! ### Fields -/

section

variable {ρ : Type} {fields : List (Field ρ)} {meanings : List (FieldMeaning ρ)}

/-- Each field is read as it is meant. -/
def FieldsRead (fields : List (Field ρ)) (meanings : List (FieldMeaning ρ)) : Prop :=
  List.Forall₂
    (fun field meaning => field.name = meaning.name ∧ Reads field.read meaning.change?)
    fields meanings

theorem reads_of {α : Type} {read : Reader α} {meaning? : Value → Option α}
    (h : Reads read meaning?) (name : String) (put : α → ρ → ρ) :
    (Field.of name read put).name = (FieldMeaning.of name meaning? put).name ∧
      Reads (Field.of name read put).read (FieldMeaning.of name meaning? put).change? :=
  ⟨rfl, h.map put⟩

theorem FieldsRead.map_name (h : FieldsRead fields meanings) :
    fields.map (·.name) = meanings.map (·.name) := by
  induction h with
  | nil => rfl
  | cons hfield _ ih => simp [hfield.1, ih]

/-- The reader of the value under the given key. -/
def readNamed (fields : List (Field ρ)) (name : String) : Reader (ρ → ρ) :=
  match fields.find? (·.name == name) with
  | some field => field.read
  | none => fun source => do
      let ((), source) ← skipped source
      return (id, source)

theorem FieldsRead.readNamed (h : FieldsRead fields meanings) (name : String) :
    Reads (readNamed fields name) (changeNamed? meanings name) := by
  unfold Json.readNamed changeNamed?
  induction h with
  | nil => exact reads_skipped.map fun _ => id
  | @cons field meaning _ _ hfield _ ih =>
      by_cases hname : meaning.name = name
      · simpa [hfield.1, hname] using hfield.2
      · simpa [hfield.1, hname] using ih

/-! ### Members -/

theorem length_lt_of_mark {due : Char} {text rest : List Char} {u : Unit}
    (hdue : isBlank due = false) (h : mark due text = .ok (u, rest)) :
    rest.length < text.length := by
  rcases (mark_eq_ok_iff hdue).1 h with ⟨before, -, rfl⟩
  simp
  omega

theorem length_lt_of_key {text rest : List Char} {name : String}
    (h : key text = .ok (name, rest)) : rest.length < text.length := by
  rcases key_eq_ok_iff.1 h with ⟨before, items, spelled, -, rfl, -⟩
  simp
  omega

/-- A member, however long the value that is skipped in it. -/
def namedMember (fields : List (Field ρ)) (seen : List String) :
    Reader (List String × (ρ → ρ)) := fun source => do
  let (name, source) ← key source
  if name ∈ fields.map (·.name) ∧ name ∈ seen then
    throw .unsuitable
  else
    let ((), source) ← mark ':' source
    let (change, source) ← readNamed fields name source
    return ((noted (fields.map (·.name)) seen name, change), source)

theorem member_eq_namedMember {rounds : Nat} {source : List Char}
    (h : source.length < rounds + 1) (seen : List String) :
    member fields rounds seen source = namedMember fields seen source := by
  refine bind_congr_ok fun read hkey => ?_
  rcases read with ⟨name, behind⟩
  have hlt := length_lt_of_key hkey
  dsimp only
  cases hfind : fields.find? (·.name == name) with
  | some field =>
      have hname : field.name = name := by simpa using List.find?_some hfind
      have hmem : name ∈ fields.map (·.name) :=
        List.mem_map.2 ⟨field, List.mem_of_find?_eq_some hfind, hname⟩
      by_cases hseen : name ∈ seen
      · simp only [List.contains_iff_mem, hseen, hmem, and_self, if_true]
      · simp only [List.contains_iff_mem, hseen, hmem, and_false, if_false, readNamed, hfind, noted,
          if_true]
  | none =>
      have hmem : name ∉ fields.map (·.name) := by
        intro hmem
        rcases List.mem_map.1 hmem with ⟨field, hfield, rfl⟩
        simpa using List.find?_eq_none.1 hfind field hfield
      simp only [hmem, false_and, if_false, readNamed, hfind, noted, List.contains_iff_mem]
      refine bind_congr_ok fun read hmark => ?_
      rcases read with ⟨_, rest⟩
      have hmarked := length_lt_of_mark rfl hmark
      have hskip : skipValue rounds rest = skipped rest := skipValue_eq (by omega)
      simp only [hskip]
      cases skipped rest <;> rfl

theorem namedMember_sound (hfields : FieldsRead fields meanings) {seen seen' : List String}
    {change : ρ → ρ} {source rest : List Char}
    (h : namedMember fields seen source = .ok ((seen', change), rest)) :
    ∃ k key before v text name, KeySpelled k key ∧ Blank before ∧ Value.Spelled v text ∧
      source = key ++ (before ++ (text ++ rest)) ∧ text? k = some name ∧
        changeNamed? meanings name v = some change ∧
          ¬(name ∈ meanings.map (·.name) ∧ name ∈ seen) ∧
            seen' = noted (meanings.map (·.name)) seen name := by
  rcases bind_eq_ok_iff.1 h with ⟨⟨name, behind⟩, hkey, h⟩
  dsimp only at h
  split_ifs at h with hdup
  rcases bind_eq_ok_iff.1 h with ⟨⟨_, behind⟩, hmark, h⟩
  rcases bind_eq_ok_iff.1 h with ⟨⟨change, rest⟩, hread, h⟩
  cases h
  rcases key_eq_ok_iff.1 hkey with ⟨outer, items, spelled, houter, rfl, hitems, hname⟩
  rcases (mark_eq_ok_iff rfl).1 hmark with ⟨between, hbetween, rfl⟩
  rcases (hfields.readNamed name).sound hread with ⟨before, v, text, hbefore, hv, hchange, rfl⟩
  rw [hfields.map_name] at hdup ⊢
  exact ⟨items, _, before, v, text, name, .mk houter hitems hbetween, hbefore, hv, by simp, hname,
    hchange, hdup, rfl⟩

/-- A key and its colon are read one after the other. -/
theorem KeySpelled.exists_key {k : List StringItem} {spelled : List Char} {name : String}
    (hk : KeySpelled k spelled) (hname : text? k = some name) (source : List Char) :
    ∃ colon, key (spelled ++ source) = .ok (name, colon ++ source) ∧
      mark ':' (colon ++ source) = .ok ((), source) := by
  cases hk with
  | @mk before text between hbefore hitems hbetween =>
      exact ⟨between ++ [':'], key_eq_ok_iff.2 ⟨before, k, text, hbefore, by simp, hitems, hname⟩,
        (mark_eq_ok_iff rfl).2 ⟨between, hbetween, by simp⟩⟩

theorem namedMember_append {k : List StringItem} {spelled : List Char} {name : String}
    {seen : List String} (hk : KeySpelled k spelled) (hname : text? k = some name)
    (hdup : ¬(name ∈ fields.map (·.name) ∧ name ∈ seen)) (source : List Char) :
    namedMember fields seen (spelled ++ source) = do
      let (change, source) ← readNamed fields name source
      return ((noted (fields.map (·.name)) seen name, change), source) := by
  have ⟨colon, hkey, hmark⟩ := hk.exists_key hname source
  simp only [namedMember, hkey, bind, Except.bind, if_neg hdup, hmark]

theorem namedMember_of_append {k : List StringItem} {front back : List Char} {name : String}
    {seen : List String} (hk : KeySpelled k (front ++ back)) (hname : text? k = some name)
    (hdup : ¬(name ∈ fields.map (·.name) ∧ name ∈ seen)) (hback : back ≠ []) :
    namedMember fields seen front = .error .unexpectedEnd := by
  have ⟨colon, hkey, hmark⟩ := hk.exists_key hname []
  simp only [List.append_nil] at hkey hmark
  rcases truncates_key _ _ _ _ hkey with hend | ⟨left, hleft, hfront⟩
  · simp only [namedMember, hend, bind, Except.bind]
  · have hend : mark ':' left = .error .unexpectedEnd :=
      (truncates_mark ':').unexpectedEnd hback (hleft ▸ hmark)
    simp only [namedMember, hfront, bind, Except.bind, if_neg hdup, hend]

theorem namedMember_complete (hfields : FieldsRead fields meanings) {k : List StringItem}
    {key before text rest : List Char} {v : Value} {name : String} {change : ρ → ρ}
    {seen : List String} (hk : KeySpelled k key) (hbefore : Blank before) (hv : v.Spelled text)
    (hname : text? k = some name) (hchange : changeNamed? meanings name v = some change)
    (hdup : ¬(name ∈ meanings.map (·.name) ∧ name ∈ seen)) (hrest : EndsNumber rest) :
    namedMember fields seen (key ++ (before ++ (text ++ rest))) =
      .ok ((noted (meanings.map (·.name)) seen name, change), rest) := by
  have hreads := hfields.readNamed name
  rw [← hfields.map_name] at hdup ⊢
  rw [namedMember_append hk hname hdup, hreads.append hbefore, hreads.complete hv hchange hrest]
  rfl

/-- A cut within a member, or behind it. -/
theorem namedMember_cut (hfields : FieldsRead fields meanings) {k : List StringItem}
    {key before text tail front back : List Char} {v : Value} {name : String} {change : ρ → ρ}
    {seen : List String} (hk : KeySpelled k key) (hbefore : Blank before) (hv : v.Spelled text)
    (hname : text? k = some name) (hchange : changeNamed? meanings name v = some change)
    (hdup : ¬(name ∈ meanings.map (·.name) ∧ name ∈ seen))
    (htext : key ++ (before ++ (text ++ tail)) = front ++ back) :
    (∃ shorter, namedMember fields seen front = .ok (shorter, [])) ∨
      (∃ flaw, CutShort front back (fun t => ∃ (w : Value) (spelled : List Char),
        w.Spelled spelled ∧ changeNamed? meanings name w = some change ∧
          t = key ++ (before ++ (spelled ++ tail))) flaw ∧
            namedMember fields seen front = .error flaw) ∨
        ∃ behind, front = key ++ (before ++ (text ++ behind)) ∧ tail = behind ++ back := by
  rw [← hfields.map_name] at hdup
  rcases append_eq_append_cases htext.symm with ⟨rest, hrest, rfl, -⟩ | ⟨front, rfl, hvalue⟩
  · exact .inr (.inl ⟨.unexpectedEnd, .early, namedMember_of_append hk hname hdup hrest⟩)
  rw [namedMember_append hk hname hdup]
  rcases (hfields.readNamed name).within hbefore hv hchange hvalue with
    ⟨shorter, hshorter⟩ | ⟨flaw, hshort, hflaw⟩ | ⟨behind, rfl, htail⟩
  · exact .inl ⟨_, by rw [hshorter]; rfl⟩
  · refine .inr (.inl ⟨flaw, hshort.behind key ?_, by rw [hflaw]; rfl⟩)
    rintro _ ⟨w, spelled, hw, hmeaning, rfl⟩
    exact ⟨w, spelled, hw, hmeaning, rfl⟩
  · exact .inr (.inr ⟨behind, rfl, htail⟩)

/-- The text behind a member of an object. -/
inductive MoreMembers : List (List StringItem × Value) → List Char → Prop
  | close {between : List Char} : Blank between → MoreMembers [] (between ++ ['}'])
  | comma {ms : List (List StringItem × Value)} {between text : List Char} :
      Blank between → MembersSpelled ms text → MoreMembers ms (between ++ ',' :: text)

theorem membersSpelled_iff {ms : List (List StringItem × Value)} {text : List Char} :
    MembersSpelled ms text ↔ ∃ k v others key before spelled tail, ms = (k, v) :: others ∧
      KeySpelled k key ∧ Blank before ∧ Value.Spelled v spelled ∧ MoreMembers others tail ∧
        text = key ++ (before ++ (spelled ++ tail)) := by
  constructor
  · intro h
    cases h with
    | last hk hbefore hv hafter =>
        exact ⟨_, _, _, _, _, _, _, rfl, hk, hbefore, hv, .close hafter, rfl⟩
    | cons hk hbefore hv hafter hmore =>
        exact ⟨_, _, _, _, _, _, _, rfl, hk, hbefore, hv, .comma hafter hmore, rfl⟩
  · rintro ⟨k, v, others, key, before, spelled, tail, rfl, hk, hbefore, hv, htail, rfl⟩
    cases htail with
    | close hafter => exact .last hk hbefore hv hafter
    | comma hafter hmore => exact .cons hk hbefore hv hafter hmore

theorem MoreMembers.endsNumber {ms : List (List StringItem × Value)} {text : List Char}
    (h : MoreMembers ms text) (rest : List Char) : EndsNumber (text ++ rest) := by
  cases h with
  | close hbetween | comma hbetween _ =>
      rw [List.append_assoc]
      exact EndsNumber.append hbetween (by simp [EndsNumber])

/-- Behind a member, the cut goes through white space or through later members. -/
theorem MoreMembers.cut_cases {ms : List (List StringItem × Value)} {text front back : List Char}
    (h : MoreMembers ms text) (htext : text = front ++ back) (hback : back ≠ []) :
    Blank front ∨ ∃ between behind, Blank between ∧ front = between ++ ',' :: behind ∧
      MembersSpelled ms (behind ++ back) := by
  cases h with
  | close hbetween =>
      rcases cut_before_mark htext with ⟨rest, rfl⟩ | ⟨more, -, hmore⟩
      · exact .inl (blank_append_iff.1 hbetween).1
      · simp [hback] at hmore
  | comma hbetween hspelled =>
      rcases cut_before_mark htext with ⟨rest, rfl⟩ | ⟨behind, rfl, rfl⟩
      · exact .inl (blank_append_iff.1 hbetween).1
      · exact .inr ⟨_, behind, hbetween, rfl, hspelled⟩

theorem members_sound (hfields : FieldsRead fields meanings) {rounds : Nat} {seen : List String}
    {record result : ρ} {source rest : List Char} (hrounds : source.length < rounds)
    (h : members fields rounds seen record source = .ok (result, rest)) :
    ∃ ms spelled, MembersSpelled ms spelled ∧ inOrder? meanings seen record ms = some result ∧
      source = spelled ++ rest := by
  induction rounds generalizing seen record source with
  | zero => omega
  | succ rounds ih =>
      rw [members, member_eq_namedMember hrounds] at h
      rcases bind_eq_ok_iff.1 h with ⟨⟨⟨seen', change⟩, behind⟩, hmember, h⟩
      rcases namedMember_sound hfields hmember with
        ⟨k, key, before, v, text, name, hk, hbefore, hv, rfl, hname, hchange, hdup, rfl⟩
      have ⟨after, hafter, hbehind⟩ := exists_blank behind
      dsimp only at h
      split at h
      · next more hmore =>
          have hlength : more.length < rounds := by
            rw [hbehind, hmore] at hrounds
            simp only [List.length_append, List.length_cons] at hrounds
            omega
          rcases ih hlength h with ⟨ms, members, hmembers, hresult, rfl⟩
          refine ⟨(k, v) :: ms, _, .cons hk hbefore hv hafter hmembers,
            inOrder?_cons_iff.2 ⟨name, change, hname, hchange, hdup, hresult⟩, ?_⟩
          rw [hbehind, hmore]
          simp
      · rcases bind_eq_ok_iff.1 h with ⟨⟨_, closed⟩, hmark, h⟩
        cases h
        rcases (mark_eq_ok_iff rfl).1 hmark with ⟨between, hbetween, hclosed⟩
        refine ⟨[(k, v)], _, .last hk hbefore hv (hafter.append hbetween),
          inOrder?_cons_iff.2 ⟨name, change, hname, hchange, hdup, rfl⟩, ?_⟩
        rw [hbehind, hclosed]
        simp

/-- Behind a member, a comma leads to the next one. -/
theorem members_comma {rounds : Nat} {seen seen' : List String} {record : ρ} {change : ρ → ρ}
    {source after more : List Char} (hafter : Blank after) (hrounds : source.length < rounds + 1)
    (h : namedMember fields seen source = .ok ((seen', change), after ++ ',' :: more)) :
    members fields (rounds + 1) seen record source =
      members fields rounds seen' (change record) more := by
  rw [members, member_eq_namedMember hrounds, h]
  simp only [bind, Except.bind, skipBlank_append hafter,
    skipBlank_cons (show isBlank ',' = false from rfl)]

theorem members_close {rounds : Nat} {seen seen' : List String} {record : ρ} {change : ρ → ρ}
    {source after rest : List Char} (hafter : Blank after) (hrounds : source.length < rounds + 1)
    (h : namedMember fields seen source = .ok ((seen', change), after ++ '}' :: rest)) :
    members fields (rounds + 1) seen record source = .ok (change record, rest) := by
  rw [members, member_eq_namedMember hrounds, h]
  simp only [bind, Except.bind, skipBlank_append hafter,
    skipBlank_cons (show isBlank '}' = false from rfl)]
  rfl

theorem members_end {rounds : Nat} {seen seen' : List String} {record : ρ} {change : ρ → ρ}
    {source after : List Char} (hafter : Blank after) (hrounds : source.length < rounds + 1)
    (h : namedMember fields seen source = .ok ((seen', change), after)) :
    members fields (rounds + 1) seen record source = .error .unexpectedEnd := by
  rw [members, member_eq_namedMember hrounds, h]
  simp only [bind, Except.bind, skipBlank_eq_nil_iff.2 hafter]
  rfl

theorem members_error {rounds : Nat} {seen : List String} {record : ρ} {source : List Char}
    {flaw : Flaw} (hrounds : source.length < rounds + 1)
    (h : namedMember fields seen source = .error flaw) :
    members fields (rounds + 1) seen record source = .error flaw := by
  rw [members, member_eq_namedMember hrounds, h]
  rfl

theorem members_complete (hfields : FieldsRead fields meanings)
    {ms : List (List StringItem × Value)} {spelled rest : List Char} (h : MembersSpelled ms spelled)
    {rounds : Nat} {seen : List String} {record result : ρ}
    (hresult : inOrder? meanings seen record ms = some result)
    (hrounds : (spelled ++ rest).length < rounds) :
    members fields rounds seen record (spelled ++ rest) = .ok (result, rest) := by
  induction ms generalizing spelled rounds seen record with
  | nil => cases h
  | cons m ms ih =>
      rcases rounds with _ | rounds
      · omega
      rcases membersSpelled_iff.1 h with
        ⟨k, v, others, key, before, text, tail, heq, hk, hbefore, hv, htail, rfl⟩
      cases heq
      rcases inOrder?_cons_iff.1 hresult with ⟨name, change, hname, hchange, hdup, hresult⟩
      have hmember := namedMember_complete hfields hk hbefore hv hname hchange hdup
        (htail.endsNumber rest)
      simp only [List.append_assoc] at hrounds ⊢
      cases htail with
      | @close after hafter =>
          cases hresult
          rw [List.append_assoc] at hmember hrounds ⊢
          exact members_close hafter hrounds hmember
      | @comma _ after more hafter hmore =>
          rw [List.append_assoc] at hmember hrounds ⊢
          rw [members_comma hafter hrounds hmember]
          refine ih hmore hresult ?_
          simp only [List.length_append, List.length_cons] at hrounds ⊢
          omega

theorem EndsNumber.of_blank {text : List Char} (h : Blank text) : EndsNumber text := by
  rw [← List.append_nil text]
  exact EndsNumber.append h trivial

/-- A cut within the members of an object, up to its closing brace. -/
theorem members_cut (hfields : FieldsRead fields meanings)
    {ms : List (List StringItem × Value)} {text front back : List Char} (h : MembersSpelled ms text)
    (htext : text = front ++ back) (hback : back ≠ []) {rounds : Nat} {seen : List String}
    {record result : ρ} (hresult : inOrder? meanings seen record ms = some result)
    (hrounds : front.length < rounds) :
    ∃ flaw, CutShort front back (fun t => ∃ ms, MembersSpelled ms t ∧
        inOrder? meanings seen record ms = some result) flaw ∧
      members fields rounds seen record front = .error flaw := by
  induction ms generalizing text front rounds seen record with
  | nil => cases h
  | cons m ms ih =>
      rcases rounds with _ | rounds
      · omega
      rcases membersSpelled_iff.1 h with
        ⟨k, v, others, key, before, inner, tail, heq, hk, hbefore, hv, htail, rfl⟩
      cases heq
      rcases inOrder?_cons_iff.1 hresult with ⟨name, change, hname, hchange, hdup, hresult⟩
      rcases namedMember_cut hfields hk hbefore hv hname hchange hdup htext with
        ⟨⟨_, _⟩, hshorter⟩ | ⟨flaw, hshort, hflaw⟩ | ⟨behind, rfl, hbehind⟩
      · exact ⟨.unexpectedEnd, .early, members_end Blank.nil hrounds hshorter⟩
      · refine ⟨flaw, hshort.imp ?_, members_error hrounds hflaw⟩
        rintro _ ⟨w, spelled, hw, hmeaning, rfl⟩
        exact ⟨_, membersSpelled_iff.2 ⟨k, w, ms, key, before, spelled, tail, rfl, hk, hbefore, hw,
          htail, rfl⟩, inOrder?_cons_iff.2 ⟨name, change, hname, hmeaning, hdup, hresult⟩⟩
      rcases htail.cut_cases hbehind hback with hblank | ⟨after, front, hafter, rfl, hmore⟩
      · exact ⟨.unexpectedEnd, .early, members_end hblank hrounds
          (namedMember_complete hfields hk hbefore hv hname hchange hdup (.of_blank hblank))⟩
      · have hends : EndsNumber (after ++ ',' :: front) :=
          EndsNumber.append hafter (by simp [EndsNumber])
        have hmember := namedMember_complete hfields hk hbefore hv hname hchange hdup hends
        rw [members_comma hafter hrounds hmember]
        have hlength : front.length < rounds := by
          simp only [List.length_append, List.length_cons] at hrounds
          omega
        rcases ih hmore rfl hresult hlength with ⟨flaw, hshort, hflaw⟩
        refine ⟨flaw, ?_, hflaw⟩
        have hlater : CutShort (key ++ (before ++ (inner ++ (after ++ [',']))) ++ front) back
            (fun t => ∃ ms, MembersSpelled ms t ∧
              inOrder? meanings seen record ms = some result) flaw :=
          hshort.behind _ fun t ⟨others, hothers, hmeaning⟩ =>
            ⟨(k, v) :: others, by simpa using MembersSpelled.cons hk hbefore hv hafter hothers,
              inOrder?_cons_iff.2 ⟨name, change, hname, hchange, hdup, hmeaning⟩⟩
        simpa using hlater

end

end PseudoLru.Json
