import Mathlib.Tactic
import PseudoLru.Proofs.JsonGrammar

/-!
# What a JSON value means as a record

An object means a record whatever the order of its members: each field is looked
up for itself.  An array means the record whose first fields are its elements.
What is not given has its default.

A reader goes through the members one after the other, and that comes to the same
when the fields have different keys and change different parts of the record.
-/

namespace PseudoLru.Json

/-! ### What a value means as a record -/

/-- A field of a record: its key, and the change of the record that a value
means. -/
structure FieldMeaning (ρ : Type) where
  name : String
  change? : Value → Option (ρ → ρ)

def FieldMeaning.of {α ρ : Type} (name : String) (meaning? : Value → Option α)
    (put : α → ρ → ρ) : FieldMeaning ρ where
  name
  change? := fun v => (meaning? v).map put

variable {ρ : Type}

/-- The members of an object with their keys read, if all of them can be. -/
def named? (members : List (List StringItem × Value)) : Option (List (String × Value)) :=
  members.mapM fun (key, v) => (text? key).map (·, v)

def valuesNamed (name : String) (named : List (String × Value)) : List Value :=
  (named.filter (·.1 = name)).map (·.2)

/-- A field that no member names keeps its value; one that several name has no
meaning. -/
def FieldMeaning.updated? (field : FieldMeaning ρ) (named : List (String × Value)) (record : ρ) :
    Option ρ :=
  match valuesNamed field.name named with
  | [] => some record
  | [v] => (field.change? v).map (· record)
  | _ => none

/-- What the members of an object mean, each field taken for itself.  Members that
name no field mean nothing. -/
def byName? (fields : List (FieldMeaning ρ)) (record : ρ) (named : List (String × Value)) :
    Option ρ :=
  fields.foldlM (fun record field => field.updated? named record) record

/-- What the elements of an array mean as the first of the fields. -/
def byPosition? : List (FieldMeaning ρ) → (record : ρ) → List Value → Option ρ
  | _, record, [] => some record
  | [], _, _ :: _ => none
  | field :: fields, record, v :: vs => do
      let change ← field.change? v
      byPosition? fields (change record) vs

def recordMeaning? (fields : List (FieldMeaning ρ)) (default : ρ) : Value → Option ρ
  | .object members => (named? members).bind (byName? fields default)
  | .array elements => byPosition? fields default elements
  | _ => none

/-! ### Members in their order -/

/-- The change that a value under the given key means; none, if the key names no
field. -/
def changeNamed? (fields : List (FieldMeaning ρ)) (name : String) : Value → Option (ρ → ρ) :=
  match fields.find? (·.name == name) with
  | some field => field.change?
  | none => fun _ => some id

/-- The fields named by now, of a record with fields of the given names. -/
def noted (names seen : List String) (name : String) : List String :=
  if names.contains name then name :: seen else seen

/-- What the members of an object mean one after the other, when the fields in
`seen` were named before them. -/
def inOrder? (fields : List (FieldMeaning ρ)) : (seen : List String) → (record : ρ) →
    List (List StringItem × Value) → Option ρ
  | _, record, [] => some record
  | seen, record, (key, v) :: members => do
      let name ← text? key
      let change ← changeNamed? fields name v
      if name ∈ fields.map (·.name) ∧ name ∈ seen then
        none
      else
        inOrder? fields (noted (fields.map (·.name)) seen name) (change record) members

/-- Fields with different keys, whose changes do not depend on their order. -/
def Apart (first second : FieldMeaning ρ) : Prop :=
  first.name ≠ second.name ∧
    ∀ v w change other, first.change? v = some change → second.change? w = some other →
      ∀ record, change (other record) = other (change record)

def Independent (fields : List (FieldMeaning ρ)) : Prop := fields.Pairwise Apart

theorem apart_of {α β : Type} {first second : String} {meaning? : Value → Option α}
    {others? : Value → Option β} {put : α → ρ → ρ} {place : β → ρ → ρ} (hname : first ≠ second)
    (hput : ∀ a b record, put a (place b record) = place b (put a record)) :
    Apart (.of first meaning? put) (.of second others? place) := by
  refine ⟨hname, ?_⟩
  intro v w change other hchange hother record
  rcases Option.map_eq_some_iff.1 hchange with ⟨a, -, rfl⟩
  rcases Option.map_eq_some_iff.1 hother with ⟨b, -, rfl⟩
  exact hput a b record

theorem inOrder?_cons_iff {fields : List (FieldMeaning ρ)} {seen : List String}
    {key : List StringItem} {v : Value} {members : List (List StringItem × Value)}
    {record result : ρ} :
    inOrder? fields seen record ((key, v) :: members) = some result ↔
      ∃ name change, text? key = some name ∧ changeNamed? fields name v = some change ∧
        ¬(name ∈ fields.map (·.name) ∧ name ∈ seen) ∧
          inOrder? fields (noted (fields.map (·.name)) seen name) (change record) members =
            some result := by
  rw [inOrder?]
  simp only [Option.bind_eq_bind, Option.bind_eq_some_iff]
  constructor
  · rintro ⟨name, hname, change, hchange, hresult⟩
    split_ifs at hresult with hdup
    exact ⟨name, change, hname, hchange, hdup, hresult⟩
  · rintro ⟨name, change, hname, hchange, hdup, hresult⟩
    exact ⟨name, hname, change, hchange, by rwa [if_neg hdup]⟩

theorem valuesNamed_cons (name : String) (member : String × Value)
    (named : List (String × Value)) :
    valuesNamed name (member :: named) =
      if member.1 = name then member.2 :: valuesNamed name named else valuesNamed name named := by
  by_cases h : member.1 = name <;> simp [valuesNamed, h]

theorem byName?_cons (field : FieldMeaning ρ) (fields : List (FieldMeaning ρ)) (record : ρ)
    (named : List (String × Value)) :
    byName? (field :: fields) record named =
      (field.updated? named record).bind fun record => byName? fields record named := rfl

theorem byName?_nil (fields : List (FieldMeaning ρ)) (record : ρ) :
    byName? fields record [] = some record := by
  induction fields with
  | nil => rfl
  | cons field fields ih => exact ih

theorem updated?_cons_of_ne {field : FieldMeaning ρ} {name : String} (hne : name ≠ field.name)
    (v : Value) (named : List (String × Value)) :
    field.updated? ((name, v) :: named) = field.updated? named := by
  funext record
  rw [FieldMeaning.updated?, FieldMeaning.updated?, valuesNamed_cons, if_neg hne]

theorem byName?_cons_of_ne {fields : List (FieldMeaning ρ)} {name : String}
    (hne : ∀ field ∈ fields, name ≠ field.name) (v : Value) (record : ρ)
    (named : List (String × Value)) :
    byName? fields record ((name, v) :: named) = byName? fields record named := by
  induction fields generalizing record with
  | nil => rfl
  | cons field fields ih =>
      rw [byName?_cons, byName?_cons, updated?_cons_of_ne (hne field (by simp))]
      simp only [ih fun other hother => hne other (by simp [hother])]

theorem updated?_of_absent {field : FieldMeaning ρ} {named : List (String × Value)}
    (h : valuesNamed field.name named = []) (record : ρ) :
    field.updated? named record = some record := by
  rw [FieldMeaning.updated?, h]

theorem updated?_cons_self_iff {field : FieldMeaning ρ} {v : Value} {record result : ρ}
    {named : List (String × Value)} :
    field.updated? ((field.name, v) :: named) record = some result ↔
      valuesNamed field.name named = [] ∧
        ∃ change, field.change? v = some change ∧ change record = result := by
  rw [FieldMeaning.updated?, valuesNamed_cons, if_pos rfl]
  rcases valuesNamed field.name named with _ | ⟨w, values⟩ <;> simp

/-- A change of another field may come before or after. -/
theorem updated?_comm {field : FieldMeaning ρ} {change : ρ → ρ}
    (hcomm : ∀ w further, field.change? w = some further →
      ∀ record, further (change record) = change (further record))
    (record : ρ) (named : List (String × Value)) :
    field.updated? named (change record) = (field.updated? named record).map change := by
  unfold FieldMeaning.updated?
  split
  · rfl
  · next w hw =>
      cases hchange : field.change? w with
      | none => rfl
      | some further => simp [hcomm w further hchange]
  · rfl

/-- The first of the members may be taken first. -/
theorem byName?_cons_field_iff {fields : List (FieldMeaning ρ)} {field : FieldMeaning ρ}
    (hindependent : Independent fields) (hmem : field ∈ fields) {v : Value} {record result : ρ}
    {named : List (String × Value)} :
    byName? fields record ((field.name, v) :: named) = some result ↔
      valuesNamed field.name named = [] ∧ ∃ change, field.change? v = some change ∧
        byName? fields (change record) named = some result := by
  induction fields generalizing record with
  | nil => cases hmem
  | cons first fields ih =>
      have ⟨hfirst, hrest⟩ := List.pairwise_cons.1 hindependent
      rw [byName?_cons, Option.bind_eq_some_iff]
      rcases List.mem_cons.1 hmem with rfl | hmem
      · simp only [updated?_cons_self_iff,
          byName?_cons_of_ne fun other hother => (hfirst other hother).1]
        constructor
        · rintro ⟨_, ⟨habsent, change, hchange, rfl⟩, hresult⟩
          refine ⟨habsent, change, hchange, ?_⟩
          rw [byName?_cons, updated?_of_absent habsent]
          exact hresult
        · rintro ⟨habsent, change, hchange, hresult⟩
          rw [byName?_cons, updated?_of_absent habsent] at hresult
          exact ⟨_, ⟨habsent, change, hchange, rfl⟩, hresult⟩
      · have ⟨hne, hcomm⟩ := hfirst field hmem
        simp only [updated?_cons_of_ne hne.symm, ih hrest hmem]
        have hlater {change : ρ → ρ} (hchange : field.change? v = some change) :
            byName? (first :: fields) (change record) named =
              (first.updated? named record).bind fun record =>
                byName? fields (change record) named := by
          rw [byName?_cons, updated?_comm fun w further hw => hcomm w v further change hw hchange,
            Option.bind_map]
          rfl
        constructor
        · rintro ⟨middle, hmiddle, habsent, change, hchange, hresult⟩
          exact ⟨habsent, change, hchange, by rw [hlater hchange, hmiddle]; exact hresult⟩
        · rintro ⟨habsent, change, hchange, hresult⟩
          rw [hlater hchange, Option.bind_eq_some_iff] at hresult
          rcases hresult with ⟨middle, hmiddle, hresult⟩
          exact ⟨middle, hmiddle, habsent, change, hchange, hresult⟩

theorem named?_cons (key : List StringItem) (v : Value) (members : List (List StringItem × Value)) :
    named? ((key, v) :: members) = (text? key).bind fun name =>
      (named? members).map ((name, v) :: ·) := by
  cases h : text? key <;> cases h' : named? members <;> simp_all [named?]

theorem changeNamed?_of_mem {fields : List (FieldMeaning ρ)} (hindependent : Independent fields)
    {field : FieldMeaning ρ} (hmem : field ∈ fields) :
    changeNamed? fields field.name = field.change? := by
  have hfind : fields.find? (·.name == field.name) = some field := by
    induction fields with
    | nil => cases hmem
    | cons first fields ih =>
        have ⟨hfirst, hrest⟩ := List.pairwise_cons.1 hindependent
        rcases List.mem_cons.1 hmem with rfl | hmem
        · simp
        · simp [(hfirst field hmem).1, ih hrest hmem]
  rw [changeNamed?, hfind]

theorem changeNamed?_of_not_mem {fields : List (FieldMeaning ρ)} {name : String}
    (h : name ∉ fields.map (·.name)) (v : Value) : changeNamed? fields name v = some id := by
  have hfind : fields.find? (·.name == name) = none := by
    rw [List.find?_eq_none]
    intro field hmem heq
    exact h (List.mem_map.2 ⟨field, hmem, by simpa using heq⟩)
  rw [changeNamed?, hfind]

theorem absent_cons_iff {seen : List String} {name : String} (hnew : name ∉ seen) (v : Value)
    (named : List (String × Value)) :
    (∀ other ∈ seen, valuesNamed other ((name, v) :: named) = []) ↔
      ∀ other ∈ seen, valuesNamed other named = [] := by
  refine forall₂_congr fun other hother => ?_
  have hne : name ≠ other := by
    rintro rfl
    exact hnew hother
  rw [valuesNamed_cons, if_neg hne]

/-- The order of the members does not matter. -/
theorem inOrder?_eq_some_iff {fields : List (FieldMeaning ρ)} (hindependent : Independent fields)
    {seen : List String} (hseen : ∀ name ∈ seen, name ∈ fields.map (·.name))
    {members : List (List StringItem × Value)} {record result : ρ} :
    inOrder? fields seen record members = some result ↔
      ∃ named, named? members = some named ∧ (∀ name ∈ seen, valuesNamed name named = []) ∧
        byName? fields record named = some result := by
  induction members generalizing seen record with
  | nil => simp [inOrder?, named?, valuesNamed, byName?_nil]
  | cons member members ih =>
      rcases member with ⟨key, v⟩
      rw [inOrder?, named?_cons]
      rcases text? key with _ | name
      · simp
      have hsplit : (∃ named, (named? members).map ((name, v) :: ·) = some named ∧
          (∀ other ∈ seen, valuesNamed other named = []) ∧
            byName? fields record named = some result) ↔
          ∃ named, named? members = some named ∧
            (∀ other ∈ seen, valuesNamed other ((name, v) :: named) = []) ∧
              byName? fields record ((name, v) :: named) = some result := by
        simp [Option.map_eq_some_iff]
      rw [Option.bind_some, hsplit]
      simp only [Option.bind_eq_bind, Option.bind_some, Option.bind_eq_some_iff]
      by_cases hfield : name ∈ fields.map (·.name)
      · rcases List.mem_map.1 hfield with ⟨field, hmem, rfl⟩
        rw [changeNamed?_of_mem hindependent hmem]
        by_cases hdup : field.name ∈ seen
        · constructor
          · rintro ⟨change, -, hresult⟩
            rw [if_pos ⟨hfield, hdup⟩] at hresult
            cases hresult
          · rintro ⟨named, -, habsent, -⟩
            have htwice := habsent field.name hdup
            rw [valuesNamed_cons, if_pos rfl] at htwice
            cases htwice
        · have hlater : ∀ name ∈ field.name :: seen, name ∈ fields.map (·.name) :=
            List.forall_mem_cons.2 ⟨hfield, hseen⟩
          simp only [hdup, and_false, if_false, noted, List.contains_iff_mem, hfield, if_true,
            ih hlater, absent_cons_iff hdup, byName?_cons_field_iff hindependent hmem,
            List.forall_mem_cons]
          constructor
          · rintro ⟨change, hchange, named, hnamed, ⟨habsent, hothers⟩, hresult⟩
            exact ⟨named, hnamed, hothers, habsent, change, hchange, hresult⟩
          · rintro ⟨named, hnamed, hothers, habsent, change, hchange, hresult⟩
            exact ⟨change, hchange, named, hnamed, ⟨habsent, hothers⟩, hresult⟩
      · have hnew : name ∉ seen := fun h => hfield (hseen name h)
        have hne : ∀ field ∈ fields, name ≠ field.name := fun field hmem heq =>
          hfield (List.mem_map.2 ⟨field, hmem, heq.symm⟩)
        simp [changeNamed?_of_not_mem hfield, hfield, noted, ih hseen, absent_cons_iff hnew,
          byName?_cons_of_ne hne]

theorem recordMeaning?_object_iff {fields : List (FieldMeaning ρ)}
    (hindependent : Independent fields) {members : List (List StringItem × Value)}
    {default result : ρ} :
    recordMeaning? fields default (.object members) = some result ↔
      inOrder? fields [] default members = some result := by
  rw [inOrder?_eq_some_iff hindependent (by simp), recordMeaning?, Option.bind_eq_some_iff]
  simp

end PseudoLru.Json
