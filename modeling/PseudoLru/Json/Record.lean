import PseudoLru.Json.Skip

/-!
# Records in JSON

A record is read from an object or from an array.  In an object a field stands
at most once, in any place, and members with other keys are skipped.  An array
gives the fields in their order and may stop early.  A field that is missing
keeps its default, so a reader of a record is a reader of changes to the
default.

A text is malformed where a key is due and something else than a string
stands.  A value of the wrong type does not suit as soon as it was read,
whatever comes after it; a container does not suit at its opening bracket.
-/

namespace PseudoLru.Json

/-- The flaw of a scalar or container that stands where another type is due. -/
def misplaced : List Char → Flaw
  | [] => .unexpectedEnd
  | c :: text =>
      if c = 'n' then ofReading (literal ['u', 'l', 'l'] text)
      else if c = 't' then ofReading (literal ['r', 'u', 'e'] text)
      else if c = 'f' then ofReading (literal ['a', 'l', 's', 'e'] text)
      else if c = '"' then ofReading (string true text)
      else if c = '[' ∨ c = '{' then .unsuitable
      else if c = '-' ∨ c.isDigit then
        match numeral .unexpectedEnd (c :: text) with
        | .ok (n, _) => n.misfit
        | .error flaw => flaw
      else .malformed
where
  /-- A flaw in the value comes before its type. -/
  ofReading {α : Type} : Except Flaw α → Flaw
    | .ok _ => .unsuitable
    | .error flaw => flaw

def natural (bound : Nat) : Reader Nat := fun source =>
  match skipBlank source with
  | [] => .error .unexpectedEnd
  | c :: source =>
      if c = '-' ∨ c.isDigit then do
        let (n, source) ← numeral .unexpectedEnd (c :: source)
        return (← n.below bound, source)
      else
        .error (misplaced (c :: source))

/-- Reads a key, for which nothing but a string can stand. -/
def key : Reader String := fun source => do
  let ((), source) ← mark '"' source
  let (content, source) ← string true source
  return (String.ofList content, source)

def null : Reader Unit := fun source =>
  match skipBlank source with
  | 'n' :: source => literal ['u', 'l', 'l'] source
  | source => .error (misplaced source)

/-- A field of a record of type `ρ`: its key, and a reader of its value which
gives the change of the record. -/
structure Field (ρ : Type) where
  name : String
  read : Reader (ρ → ρ)

/-- The field whose value is read by `read` and stored by `put`. -/
def Field.of (name : String) (read : Reader α) (put : α → ρ → ρ) : Field ρ where
  name
  read := fun source => do
    let (value, source) ← read source
    return (put value, source)

/-- Reads a member of an object, its key, colon and value, and returns the
names of the fields read by now and the change of the record.  The rounds are
for a value that is skipped. -/
def member (fields : List (Field ρ)) (rounds : Nat) (seen : List String) :
    Reader (List String × (ρ → ρ)) := fun source => do
  let (name, source) ← key source
  match fields.find? (·.name == name) with
  | some field =>
      if seen.contains name then
        throw .unsuitable
      else
        let ((), source) ← mark ':' source
        let (change, source) ← field.read source
        return ((name :: seen, change), source)
  | none =>
      let ((), source) ← mark ':' source
      let ((), source) ← skipValue rounds source
      return ((seen, id), source)

/-- Reads the members of an object from the first key on, and its closing
brace.  Each round takes a member, so the rounds never run out when there are
more of them than characters. -/
def members (fields : List (Field ρ)) :
    (rounds : Nat) → (seen : List String) → (record : ρ) → Reader ρ
  | 0, _, _, _ => .error .malformed
  | rounds + 1, seen, record, source => do
      let ((seen, change), source) ← member fields rounds seen source
      match skipBlank source with
      | ',' :: source => members fields rounds seen (change record) source
      | source =>
          let ((), source) ← mark '}' source
          return (change record, source)

/-- Reads the elements of an array as fields in their order, and its closing
bracket.  A comma stands before each element but the first. -/
def elements (isFirst : Bool) : List (Field ρ) → (record : ρ) → Reader ρ
  | [], record, source => do
      let ((), source) ← mark ']' source
      return (record, source)
  | field :: fields, record, source =>
      match skipBlank source with
      | ']' :: source => .ok (record, source)
      | source => do
          let ((), source) ← if isFirst then .ok ((), source) else mark ',' source
          let (change, source) ← field.read source
          elements false fields (change record) source

/-- Reads a record with the given fields, starting from its default. -/
def record (fields : List (Field ρ)) (default : ρ) : Reader ρ := fun source =>
  match skipBlank source with
  | '{' :: source =>
      match skipBlank source with
      | '}' :: source => .ok (default, source)
      | source => members fields (source.length + 1) [] default source
  | '[' :: source => elements true fields default source
  | source => .error (misplaced source)

/-- Reads a whole text, in which only white space may follow the value. -/
def document (read : Reader α) (source : List Char) : Except Flaw α := do
  let (value, source) ← read source
  if (skipBlank source).isEmpty then return value else throw .malformed

end PseudoLru.Json
