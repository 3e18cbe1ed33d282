import PseudoLru.Json.Lexeme

/-!
# The grammar of JSON

Which texts spell a value, told without a reader.  A value keeps its numbers as
they are written, and of its strings which characters came as an escape of four
digits: what such a string says is defined only if these escapes pair up.

White space stands between the parts of a value, not around it.  The text of an
array goes on behind its opening bracket with its elements, the text of an object
with its members, and either includes the closing bracket.
-/

namespace PseudoLru.Json

def Blank (text : List Char) : Prop := ∀ c ∈ text, isBlank c = true

/-! ### Strings -/

/-- A character of a string, written as itself or as a short escape, or the
value of an escape of four digits. -/
inductive StringItem where
  | char (c : Char)
  | unit (value : Nat)
  deriving DecidableEq, Repr

inductive StringSpelled : List StringItem → List Char → Prop
  | nil : StringSpelled [] []
  | char {c : Char} {items : List StringItem} {text : List Char} :
      c ≠ '"' → c ≠ '\\' → ' ' ≤ c → StringSpelled items text →
        StringSpelled (.char c :: items) (c :: text)
  | short {e c : Char} {items : List StringItem} {text : List Char} :
      StringState.shortEscape? e = some c → StringSpelled items text →
        StringSpelled (.char c :: items) ('\\' :: e :: text)
  | unit {digits : List Char} {value : Nat} {items : List StringItem} {text : List Char} :
      digits.length = 4 → Text.digits? 16 digits = some value → StringSpelled items text →
        StringSpelled (.unit value :: items) ('\\' :: 'u' :: (digits ++ text))

/-- The character that two surrogates stand for. -/
def surrogatePair (high low : Nat) : Char :=
  Char.ofNat (0x10000 + (high - 0xD800) * 0x400 + (low - 0xDC00))

/-- What a string says, unless it has a surrogate without its other half. -/
def content? : List StringItem → Option (List Char)
  | [] => some []
  | .char c :: items => (content? items).map (c :: ·)
  | .unit value :: items =>
      if StringState.isHighSurrogate value then
        match items with
        | .unit low :: items =>
            if StringState.isLowSurrogate low then
              (content? items).map (surrogatePair value low :: ·)
            else
              none
        | _ => none
      else if StringState.isLowSurrogate value then
        none
      else
        (content? items).map (Char.ofNat value :: ·)

def text? (items : List StringItem) : Option String := (content? items).map String.ofList

/-! ### Numbers -/

def AreDigits (text : List Char) : Prop := text ≠ [] ∧ ∀ c ∈ text, c.isDigit = true

def minusText (negative : Bool) : List Char := if negative then ['-'] else []

inductive FractionSpelled : List Char → List Char → Prop
  | none : FractionSpelled [] []
  | point {digits : List Char} : AreDigits digits → FractionSpelled digits ('.' :: digits)

inductive ExponentSignSpelled : Bool → List Char → Prop
  | none : ExponentSignSpelled false []
  | plus : ExponentSignSpelled false ['+']
  | minus : ExponentSignSpelled true ['-']

inductive ExponentSpelled : Option (Bool × List Char) → List Char → Prop
  | none : ExponentSpelled none []
  | some {e : Char} {negative : Bool} {sign digits : List Char} :
      e = 'e' ∨ e = 'E' → ExponentSignSpelled negative sign → AreDigits digits →
        ExponentSpelled (some (negative, digits)) (e :: (sign ++ digits))

structure Numeral.Spelled (n : Numeral) (text : List Char) : Prop where
  digits : AreDigits n.whole
  /-- A zero in front is the only digit. -/
  zero : n.whole.head? = some '0' → n.whole = ['0']
  parts : ∃ fraction exponent, FractionSpelled n.fraction fraction ∧
    ExponentSpelled n.exponent? exponent ∧
      text = minusText n.negative ++ (n.whole ++ (fraction ++ exponent))

/-! ### Values -/

inductive Value where
  | null
  | boolean (b : Bool)
  | number (n : Numeral)
  | string (items : List StringItem)
  | array (elements : List Value)
  | object (members : List (List StringItem × Value))

/-- The text of a key, with the white space in front of it and the colon. -/
inductive KeySpelled : List StringItem → List Char → Prop
  | mk {items : List StringItem} {before text between : List Char} :
      Blank before → StringSpelled items text → Blank between →
        KeySpelled items (before ++ '"' :: (text ++ '"' :: (between ++ [':'])))

mutual

inductive Value.Spelled : Value → List Char → Prop
  | null : Value.Spelled .null ['n', 'u', 'l', 'l']
  | yes : Value.Spelled (.boolean true) ['t', 'r', 'u', 'e']
  | no : Value.Spelled (.boolean false) ['f', 'a', 'l', 's', 'e']
  | number {n : Numeral} {text : List Char} :
      n.Spelled text → Value.Spelled (.number n) text
  | string {items : List StringItem} {text : List Char} :
      StringSpelled items text → Value.Spelled (.string items) ('"' :: (text ++ ['"']))
  | emptyArray {between : List Char} :
      Blank between → Value.Spelled (.array []) ('[' :: (between ++ [']']))
  | array {elements : List Value} {text : List Char} :
      ElementsSpelled elements text → Value.Spelled (.array elements) ('[' :: text)
  | emptyObject {between : List Char} :
      Blank between → Value.Spelled (.object []) ('{' :: (between ++ ['}']))
  | object {members : List (List StringItem × Value)} {text : List Char} :
      MembersSpelled members text → Value.Spelled (.object members) ('{' :: text)

/-- The text of one element or more, up to the closing bracket. -/
inductive ElementsSpelled : List Value → List Char → Prop
  | last {v : Value} {before text after : List Char} :
      Blank before → v.Spelled text → Blank after →
        ElementsSpelled [v] (before ++ (text ++ (after ++ [']'])))
  | cons {v : Value} {vs : List Value} {before text after more : List Char} :
      Blank before → v.Spelled text → Blank after → ElementsSpelled vs more →
        ElementsSpelled (v :: vs) (before ++ (text ++ (after ++ ',' :: more)))

/-- The text of one member or more, up to the closing brace. -/
inductive MembersSpelled : List (List StringItem × Value) → List Char → Prop
  | last {k : List StringItem} {v : Value} {key before text after : List Char} :
      KeySpelled k key → Blank before → v.Spelled text → Blank after →
        MembersSpelled [(k, v)] (key ++ (before ++ (text ++ (after ++ ['}']))))
  | cons {k : List StringItem} {v : Value} {ms : List (List StringItem × Value)}
      {key before text after more : List Char} :
      KeySpelled k key → Blank before → v.Spelled text → Blank after → MembersSpelled ms more →
        MembersSpelled ((k, v) :: ms) (key ++ (before ++ (text ++ (after ++ ',' :: more))))

end

end PseudoLru.Json
