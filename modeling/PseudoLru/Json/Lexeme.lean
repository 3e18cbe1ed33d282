import PseudoLru.Decimal.Binary
import PseudoLru.Text.Numeral

/-!
# JSON lexemes

A JSON text is read from left to right, once, and the first flaw decides: the
text ends too early, it is no JSON at this point, or a value does not suit its
place.  This module reads what has no parts: white space, literals, strings
and numbers.

A string is read character by character.  What the reader remembers is whether
it stands behind a backslash, within the four digits of an escape, or between
the two halves of a surrogate pair.  A strict string, whose content is used,
must not have half a pair.

A number is split into its digits first and judged afterwards, since only then
its magnitude is known.
-/

namespace PseudoLru.Json

/-- Why a text is refused. -/
inductive Flaw where
  | unexpectedEnd
  | malformed
  | unsuitable
  deriving DecidableEq, Repr

/-- Reads something from the front of a text and returns it with the rest. -/
abbrev Reader (α : Type) := List Char → Except Flaw (α × List Char)

def isBlank (c : Char) : Bool := c = ' ' || c = '\t' || c = '\n' || c = '\r'

def skipBlank (text : List Char) : List Char := text.dropWhile isBlank

def literal : (due : List Char) → Reader Unit
  | [], text => .ok ((), text)
  | _ :: _, [] => .error .unexpectedEnd
  | d :: due, c :: text => if c = d then literal due text else .error .malformed

/-- Reads one mark, which white space may precede. -/
def mark (due : Char) : Reader Unit := fun text =>
  literal [due] (skipBlank text)

/-! ### Strings -/

/-- Where in a string the reader stands.  Behind the first half of a surrogate
pair, its value is kept. -/
inductive StringState where
  | plain
  | escape
  | hex (high? : Option Nat) (digits : List Char)
  | betweenHalves (high : Nat)
  | secondEscape (high : Nat)
  deriving DecidableEq, Repr

/-- What one more character of a string means. -/
inductive StringStep where
  | more (state : StringState)
  | char (c : Char)
  | close
  deriving DecidableEq, Repr

namespace StringState

/-- The character that a short escape stands for. -/
def shortEscape? : Char → Option Char
  | '"' => some '"'
  | '\\' => some '\\'
  | '/' => some '/'
  | 'b' => some '\x08'
  | 'f' => some '\x0c'
  | 'n' => some '\n'
  | 'r' => some '\r'
  | 't' => some '\t'
  | _ => none

def isHighSurrogate (unit : Nat) : Bool := 0xD800 ≤ unit && unit < 0xDC00

def isLowSurrogate (unit : Nat) : Bool := 0xDC00 ≤ unit && unit < 0xE000

/-- The meaning of a complete escape of four digits.  In a string that is not
strict half a pair is let through; its content is not used. -/
def ofUnit (strict : Bool) (high? : Option Nat) (unit : Nat) : Except Flaw StringStep :=
  match high? with
  | some high =>
      if isLowSurrogate unit then
        .ok (.char (Char.ofNat (0x10000 + (high - 0xD800) * 0x400 + (unit - 0xDC00))))
      else
        .error .malformed
  | none =>
      if strict && isLowSurrogate unit then .error .malformed
      else if strict && isHighSurrogate unit then .ok (.more (.betweenHalves unit))
      else .ok (.char (Char.ofNat unit))

/-- The digits of an escape are judged once they fill four bytes. -/
def ofDigits (strict : Bool) (high? : Option Nat) (digits : List Char) :
    Except Flaw StringStep :=
  if (String.ofList digits).utf8ByteSize < 4 then
    .ok (.more (.hex high? digits))
  else
    match Text.digits? 16 digits with
    | some unit => ofUnit strict high? unit
    | none => .error .malformed

def step (strict : Bool) : StringState → Char → Except Flaw StringStep
  | .plain, c =>
      if c = '"' then .ok .close
      else if c = '\\' then .ok (.more .escape)
      else if c < ' ' then .error .malformed
      else .ok (.char c)
  | .escape, c =>
      if c = 'u' then .ok (.more (.hex none []))
      else
        match shortEscape? c with
        | some meant => .ok (.char meant)
        | none => .error .malformed
  | .hex high? digits, c => ofDigits strict high? (digits ++ [c])
  | .betweenHalves high, c =>
      if c = '\\' then .ok (.more (.secondEscape high)) else .error .malformed
  | .secondEscape high, c =>
      if c = 'u' then .ok (.more (.hex (some high) [])) else .error .malformed

end StringState

/-- Reads the rest of a string whose content so far, latest first, is
`content`. -/
def stringFrom (strict : Bool) : StringState → (content : List Char) → Reader (List Char)
  | _, _, [] => .error .unexpectedEnd
  | state, content, c :: text =>
      match state.step strict c with
      | .error flaw => .error flaw
      | .ok .close => .ok (content.reverse, text)
      | .ok (.char meant) => stringFrom strict .plain (meant :: content) text
      | .ok (.more state) => stringFrom strict state content text

/-- Reads a string from behind its opening quote on. -/
def string (strict : Bool) : Reader (List Char) := stringFrom strict .plain []

/-! ### Numbers -/

/-- A number as it is written.  Without a point it has no fraction digits. -/
structure Numeral where
  negative : Bool
  whole : List Char
  fraction : List Char
  exponent? : Option (Bool × List Char)
  deriving DecidableEq, Repr

/-- Reads digits, at least one. -/
def digits (atEnd : Flaw) : Reader (List Char) := fun text =>
  if text.isEmpty then .error atEnd
  else if (text.takeWhile Char.isDigit).isEmpty then .error .malformed
  else .ok (text.takeWhile Char.isDigit, text.dropWhile Char.isDigit)

/-- Reads digits that start with a zero only if there is no other. -/
def wholeDigits (atEnd : Flaw) : Reader (List Char)
  | '0' :: text =>
      if (text.takeWhile Char.isDigit).isEmpty then .ok (['0'], text) else .error .malformed
  | text => digits atEnd text

/-- Reads the digits behind a point, if there is one. -/
def fractionDigits (atEnd : Flaw) : Reader (List Char)
  | '.' :: text => digits atEnd text
  | text => .ok ([], text)

/-- Reads the sign of an exponent: is it a minus? -/
def exponentSign : Reader Bool
  | '+' :: text => .ok (false, text)
  | '-' :: text => .ok (true, text)
  | text => .ok (false, text)

/-- Reads an exponent, if there is one. -/
def exponentPart (atEnd : Flaw) : Reader (Option (Bool × List Char))
  | [] => .ok (none, [])
  | c :: text =>
      if c = 'e' ∨ c = 'E' then do
        let (negative, text) ← exponentSign text
        let (digits, text) ← digits atEnd text
        return (some (negative, digits), text)
      else
        .ok (none, c :: text)

def minusSign : Reader Bool
  | '-' :: text => .ok (true, text)
  | text => .ok (false, text)

/-- Reads a number.  A text that ends where a digit is due has the flaw
`atEnd`. -/
def numeral (atEnd : Flaw) : Reader Numeral := fun text => do
  let (negative, text) ← minusSign text
  let (whole, text) ← wholeDigits atEnd text
  let (fraction, text) ← fractionDigits atEnd text
  let (exponent?, text) ← exponentPart atEnd text
  return (⟨negative, whole, fraction, exponent?⟩, text)

namespace Numeral

def digitValue (c : Char) : Nat := c.toNat - '0'.toNat

def digitsValue (digits : List Char) : Nat :=
  digits.foldl (fun value c => value * 10 + digitValue c) 0

/-- Is the number written with digits only? -/
def isPlain (n : Numeral) : Bool :=
  !n.negative && n.fraction.isEmpty && n.exponent?.isNone

/-- Appends digits to a word until the first that no longer fits; returns the
word and the number of digits left over. -/
def appendDigits : (value : Nat) → List Char → Nat × Nat
  | value, [] => (value, 0)
  | value, c :: rest =>
      let next := value * 10 + digitValue c
      if next < UInt64.size then appendDigits next rest else (value, rest.length + 1)

/-- The number without its sign, as a word times a power of ten. -/
def scaled (n : Numeral) : Nat × Int :=
  let (value, dropped) := appendDigits 0 n.whole
  let (value, ignored) := appendDigits value n.fraction
  let shift : Int := dropped - (n.fraction.length - ignored)
  match n.exponent? with
  | none => (value, shift)
  | some (false, digits) => (value, shift + digitsValue digits)
  | some (true, digits) => (value, shift - digitsValue digits)

/-- Is the number too large for a floating-point number?  The word and the
power of ten are rounded each, and then their product. -/
def overflows (n : Numeral) : Bool :=
  let (value, exponent) := n.scaled
  value != 0 && 0 ≤ exponent &&
    (308 < exponent ||
      Decimal.overflowBound ≤
        Decimal.toBinary value * Decimal.toBinary (Nat.pow 10 exponent.toNat))

/-- The flaw of a number that stands where it does not suit. -/
def misfit (n : Numeral) : Flaw := if n.overflows then .malformed else .unsuitable

/-- The natural number below `bound` that the digits spell. -/
def below (bound : Nat) (n : Numeral) : Except Flaw Nat :=
  if n.isPlain ∧ digitsValue n.whole < bound then .ok (digitsValue n.whole)
  else .error n.misfit

end Numeral

end PseudoLru.Json
