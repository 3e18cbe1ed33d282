/-!
# Numerals

Natural numbers are written in decimal or in lower-case hexadecimal digits,
without leading zeros.  They are read from digits of either case, any number
of leading zeros, and at most one plus sign in front.
-/

namespace PseudoLru.Text

def hex (n : Nat) : String := String.ofList (Nat.toDigits 16 n)

def markedHex (n : Nat) : String := "0x" ++ hex n

/-- The value of a digit in bases up to sixteen. -/
def digit? (base : Nat) (c : Char) : Option Nat :=
  let value :=
    if '0' ≤ c ∧ c ≤ '9' then some (c.toNat - '0'.toNat)
    else if 'a' ≤ c ∧ c ≤ 'f' then some (c.toNat - 'a'.toNat + 10)
    else if 'A' ≤ c ∧ c ≤ 'F' then some (c.toNat - 'A'.toNat + 10)
    else none
  value.filter (· < base)

/-- The value of a sequence of digits, the most significant first. -/
def digits? (base : Nat) (text : List Char) : Option Nat :=
  text.foldlM (fun value c => (digit? base c).map (value * base + ·)) 0

/-- The value of a numeral: digits, at least one, behind at most one plus
sign. -/
def numeral? (base : Nat) (text : List Char) : Option Nat :=
  match text with
  | '+' :: digits => if digits.isEmpty then none else digits? base digits
  | digits => if digits.isEmpty then none else digits? base digits

def wordNumeral? (base : Nat) (text : List Char) : Option Nat :=
  (numeral? base text).filter (· < UInt64.size)

theorem digit?_lt {base value : Nat} {c : Char} (h : digit? base c = some value) :
    value < base := by
  simpa using (Option.filter_eq_some_iff.1 h).2

theorem wordNumeral?_lt {base value : Nat} {text : List Char}
    (h : wordNumeral? base text = some value) : value < UInt64.size := by
  simpa using (Option.filter_eq_some_iff.1 h).2

end PseudoLru.Text
