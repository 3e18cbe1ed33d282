import PseudoLru.Text.Numeral
import PseudoLru.Text.Unprintable

/-!
# Quoted text

A quoted text stands between double quotes and shows every character.  A
double quote and a backslash are written behind a backslash, four control
characters have an escape of one letter or digit, and any other character
without a glyph of its own is written as its code point in braces.  All other
characters stand for themselves.
-/

namespace PseudoLru.Text

/-- The second character of a two-character escape. -/
def shortEscape? : Char → Option Char
  | '"' => some '"'
  | '\\' => some '\\'
  | '\t' => some 't'
  | '\n' => some 'n'
  | '\r' => some 'r'
  | '\x00' => some '0'
  | _ => none

def quotedChar (c : Char) : List Char :=
  match shortEscape? c with
  | some letter => ['\\', letter]
  | none =>
      if isUnprintable c then
        ['\\', 'u', '\x7b'] ++ Nat.toDigits 16 c.toNat ++ ['\x7d']
      else
        [c]

def quoted (text : List Char) : String :=
  String.ofList ('"' :: text.flatMap quotedChar ++ ['"'])

end PseudoLru.Text
