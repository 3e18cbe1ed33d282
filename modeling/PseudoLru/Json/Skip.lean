import PseudoLru.Json.Lexeme

/-!
# Skipping JSON values

A value that nobody asks for only has to be well formed.  The brackets that
are open around the reader are kept in a list, so nesting is limited by
nothing but the text.  A number that is not used and stops where a digit is
due is malformed, also at the end of the text.
-/

namespace PseudoLru.Json

inductive Bracket where
  | square
  | curly
  deriving DecidableEq, Repr

/-- Reads the key of an object member that is not used, and the colon. -/
def skipKey (text : List Char) : Except Flaw (List Char) := do
  let ((), text) ← mark '"' text
  let (_, text) ← string false text
  let ((), text) ← mark ':' text
  return text

/-- Reads a literal, a string or a number that is not used. -/
def skipScalar : List Char → Except Flaw (List Char)
  | [] => .error .unexpectedEnd
  | c :: text =>
      if c = 'n' then (literal ['u', 'l', 'l'] text).map (·.2)
      else if c = 't' then (literal ['r', 'u', 'e'] text).map (·.2)
      else if c = 'f' then (literal ['a', 'l', 's', 'e'] text).map (·.2)
      else if c = '"' then (string false text).map (·.2)
      else if c = '-' ∨ c.isDigit then (numeral .malformed (c :: text)).map (·.2)
      else .error .malformed

/-- Skips a value, if one is due, and all that follows it up to the end of the
outermost of the open brackets.  Each round but the last takes a character, so
the rounds never run out when there are more of them than characters. -/
def skipWithin : (rounds : Nat) → (due : Bool) → (inside : List Bracket) → List Char →
    Except Flaw (List Char)
  | 0, _, _, _ => .error .malformed
  | rounds + 1, true, inside, text =>
      match skipBlank text with
      | '[' :: text =>
          match skipBlank text with
          | ']' :: text => skipWithin rounds false inside text
          | text => skipWithin rounds true (.square :: inside) text
      | '{' :: text =>
          match skipBlank text with
          | '}' :: text => skipWithin rounds false inside text
          | text => do skipWithin rounds true (.curly :: inside) (← skipKey text)
      | text => do skipWithin rounds false inside (← skipScalar text)
  | _ + 1, false, [], text => .ok text
  | rounds + 1, false, .square :: inside, text =>
      match skipBlank text with
      | [] => .error .unexpectedEnd
      | ',' :: text => skipWithin rounds true (.square :: inside) text
      | ']' :: text => skipWithin rounds false inside text
      | _ => .error .malformed
  | rounds + 1, false, .curly :: inside, text =>
      match skipBlank text with
      | [] => .error .unexpectedEnd
      | ',' :: text => do skipWithin rounds true (.curly :: inside) (← skipKey text)
      | '}' :: text => skipWithin rounds false inside text
      | _ => .error .malformed

/-- Skips one value, which must have fewer characters than there are rounds. -/
def skipValue (rounds : Nat) : Reader Unit := fun text => do
  return ((), ← skipWithin rounds true [] text)

end PseudoLru.Json
