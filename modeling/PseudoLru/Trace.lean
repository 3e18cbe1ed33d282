import PseudoLru.FileTree
import PseudoLru.Text.Blank
import PseudoLru.Text.Numeral
import PseudoLru.Text.Quoted

/-!
# Address traces

A trace is text with at most one address in a line, hexadecimal behind `0x` or
decimal.  Underscores may stand between its digits, a number sign starts a
comment, and lines without an address are skipped.

A trace is read byte by byte.  A line counts once it ends, at a line feed with
or without a carriage return before it, or at the end of a trace whose last
byte is not a line feed; it must then be valid UTF-8, comment included.  So
the first bad line decides, whatever follows it.
-/

namespace PseudoLru

inductive TraceError where
  | malformed (line : Nat) (text : String)
  | unreadable (fault : FileFault)
  deriving DecidableEq, Repr

def TraceError.message : TraceError → String
  | .malformed line text => s!"line {line}: cannot parse address {Text.quoted text.toList}"
  | .unreadable fault => s!"cannot read trace: {fault.message}"

namespace Trace

/-- What a line says: all before its comment, without white space around. -/
def statement (line : List Char) : List Char :=
  Text.trim (line.takeWhile (· ≠ '#'))

def address? (statement : List Char) : Option UInt64 :=
  let value := match statement.filter (· ≠ '_') with
    | '0' :: 'x' :: digits => Text.wordNumeral? 16 digits
    | '0' :: 'X' :: digits => Text.wordNumeral? 16 digits
    | digits => Text.wordNumeral? 10 digits
  value.map UInt64.ofNat

/-- The address in a line, if it has one. -/
def parseLine (line : String) (number : Nat) : Except TraceError (Option UInt64) :=
  let text := statement line.toList
  if text.isEmpty then
    .ok none
  else
    match address? text with
    | some address => .ok (some address)
    | none => .error (.malformed number (String.ofList text))

/-- A trace read up to some byte: the number of the line being read, its bytes
so far and the addresses of the lines before it, both latest first. -/
structure Progress where
  number : Nat
  pending : Bytes
  addresses : List UInt64

namespace Progress

def start : Progress := ⟨1, [], []⟩

/-- Ends the line being read, which consists of `bytes`, latest first. -/
def endLine (p : Progress) (bytes : Bytes) : Except TraceError Progress := do
  let line ← (decodeUtf8 bytes.reverse).mapError .unreadable
  let address? ← parseLine line p.number
  return ⟨p.number + 1, [], address?.toList ++ p.addresses⟩

def lineFeed : UInt8 := 10

def carriageReturn : UInt8 := 13

/-- The bytes of a line, latest first, without a carriage return at its end. -/
def dropReturn : Bytes → Bytes
  | [] => []
  | b :: rest => if b = carriageReturn then rest else b :: rest

def feed (p : Progress) (b : UInt8) : Except TraceError Progress :=
  if b = lineFeed then p.endLine (dropReturn p.pending)
  else .ok { p with pending := b :: p.pending }

def finish (p : Progress) : Except TraceError (List UInt64) := do
  let p ← if p.pending.isEmpty then .ok p else p.endLine p.pending
  return p.addresses.reverse

end Progress

def parse (bytes : Bytes) : Except TraceError (List UInt64) := do
  (← bytes.foldlM Progress.feed Progress.start).finish

def load (read : FileReader) (path : String) : Except TraceError (List UInt64) := do
  parse (← (read path).mapError .unreadable)

end Trace

end PseudoLru
