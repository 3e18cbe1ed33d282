import PseudoLru.Config
import PseudoLru.Text.Numeral

/-!
# Command-line options

The options of the simulator replace parts of its configuration.  Most are
global: they may stand before or after the subcommand, and what stands after
it wins.  On each side an option with a value is given at most once, and so is
a flag, apart from the verbosity, which may be raised again and again.
-/

namespace PseudoLru.CommandLine

/-- Why a command line is refused. -/
inductive UsageError where
  | unknownOption
  | unexpectedValue
  | missingValue
  | invalidValue
  | repeatedOption
  | unexpectedArgument
  | missingCommand
  | missingPath
  deriving DecidableEq, Repr

inductive ValueOption where
  | config
  | ways
  | sets
  | offsetBits
  | size
  deriving DecidableEq, Repr

inductive Flag where
  | verbose
  | invalidFirst
  | dumpSets
  deriving DecidableEq, Repr

/-- The options given on one side of the subcommand. -/
structure Given where
  config? : Option String := none
  ways? : Option Nat := none
  sets? : Option Nat := none
  offsetBits? : Option Nat := none
  size? : Option Nat := none
  invalidFirst : Bool := false
  dumpSets : Bool := false
  deriving DecidableEq, Repr

namespace Given

/-- A field width: a numeral that fits 32 bits, or zero behind a minus sign. -/
def width? (text : List Char) : Option Nat :=
  match text with
  | '-' :: digits => if digits.isEmpty then none else (Text.digits? 10 digits).filter (· = 0)
  | text => (Text.numeral? 10 text).filter (· < UInt32.size)

def once (old? : Option α) (value? : Option α) : Except UsageError (Option α) :=
  match old?, value? with
  | some _, _ => .error .repeatedOption
  | none, some value => .ok (some value)
  | none, none => .error .invalidValue

def put (g : Given) (option : ValueOption) (text : String) : Except UsageError Given :=
  let count? := Text.wordNumeral? 10 text.toList
  match option with
  | .config => do return { g with config? := ← once g.config? (some text) }
  | .ways => do return { g with ways? := ← once g.ways? count? }
  | .sets => do return { g with sets? := ← once g.sets? count? }
  | .offsetBits => do return { g with offsetBits? := ← once g.offsetBits? (width? text.toList) }
  | .size => do return { g with size? := ← once g.size? count? }

def raise (g : Given) : Flag → Except UsageError Given
  | .verbose => .ok g
  | .invalidFirst =>
      if g.invalidFirst then .error .repeatedOption else .ok { g with invalidFirst := true }
  | .dumpSets =>
      if g.dumpSets then .error .repeatedOption else .ok { g with dumpSets := true }

/-- The options given after the subcommand, completed by those before it. -/
def orElse (inner outer : Given) : Given where
  config? := inner.config? <|> outer.config?
  ways? := inner.ways? <|> outer.ways?
  sets? := inner.sets? <|> outer.sets?
  offsetBits? := inner.offsetBits? <|> outer.offsetBits?
  size? := inner.size? <|> outer.size?
  invalidFirst := inner.invalidFirst || outer.invalidFirst
  dumpSets := inner.dumpSets || outer.dumpSets

def adjustGeometry (g : Given) (geometry : Geometry) : Geometry where
  ways := g.ways?.getD geometry.ways
  sets := g.sets?.getD geometry.sets
  offsetBits := g.offsetBits?.getD geometry.offsetBits
  policy := if g.invalidFirst then .invalidFirst else geometry.policy

/-- The configuration with the options in place of what they replace. -/
def adjust (g : Given) (config : Config) : Config where
  cache := g.adjustGeometry config.cache
  workload := { config.workload with size := g.size?.getD config.workload.size }

end Given

inductive Command where
  | matMul
  | trace (path : String)
  deriving DecidableEq, Repr

end PseudoLru.CommandLine
