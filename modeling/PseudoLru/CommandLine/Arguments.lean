import PseudoLru.CommandLine.Options

/-!
# Command-line arguments

Arguments are read one by one.  The reader remembers the options given so far
on both sides of the subcommand, an option that still lacks its value, and
whether two dashes have ended the options.

A value that is due is taken from the next argument, even one that spells a
subcommand, but not from one that looks like an option.  Behind one dash
several flags may stand together, and an option among them takes all that is
left as its value.  A request for help or for the version ends the reading at
once, provided that everything before it was in order.
-/

namespace PseudoLru.CommandLine

/-- Why reading ends without a command. -/
inductive Stop where
  | usage (error : UsageError)
  | help
  | version
  deriving DecidableEq, Repr

/-- The subcommand whose arguments are being read.  Help may name one topic. -/
inductive Level where
  | root
  | matMul
  | trace
  | help (named : Bool)
  deriving DecidableEq, Repr

inductive OptionKind where
  | value (option : ValueOption)
  | flag (flag : Flag)
  | help
  | version
  deriving DecidableEq, Repr

namespace Level

def longOption? (level : Level) (name : List Char) : Option OptionKind :=
  match String.ofList name with
  | "config" => some (.value .config)
  | "verbose" => some (.flag .verbose)
  | "ways" => some (.value .ways)
  | "sets" => some (.value .sets)
  | "offset-bits" => some (.value .offsetBits)
  | "invalid-first" => some (.flag .invalidFirst)
  | "dump-sets" => some (.flag .dumpSets)
  | "help" => some .help
  | "version" => if level = .root then some .version else none
  | "size" => if level = .matMul then some (.value .size) else none
  | _ => none

def shortOption? (level : Level) (letter : Char) : Option OptionKind :=
  match letter with
  | 'c' => some (.value .config)
  | 'v' => some (.flag .verbose)
  | 'h' => some .help
  | 'V' => if level = .root then some .version else none
  | 's' => if level = .matMul then some (.value .size) else none
  | _ => none

def ofName? : String → Option Level
  | "matmul" => some .matMul
  | "trace" => some .trace
  | "help" => some (.help false)
  | _ => none

end Level

/-- The arguments read so far. -/
structure Progress where
  level : Level := .root
  outer : Given := {}
  given : Given := {}
  path? : Option String := none
  pending? : Option ValueOption := none
  optionsEnded : Bool := false
  deriving DecidableEq, Repr

namespace Progress

def orStop (result : Except UsageError α) : Except Stop α := result.mapError .usage

def put (p : Progress) (option : ValueOption) (value : List Char) : Except Stop Progress := do
  return { p with given := ← orStop (p.given.put option (String.ofList value)), pending? := none }

def raise (p : Progress) (flag : Flag) : Except Stop Progress := do
  return { p with given := ← orStop (p.given.raise flag) }

/-- Reads an argument that is no option: the path of a trace. -/
def feedPlain (p : Progress) (argument : String) : Except Stop Progress :=
  match p.level, p.path? with
  | .trace, none => .ok { p with path? := some argument }
  | _, _ => .error (.usage .unexpectedArgument)

/-- Reads what follows two dashes: a name, and a value behind an equals
sign. -/
def feedLong (p : Progress) (body : List Char) : Except Stop Progress :=
  let name := body.takeWhile (· ≠ '=')
  let value? := match body.dropWhile (· ≠ '=') with
    | [] => none
    | _ :: value => some value
  match p.level.longOption? name, value? with
  | none, _ => .error (.usage .unknownOption)
  | some (.value option), some value => p.put option value
  | some (.value option), none => .ok { p with pending? := some option }
  | some _, some _ => .error (.usage .unexpectedValue)
  | some (.flag flag), none => p.raise flag
  | some .help, none => .error .help
  | some .version, none => .error .version

/-- Reads the letters that follow one dash. -/
def feedShort (p : Progress) : List Char → Except Stop Progress
  | [] => .ok p
  | letter :: rest =>
      match p.level.shortOption? letter with
      | none => .error (.usage .unknownOption)
      | some (.value option) =>
          match rest with
          | [] => .ok { p with pending? := some option }
          | '=' :: value => p.put option value
          | value => p.put option value
      | some (.flag flag) => do (← p.raise flag).feedShort rest
      | some .help => .error .help
      | some .version => .error .version

/-- Reads an argument as an option, a value or a path, by its beginning. -/
def feedBody (p : Progress) (argument : String) : Except Stop Progress :=
  match argument.toList, p.pending? with
  | '-' :: _ :: _, some _ => .error (.usage .missingValue)
  | ['-', '-'], none => .ok { p with optionsEnded := true }
  | '-' :: '-' :: body, none => p.feedLong body
  | '-' :: letter :: rest, none => p.feedShort (letter :: rest)
  | value, some option => p.put option value
  | _, none => p.feedPlain argument

def feed (p : Progress) (argument : String) : Except Stop Progress :=
  match p.level with
  | .help named =>
      if named ∨ (Level.ofName? argument).isNone then
        .error (.usage .unexpectedArgument)
      else
        .ok { p with level := .help true }
  | .root =>
      if p.optionsEnded then
        .error (.usage .unexpectedArgument)
      else
        match p.pending?, Level.ofName? argument with
        | none, some level => .ok { p with level, outer := p.given, given := {} }
        | _, _ => p.feedBody argument
  | .matMul | .trace =>
      if p.optionsEnded then p.feedPlain argument else p.feedBody argument

/-- The command at the end of the arguments, with all options. -/
def finish (p : Progress) : Except Stop (Command × Given) :=
  match p.level, p.pending?, p.path? with
  | .help _, _, _ => .error .help
  | _, some _, _ => .error (.usage .missingValue)
  | .root, none, _ => .error (.usage .missingCommand)
  | .matMul, none, _ => .ok (.matMul, p.given.orElse p.outer)
  | .trace, none, some path => .ok (.trace path, p.given.orElse p.outer)
  | .trace, none, none => .error (.usage .missingPath)

end Progress

/-- The command and the options that the arguments spell. -/
def parse (arguments : List String) : Except Stop (Command × Given) := do
  (← arguments.foldlM Progress.feed {}).finish

end PseudoLru.CommandLine
