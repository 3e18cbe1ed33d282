import PseudoLru.CommandLine.Arguments
import PseudoLru.Simulator
import PseudoLru.Trace

/-!
# Reports

The simulator reads its configuration, replays what the command names and
prints a report: the configuration, the workload, and the summary of the cache.
It stops at the first failure.  A failure before the cache is built leaves no
output, while a trace is only read once its path was printed.
-/

namespace PseudoLru.CommandLine

inductive Failure where
  | config (error : ConfigError)
  | geometry (error : GeometryError)
  | trace (error : TraceError)
  | access (fault : OutOfRange)
  deriving DecidableEq, Repr

/-- Texts that are not the program's own. -/
structure Wording where
  /-- What is said of a text that is refused as a configuration. -/
  flaw : (text : String) → String
  /-- The help that these arguments ask for. -/
  help : (arguments : List String) → String

def Failure.message (wording : Wording) : Failure → String
  | .config error => error.message wording.flaw
  | .geometry error => error.message
  | .trace error => error.message
  | .access fault => fault.message

/-- What was printed, and the failure that ended it. -/
structure Report where
  output : String
  failure? : Option Failure := none
  deriving DecidableEq, Repr

namespace Report

/-- The simulator for the options, before anything is replayed. -/
def prepare (read : FileReader) (given : Given) : Except Failure Simulator := do
  let config ← match given.config? with
    | none => .ok {}
    | some path => (Config.load read path).mapError .config
  let sim ← (Simulator.ofConfig (given.adjust config)).mapError .geometry
  return { sim with cache := { sim.cache with dumpSets := given.dumpSets } }

def configurationLine (sim : Simulator) : String :=
  let geometry := sim.config.cache
  let layout := sim.cache.layout
  s!"Configuration: {geometry.ways} ways x {geometry.sets} sets, " ++
    s!"offset {layout.offsetBits} bits, index {layout.indexBits} bits, " ++
    s!"tag {layout.tagBits} bits, {geometry.policy.name} victim selection\n"

def workloadLine (sim : Simulator) : Command → String
  | .matMul =>
      let size := sim.config.workload.size
      s!"[*] Matmul workload: {size}x{size} matrices\n"
  | .trace path => s!"[*] Trace replay: {path}\n"

def replay (read : FileReader) (sim : Simulator) : Command → Except Failure Simulator
  | .matMul => sim.runMatMul.mapError .access
  | .trace path => do
      let addresses ← (Trace.load read path).mapError .trace
      (sim.run addresses).mapError .access

def ofCommand (read : FileReader) (command : Command) (given : Given) : Report :=
  match prepare read given with
  | .error failure => ⟨"", some failure⟩
  | .ok sim =>
      let heading := configurationLine sim ++ workloadLine sim command
      match replay read sim command with
      | .error failure => ⟨heading, some failure⟩
      | .ok sim => ⟨heading ++ sim.cache.render ++ "\n", none⟩

end Report

/-- What the program answers to a command line. -/
inductive Answer where
  | rejected (error : UsageError)
  | help (arguments : List String)
  | version
  | finished (report : Report)
  deriving DecidableEq, Repr

namespace Answer

def versionText : String := "sim 0.1.0\n"

def ofArguments (read : FileReader) (arguments : List String) : Answer :=
  match parse arguments with
  | .ok (command, given) => .finished (Report.ofCommand read command given)
  | .error (.usage error) => .rejected error
  | .error .help => .help arguments
  | .error .version => .version

def exitCode : Answer → Nat
  | .rejected _ => 2
  | .help _ | .version => 0
  | .finished report => if report.failure?.isSome then 1 else 0

/-- What is written to standard output. -/
def output (wording : Wording) : Answer → String
  | .rejected _ => ""
  | .help arguments => wording.help arguments
  | .version => versionText
  | .finished report => report.output

/-- The line that a failure writes to standard error. -/
def fatal? (wording : Wording) : Answer → Option String
  | .finished report =>
      report.failure?.map fun failure => "[!] FATAL: " ++ failure.message wording
  | _ => none

end Answer

end PseudoLru.CommandLine
