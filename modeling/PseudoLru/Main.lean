import PseudoLru.CommandLine.Report

/-!
# The program

The files that the command line names are read first; all else is computed
from their contents.
-/

namespace PseudoLru

open CommandLine

/-- The number of a system error, which is sometimes kept with a minus sign. -/
def systemErrorNumber (code : UInt32) : Nat :=
  if code < 0x80000000 then code.toNat else (0 - code).toNat

/-- The fault that a failed reading stands for. -/
def FileFault.ofError : IO.Error → FileFault
  | .noFileOrDirectory .. => .notFound
  | .inappropriateType _ code _ =>
      if systemErrorNumber code = 21 then .isADirectory else .notADirectory
  | error => .other (toString error)

def readFile (path : String) : IO (Except FileFault Bytes) := do
  try
    return .ok (← IO.FS.readBinFile path).toList
  catch error =>
    return .error (FileFault.ofError error)

def readFiles (paths : List String) : IO FileReader := do
  let contents ← paths.mapM fun path => do return (path, ← readFile path)
  return fun path => (contents.lookup path).getD (.error .notFound)

/-- The program says nothing in the words of others. -/
def CommandLine.Wording.silent : Wording where
  flaw := fun _ => ""
  help := fun _ => ""

/-- The files that a command reads. -/
def CommandLine.Command.paths (command : Command) (given : Given) : List String :=
  given.config?.toList ++ match command with
    | .matMul => []
    | .trace path => [path]

end PseudoLru

open PseudoLru PseudoLru.CommandLine in
def main (arguments : List String) : IO UInt32 := do
  let paths := match CommandLine.parse arguments with
    | .ok (command, given) => command.paths given
    | .error _ => []
  let answer := Answer.ofArguments (← readFiles paths) arguments
  IO.print (answer.output .silent)
  (answer.fatal? .silent).forM fun line => IO.eprintln ("\n" ++ line)
  return answer.exitCode.toUInt32
