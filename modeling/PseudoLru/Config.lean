import PseudoLru.FileTree
import PseudoLru.Geometry
import PseudoLru.Json.Record
import PseudoLru.MatMul

/-!
# Configurations

A configuration names the geometry of a cache and the matrix-multiply
workload.  It is written in JSON as a record of two records; what a text leaves
out has its default.  Reading does not check the geometry, since options may
still replace parts of it.
-/

namespace PseudoLru

structure Config where
  cache : Geometry := {}
  workload : MatMul := {}
  deriving DecidableEq, Repr

inductive ConfigError where
  /-- The text is no configuration. -/
  | malformed (flaw : Json.Flaw) (text : String)
  | unreadable (path : String) (fault : FileFault)
  deriving DecidableEq, Repr

/-- The message for an error.  What is wrong with a text, and where, is said in
words that come with the reader of JSON: `describe` gives them for each text. -/
def ConfigError.message (describe : String → String) : ConfigError → String
  | .malformed _ text => s!"malformed configuration: {describe text}"
  | .unreadable path fault => s!"cannot read configuration {path}: {fault.message}"

namespace Config

/-- A policy of the given name; an unknown name does not suit. -/
def policyOfName (name : String) : Except Json.Flaw VictimPolicy :=
  match VictimPolicy.ofName? name with
  | some policy => .ok policy
  | none => .error .unsuitable

/-- Reads a policy: its name, or an object with the name as its only key and
`null` as the value. -/
def policy : Json.Reader VictimPolicy := fun source =>
  match Json.skipBlank source with
  | [] => .error .unexpectedEnd
  | '"' :: source => do
      let (name, source) ← Json.string true source
      return (← policyOfName (String.ofList name), source)
  | '{' :: source => do
      -- The name is due as a key, before its type could count: `{0:null}`,
      -- `{null:null}` and `{[]:null}` are known to be syntax errors, and not data
      -- of the wrong type.
      let (name, source) ← Json.key source
      let policy ← policyOfName name
      let ((), source) ← Json.mark ':' source
      let ((), source) ← Json.null source
      let ((), source) ← Json.mark '}' source
      return (policy, source)
  | _ => .error .malformed

def word : Json.Reader Nat := Json.natural UInt64.size

def geometryFields : List (Json.Field Geometry) := [
  .of "ways" word fun ways g => { g with ways },
  .of "sets" word fun sets g => { g with sets },
  .of "offset_bits" (Json.natural UInt32.size) fun offsetBits g => { g with offsetBits },
  .of "victim_selection" policy fun policy g => { g with policy }]

def workloadFields : List (Json.Field MatMul) := [
  .of "matrix_size" word fun size m => { m with size },
  .of "element_bytes" word fun bytes m => { m with elementBytes := UInt64.ofNat bytes },
  .of "a_base" word fun base m => { m with leftBase := UInt64.ofNat base },
  .of "b_base" word fun base m => { m with rightBase := UInt64.ofNat base },
  .of "c_base" word fun base m => { m with resultBase := UInt64.ofNat base }]

def configFields : List (Json.Field Config) := [
  .of "cache" (Json.record geometryFields {}) fun cache c => { c with cache },
  .of "workload" (Json.record workloadFields {}) fun workload c => { c with workload }]

def ofJson (text : String) : Except ConfigError Config :=
  (Json.document (Json.record configFields {}) text.toList).mapError (.malformed · text)

def load (read : FileReader) (path : String) : Except ConfigError Config := do
  let bytes ← (read path).mapError (.unreadable path)
  ofJson (← (decodeUtf8 bytes).mapError (.unreadable path))

end Config

end PseudoLru
