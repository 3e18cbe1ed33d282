import PseudoLru.Cache
import PseudoLru.Config
import PseudoLru.Trace

/-!
# The simulator

A simulator is a cache together with the configuration it was built from.  It
replays address lists, traces and the configured matrix-multiply workload
through the cache.  A run can be had without its history, or with all outcomes
and events.  Nothing is replayed of a trace that has a bad line.
-/

namespace PseudoLru

structure Simulator where
  cache : Cache
  config : Config

namespace Simulator

def ofConfig (config : Config) : Except GeometryError Simulator := do
  return ⟨← Cache.ofGeometry config.cache, config⟩

def setMatrixSize (sim : Simulator) (size : Nat) : Simulator :=
  { sim with config := { sim.config with workload := { sim.config.workload with size } } }

def run (sim : Simulator) (addresses : List UInt64) : Except OutOfRange Simulator := do
  return { sim with cache := ← sim.cache.accessAll addresses }

/-- The run over a list of addresses, with its history.  It ends with an event
that gives the tally. -/
def replay (sim : Simulator) (addresses : List UInt64) : Except OutOfRange (Run Simulator) := do
  let run ← sim.cache.replay addresses
  return {
    outcomes := run.outcomes
    events := run.events ++ [.runComplete run.after.tally]
    after := { sim with cache := run.after } }

/-- The run over a trace, and the error if the trace has one. -/
def runTrace (sim : Simulator) (bytes : Bytes) :
    Except OutOfRange (Option TraceError × Simulator) :=
  match Trace.parse bytes with
  | .error error => .ok (some error, sim)
  | .ok addresses => (sim.run addresses).map (none, ·)

def replayTrace (sim : Simulator) (bytes : Bytes) :
    Except OutOfRange (Option TraceError × Run Simulator) :=
  match Trace.parse bytes with
  | .error error => .ok (some error, Run.start sim)
  | .ok addresses => (sim.replay addresses).map (none, ·)

def runMatMul (sim : Simulator) : Except OutOfRange Simulator :=
  sim.run sim.config.workload.addresses

/-- The run of the workload, with its history.  An event announces it. -/
def replayMatMul (sim : Simulator) : Except OutOfRange (Run Simulator) := do
  let workload := sim.config.workload
  let run ← sim.replay workload.addresses
  return { run with events := .workloadStarted workload.size workload.length :: run.events }

theorem run_eq_map_replay (sim : Simulator) (addresses : List UInt64) :
    sim.run addresses = (sim.replay addresses).map (·.after) := by
  simp only [run, replay, Cache.accessAll_eq_map_replay]
  cases sim.cache.replay addresses <;> rfl

theorem runMatMul_eq_map_replayMatMul (sim : Simulator) :
    sim.runMatMul = sim.replayMatMul.map (·.after) := by
  simp only [runMatMul, replayMatMul, run_eq_map_replay]
  cases sim.replay sim.config.workload.addresses <;> rfl

end Simulator

end PseudoLru
