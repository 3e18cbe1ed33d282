import PseudoLru.Proofs.MatMulHits
import PseudoLru.Proofs.Merging

/-!
# What the program reports

The answer to a command line in order is told by rules, one for each way in
which it can end.  The configuration of the file is merged with the options, a
simulator is built from the result, and the command runs on it: these are runs
of the library, so the report of a successful command shows the cache that they
lead to.  Whether the sets are listed has no influence on a run, and a run on a
cache that was built cannot fail, so the rules leave no other end.
-/

namespace PseudoLru

/-! ## Listing the sets -/

def Cache.listing (cache : Cache) (dumpSets : Bool) : Cache := { cache with dumpSets }

theorem Cache.access_listing (cache : Cache) (dumpSets : Bool) (address : UInt64) :
    (cache.listing dumpSets).access address =
      (cache.access address).map fun access =>
        { access with after := access.after.listing dumpSets } := by
  unfold access listing
  dsimp only
  split
  next hin =>
    cases cache.sets[(cache.layout.decode address).index.toNat].access cache.encoding
      cache.geometry.policy (cache.layout.decode address).tag <;> rfl
  next => rfl

theorem Cache.accessAll_listing (cache : Cache) (dumpSets : Bool) (addresses : List UInt64) :
    (cache.listing dumpSets).accessAll addresses =
      (cache.accessAll addresses).map (·.listing dumpSets) := by
  unfold accessAll Run.last
  induction addresses generalizing cache with
  | nil => rfl
  | cons address rest ih =>
      rw [List.foldlM_cons, List.foldlM_cons, access_listing]
      cases cache.access address with
      | error fault => rfl
      | ok access => exact ih access.after

namespace Simulator

def listing (sim : Simulator) (dumpSets : Bool) : Simulator :=
  { sim with cache := sim.cache.listing dumpSets }

theorem run_listing (sim : Simulator) (dumpSets : Bool) (addresses : List UInt64) :
    (sim.listing dumpSets).run addresses = (sim.run addresses).map (·.listing dumpSets) := by
  rw [run, run, listing, Cache.accessAll_listing]
  cases sim.cache.accessAll addresses <;> rfl

theorem ofConfig_eq_error_iff (config : Config) (error : GeometryError) :
    ofConfig config = .error error ↔ config.cache.validate = .error error := by
  rw [← Cache.ofGeometry_eq_error_iff, ofConfig]
  cases Cache.ofGeometry config.cache with
  | error refusal => simp [bind, Except.bind]
  | ok cache => simp [bind, Except.bind, pure, Except.pure]

theorem exists_run_of_ofConfig {config : Config} {sim : Simulator}
    (hsim : ofConfig config = .ok sim) (addresses : List UInt64) :
    ∃ after, sim.run addresses = .ok after := by
  have hready := Cache.ready_of_ofGeometry (ofConfig_eq_ok hsim).1
  obtain ⟨inCache, hreplay⟩ := hready.wellFormed.exists_run addresses
  rw [run, Cache.accessAll_eq_map_replay, hreplay]
  exact ⟨_, rfl⟩

end Simulator

/-- The line that describes a geometry. -/
def Geometry.configurationLine (g : Geometry) : String :=
  s!"Configuration: {g.ways} ways x {g.sets} sets, " ++
    s!"offset {g.offsetBits} bits, index {g.indexBits} bits, " ++
    s!"tag {64 - (g.offsetBits + g.indexBits)} bits, {g.policy.name} victim selection\n"

namespace CommandLine

/-- The line that announces what is replayed. -/
def Command.heading (config : Config) : Command → String
  | .matMul =>
      s!"[*] Matmul workload: {config.workload.size}x{config.workload.size} matrices\n"
  | .trace path => s!"[*] Trace replay: {path}\n"

/-! ## Ways to end -/

/-- How a command with its options ends: the exit code, what is written to
standard output, and the line of a fatal error. -/
inductive Ends (wording : Wording) (read : FileReader) (command : Command) (sides : Sides) :
    (exitCode : Nat) → (output : String) → (fatal? : Option String) → Prop
  | unreadConfig {error : ConfigError} (hfile : Configured read sides (.error error)) :
      Ends wording read command sides 1 "" (some ("[!] FATAL: " ++ error.message wording.flaw))
  | invalid {file config : Config} {error : GeometryError}
      (hfile : Configured read sides (.ok file)) (hmerges : Merges command sides file config)
      (hinvalid : config.cache.validate = .error error) :
      Ends wording read command sides 1 "" (some ("[!] FATAL: " ++ error.message))
  | unreadTrace {file config : Config} {path : String} {error : TraceError}
      (hfile : Configured read sides (.ok file)) (hmerges : Merges command sides file config)
      (hvalid : config.cache.validate = .ok ()) (hcommand : command = .trace path)
      (htrace : Traced read path (.error error)) :
      Ends wording read command sides 1
        (config.cache.configurationLine ++ command.heading config)
        (some ("[!] FATAL: " ++ error.message))
  | replayed {file config : Config} {path : String} {sim after : Simulator}
      {addresses : List UInt64} {dumpSets : Bool} (hfile : Configured read sides (.ok file))
      (hmerges : Merges command sides file config) (hsim : Simulator.ofConfig config = .ok sim)
      (hcommand : command = .trace path) (htrace : Traced read path (.ok addresses))
      (hrun : sim.run addresses = .ok after) (hdump : dumpSets = true ↔ sides.Raise .dumpSets) :
      Ends wording read command sides 0
        (config.cache.configurationLine ++ command.heading config ++
          (after.cache.listing dumpSets).render ++ "\n") none
  | multiplied {file config : Config} {sim after : Simulator} {dumpSets : Bool}
      (hfile : Configured read sides (.ok file)) (hmerges : Merges command sides file config)
      (hsim : Simulator.ofConfig config = .ok sim) (hcommand : command = .matMul)
      (hrun : sim.runMatMul = .ok after) (hdump : dumpSets = true ↔ sides.Raise .dumpSets) :
      Ends wording read command sides 0
        (config.cache.configurationLine ++ command.heading config ++
          (after.cache.listing dumpSets).render ++ "\n") none

/-- What makes a command fail: the configuration cannot be read, no cache has
the merged one, or the trace cannot be read. -/
def Fails (read : FileReader) (command : Command) (sides : Sides) : Prop :=
  (∃ error, Configured read sides (.error error)) ∨
  (∃ file config error, Configured read sides (.ok file) ∧ Merges command sides file config ∧
    config.cache.validate = .error error) ∨
  ∃ path error, command = .trace path ∧ Traced read path (.error error)

namespace Report

variable {read : FileReader} {given : Given} {file : Config}

theorem prepare_eq (read : FileReader) (given : Given) :
    prepare read given = (do
      let file ← (given.fileConfig read).mapError .config
      let sim ← (Simulator.ofConfig (given.adjust file)).mapError .geometry
      return sim.listing given.dumpSets) := by
  unfold prepare Given.fileConfig
  cases given.config? <;> rfl

theorem configurationLine_listing {config : Config} {sim : Simulator}
    (hsim : Simulator.ofConfig config = .ok sim) (dumpSets : Bool) :
    configurationLine (sim.listing dumpSets) = config.cache.configurationLine := by
  obtain ⟨hcache, hsame⟩ := Simulator.ofConfig_eq_ok hsim
  obtain ⟨-, hfresh⟩ := Cache.isFresh_of_ofGeometry hcache
  have hconfig : (sim.listing dumpSets).config = config := hsame
  have hoffset : (sim.listing dumpSets).cache.layout.offsetBits = config.cache.offsetBits :=
    hfresh.offsetBits_eq
  have hindex : (sim.listing dumpSets).cache.layout.indexBits = config.cache.indexBits :=
    hfresh.indexBits_eq
  unfold configurationLine Geometry.configurationLine
  dsimp only
  rw [hconfig, AddressLayout.tagBits, AddressLayout.tagShift, hindex, hoffset]

theorem prepare_of_unread {error : ConfigError} (hfile : given.fileConfig read = .error error) :
    prepare read given = .error (.config error) := by
  rw [prepare_eq, hfile]
  rfl

theorem prepare_of_read (hfile : given.fileConfig read = .ok file) :
    prepare read given = ((Simulator.ofConfig (given.adjust file)).mapError .geometry).map
      (·.listing given.dumpSets) := by
  rw [prepare_eq, hfile]
  rfl

theorem prepare_of_invalid (hfile : given.fileConfig read = .ok file) {error : GeometryError}
    (hinvalid : (given.adjust file).cache.validate = .error error) :
    prepare read given = .error (.geometry error) := by
  have hsim := (Simulator.ofConfig_eq_error_iff (given.adjust file) error).mpr hinvalid
  rw [prepare_of_read hfile, hsim]
  rfl

theorem prepare_of_ofConfig (hfile : given.fileConfig read = .ok file) {sim : Simulator}
    (hsim : Simulator.ofConfig (given.adjust file) = .ok sim) :
    prepare read given = .ok (sim.listing given.dumpSets) := by
  rw [prepare_of_read hfile, hsim]
  rfl

theorem workloadLine_listing {config : Config} {sim : Simulator}
    (hsim : Simulator.ofConfig config = .ok sim) (dumpSets : Bool) (command : Command) :
    workloadLine (sim.listing dumpSets) command = command.heading config := by
  have hconfig : (sim.listing dumpSets).config = config := (Simulator.ofConfig_eq_ok hsim).2
  cases command with
  | matMul =>
      unfold workloadLine Command.heading
      dsimp only
      rw [hconfig]
  | trace path => rfl

theorem replay_matMul {sim after : Simulator} (hrun : sim.runMatMul = .ok after)
    (dumpSets : Bool) :
    replay read (sim.listing dumpSets) .matMul = .ok (after.listing dumpSets) := by
  change ((sim.listing dumpSets).run sim.config.workload.addresses).mapError Failure.access = _
  rw [Simulator.run_listing]
  rw [Simulator.runMatMul] at hrun
  rw [hrun]
  rfl

theorem replay_trace {sim after : Simulator} {path : String} {addresses : List UInt64}
    (htrace : Trace.load read path = .ok addresses) (hrun : sim.run addresses = .ok after)
    (dumpSets : Bool) :
    replay read (sim.listing dumpSets) (.trace path) = .ok (after.listing dumpSets) := by
  rw [replay, htrace]
  change ((sim.listing dumpSets).run addresses).mapError Failure.access = _
  rw [Simulator.run_listing, hrun]
  rfl

theorem replay_unread {path : String} {error : TraceError}
    (htrace : Trace.load read path = .error error) (sim : Simulator) :
    replay read sim (.trace path) = .error (.trace error) := by
  rw [replay, htrace]
  rfl

theorem ofCommand_of_unprepared {failure : Failure} (command : Command)
    (hprepare : prepare read given = .error failure) :
    ofCommand read command given = ⟨"", some failure⟩ := by
  rw [ofCommand, hprepare]

section Prepared

variable {command : Command} {sim : Simulator} (hfile : given.fileConfig read = .ok file)
  (hsim : Simulator.ofConfig (given.adjust file) = .ok sim)

include hfile hsim

theorem ofCommand_of_failed {failure : Failure}
    (hreplay : replay read (sim.listing given.dumpSets) command = .error failure) :
    ofCommand read command given =
      ⟨(given.adjust file).cache.configurationLine ++ command.heading (given.adjust file),
        some failure⟩ := by
  rw [ofCommand, prepare_of_ofConfig hfile hsim]
  dsimp only
  rw [hreplay, configurationLine_listing hsim, workloadLine_listing hsim]

theorem ofCommand_of_replayed {after : Simulator}
    (hreplay : replay read (sim.listing given.dumpSets) command =
      .ok (after.listing given.dumpSets)) :
    ofCommand read command given =
      ⟨(given.adjust file).cache.configurationLine ++ command.heading (given.adjust file) ++
        (after.cache.listing given.dumpSets).render ++ "\n", none⟩ := by
  rw [ofCommand, prepare_of_ofConfig hfile hsim]
  dsimp only
  rw [hreplay, configurationLine_listing hsim, workloadLine_listing hsim]
  rfl

end Prepared

end Report

section Answers

open Report

variable {wording : Wording} {read : FileReader} {arguments : List String} {command : Command}
  {sides : Sides} {given : Given}

theorem not_fails (hfollows : given.Follows sides) (hcomposed : Composed command sides arguments)
    {file : Config} {sim : Simulator} (hfile : given.fileConfig read = .ok file)
    (hsim : Simulator.ofConfig (given.adjust file) = .ok sim)
    (htrace : ∀ path, command = .trace path → ∃ addresses, Traced read path (.ok addresses)) :
    ¬ Fails read command sides := by
  simp only [Fails, hfollows.configured_iff, hfollows.merges_iff hcomposed, hfile]
  rintro (⟨error, hunread⟩ | ⟨file', config, error, hfile', rfl, hinvalid⟩ |
    ⟨path, error, hcommand, hunread⟩)
  · contradiction
  · obtain rfl := Except.ok.inj hfile'
    rw [← Simulator.ofConfig_eq_error_iff, hsim] at hinvalid
    contradiction
  · obtain ⟨addresses, hread⟩ := htrace path hcommand
    rw [traced_iff] at hunread hread
    rw [hunread] at hread
    contradiction

theorem Ends.exitCode_eq {exitCode : Nat} {output : String} {fatal? : Option String}
    (hfollows : given.Follows sides) (hcomposed : Composed command sides arguments)
    (hends : Ends wording read command sides exitCode output fatal?) :
    Fails read command sides ∧ exitCode = 1 ∨ ¬ Fails read command sides ∧ exitCode = 0 := by
  cases hends with
  | unreadConfig hfile => exact .inl ⟨.inl ⟨_, hfile⟩, rfl⟩
  | invalid hfile hmerges hinvalid =>
      exact .inl ⟨.inr (.inl ⟨_, _, _, hfile, hmerges, hinvalid⟩), rfl⟩
  | unreadTrace hfile hmerges hvalid hcommand htrace =>
      exact .inl ⟨.inr (.inr ⟨_, _, hcommand, htrace⟩), rfl⟩
  | replayed hfile hmerges hsim hcommand htrace hrun hdump =>
      obtain rfl := (hfollows.merges_iff hcomposed _ _).mp hmerges
      refine .inr ⟨not_fails hfollows hcomposed ((hfollows.configured_iff _).mp hfile) hsim ?_, rfl⟩
      intro other hother
      obtain rfl := Command.trace.inj (hcommand.symm.trans hother)
      exact ⟨_, htrace⟩
  | multiplied hfile hmerges hsim hcommand hrun hdump =>
      obtain rfl := (hfollows.merges_iff hcomposed _ _).mp hmerges
      refine .inr ⟨not_fails hfollows hcomposed ((hfollows.configured_iff _).mp hfile) hsim ?_, rfl⟩
      intro path hother
      rw [hcommand] at hother
      contradiction

/-- Whatever the rules allow is the answer. -/
theorem Ends.report_eq {exitCode : Nat} {output : String} {fatal? : Option String}
    (hfollows : given.Follows sides) (hcomposed : Composed command sides arguments)
    (hends : Ends wording read command sides exitCode output fatal?) :
    let answer : Answer := .finished (ofCommand read command given)
    exitCode = answer.exitCode ∧ output = answer.output wording ∧
      fatal? = answer.fatal? wording := by
  have hraise : sides.Raise .dumpSets ↔ given.dumpSets = true := hfollows.raise_iff (by simp) rfl
  have hdumpSets : ∀ dumpSets : Bool, (dumpSets = true ↔ sides.Raise .dumpSets) →
      given.dumpSets = dumpSets := by
    intro dumpSets hdump
    rw [Bool.eq_iff_iff, hdump, hraise]
  cases hends with
  | unreadConfig hfile =>
      rw [hfollows.configured_iff] at hfile
      rw [ofCommand_of_unprepared command (prepare_of_unread hfile)]
      exact ⟨rfl, rfl, rfl⟩
  | invalid hfile hmerges hinvalid =>
      rw [hfollows.configured_iff] at hfile
      obtain rfl := (hfollows.merges_iff hcomposed _ _).mp hmerges
      rw [ofCommand_of_unprepared command (prepare_of_invalid hfile hinvalid)]
      exact ⟨rfl, rfl, rfl⟩
  | unreadTrace hfile hmerges hvalid hcommand htrace =>
      rw [hfollows.configured_iff] at hfile
      rw [traced_iff] at htrace
      obtain rfl := (hfollows.merges_iff hcomposed _ _).mp hmerges
      subst hcommand
      obtain ⟨cache, hsim⟩ := Simulator.exists_ofConfig _ hvalid
      rw [ofCommand_of_failed hfile hsim (replay_unread htrace _)]
      exact ⟨rfl, rfl, rfl⟩
  | replayed hfile hmerges hsim hcommand htrace hrun hdump =>
      rw [hfollows.configured_iff] at hfile
      rw [traced_iff] at htrace
      obtain rfl := (hfollows.merges_iff hcomposed _ _).mp hmerges
      obtain rfl := hdumpSets _ hdump
      subst hcommand
      rw [ofCommand_of_replayed hfile hsim (replay_trace htrace hrun _)]
      exact ⟨rfl, rfl, rfl⟩
  | multiplied hfile hmerges hsim hcommand hrun hdump =>
      rw [hfollows.configured_iff] at hfile
      obtain rfl := (hfollows.merges_iff hcomposed _ _).mp hmerges
      obtain rfl := hdumpSets _ hdump
      subst hcommand
      rw [ofCommand_of_replayed hfile hsim (replay_matMul hrun _)]
      exact ⟨rfl, rfl, rfl⟩

/-- Some rule applies, since a run on a cache that was built does not fail. -/
theorem exists_ends (wording : Wording) (read : FileReader) (hfollows : given.Follows sides)
    (hcomposed : Composed command sides arguments) :
    ∃ exitCode output fatal?, Ends wording read command sides exitCode output fatal? := by
  have hdump : given.dumpSets = true ↔ sides.Raise .dumpSets :=
    (hfollows.raise_iff (by simp) rfl).symm
  cases hconfig : given.fileConfig read with
  | error error => exact ⟨_, _, _, .unreadConfig ((hfollows.configured_iff _).mpr hconfig)⟩
  | ok file =>
      have hfile := (hfollows.configured_iff _).mpr hconfig
      have hmerges := (hfollows.merges_iff hcomposed file _).mpr rfl
      cases hvalid : (given.adjust file).cache.validate with
      | error error => exact ⟨_, _, _, .invalid hfile hmerges hvalid⟩
      | ok =>
          obtain ⟨cache, hsim⟩ := Simulator.exists_ofConfig _ hvalid
          cases hcommand : command with
          | matMul =>
              obtain ⟨after, hrun⟩ :=
                Simulator.exists_run_of_ofConfig hsim (given.adjust file).workload.addresses
              rw [hcommand] at hmerges
              exact ⟨_, _, _, .multiplied hfile hmerges hsim rfl hrun hdump⟩
          | trace path =>
              rw [hcommand] at hmerges
              cases htrace : Trace.load read path with
              | error error =>
                  rw [← traced_iff] at htrace
                  exact ⟨_, _, _, .unreadTrace hfile hmerges hvalid rfl htrace⟩
              | ok addresses =>
                  rw [← traced_iff] at htrace
                  obtain ⟨after, hrun⟩ := Simulator.exists_run_of_ofConfig hsim addresses
                  exact ⟨_, _, _, .replayed hfile hmerges hsim rfl htrace hrun hdump⟩

theorem exists_finished_iff (read : FileReader) (arguments : List String) :
    (∃ report, Answer.ofArguments read arguments = .finished report) ↔
      ∃ command given, parse arguments = .ok (command, given) := by
  unfold Answer.ofArguments
  constructor
  · rintro ⟨report, hanswer⟩
    split at hanswer
    next command given hparse => exact ⟨command, given, hparse⟩
    all_goals contradiction
  · rintro ⟨command, given, hparse⟩
    rw [hparse]
    exact ⟨_, rfl⟩

/-- A command line leads to a report exactly if it is in order: it names a
command and spells options, which are given once on each side and can be read.
Then it ends as the library does: by one of the rules, and by no other.  The
exit code tells a failure. -/
theorem answer_follows_library (wording : Wording) (read : FileReader)
    (arguments : List String) :
    let answer := Answer.ofArguments read arguments
    ((∃ report, answer = .finished report) ↔ ∃ command sides, Accepted command sides arguments) ∧
    ∀ command sides, Accepted command sides arguments →
      (∀ exitCode output fatal?, Ends wording read command sides exitCode output fatal? ↔
        exitCode = answer.exitCode ∧ output = answer.output wording ∧
          fatal? = answer.fatal? wording) ∧
      (answer.exitCode = 1 ↔ Fails read command sides) ∧
      (answer.exitCode = 0 ↔ ¬ Fails read command sides) := by
  intro answer
  constructor
  · simp only [answer, exists_finished_iff, parse_eq_ok_iff]
  · intro command sides haccepted
    have hcomposed := haccepted.composed
    obtain ⟨given, hparse, hfollows⟩ := haccepted.exists_parse
    have hanswer : answer = .finished (ofCommand read command given) := by
      simp only [answer, Answer.ofArguments, hparse]
    rw [hanswer]
    obtain ⟨exitCode, output, fatal?, hends⟩ := exists_ends wording read hfollows hcomposed
    have heq := hends.report_eq hfollows hcomposed
    refine ⟨fun _ _ _ => ⟨fun hother => hother.report_eq hfollows hcomposed, ?_⟩, ?_⟩
    · rintro ⟨rfl, rfl, rfl⟩
      obtain ⟨rfl, rfl, rfl⟩ := heq
      exact hends
    · rw [← heq.1]
      obtain ⟨hfails, rfl⟩ | ⟨hpasses, rfl⟩ := hends.exitCode_eq hfollows hcomposed
      · simp [hfails]
      · simp [hpasses]

end Answers

/-- The file asks for five ways, which no cache has, but the option counts: the
configuration stands when the trace is missing.  An empty file is no
configuration, whatever the options are. -/
theorem answer_of_missing_trace :
    let wording : Wording := ⟨fun _ => "EOF while parsing a value at line 1 column 0", fun _ => ""⟩
    let read : FileReader := fun path =>
      if path = "five" then .ok (utf8 "\x7b\"cache\":\x7b\"ways\":5\x7d\x7d")
      else if path = "empty" then .ok (utf8 "") else .error .notFound
    let answer := Answer.ofArguments read ["-c", "five", "trace", "missing", "--ways", "4"]
    let other := Answer.ofArguments read ["-vcempty", "matmul", "--ways=4", "--"]
    answer.exitCode = 1 ∧
      answer.output wording =
        "Configuration: 4 ways x 256 sets, offset 6 bits, index 8 bits, tag 50 bits, " ++
          "Tree victim selection\n[*] Trace replay: missing\n" ∧
      answer.fatal? wording =
        some "[!] FATAL: cannot read trace: No such file or directory (os error 2)" ∧
      other.exitCode = 1 ∧ other.output wording = "" ∧
      other.fatal? wording = some ("[!] FATAL: malformed configuration: " ++
        "EOF while parsing a value at line 1 column 0") := by
  intro wording read answer other
  have haccepted : Accepted (.trace "missing") ⟨[.value .config "five"], [.value .ways "4"]⟩
      ["-c", "five", "trace", "missing", "--ways", "4"] := {
    composed := .trace
      (.cons (.lettered (.apart rfl (by decide))) (by decide) .nil) .nil (by decide)
      (.cons (.apart (by decide)) (by decide) .nil) (.inl rfl)
    once_before := by decide
    once_behind := by decide
    readable := (isSome_told?_iff _).mp (by decide) }
  have haccepted' : Accepted .matMul
      ⟨[.flag .verbose, .value .config "empty"], [.value .ways "4"]⟩
      ["-vcempty", "matmul", "--ways=4", "--"] := {
    composed := .matMul
      (.cons (.lettered (.flag rfl (.joined rfl (by decide)))) (by decide) .nil)
      (.cons .joined (by decide) .nil) (.inr rfl)
    once_before := by decide
    once_behind := by decide
    readable := (isSome_told?_iff _).mp (by decide) }
  have hjson : Config.ofJson "\x7b\"cache\":\x7b\"ways\":5\x7d\x7d" =
      .ok { cache := { ways := 5 } } := by rfl
  have hempty : Config.ofJson "" = .error (.malformed .unexpectedEnd "") := by rfl
  have hfile : Configured read ⟨[.value .config "five"], [.value .ways "4"]⟩
      (.ok { cache := { ways := 5 } }) := by
    rw [← hjson]
    exact .decoded (.before (by decide) (.head _) rfl .path) rfl
  have hfile' : Configured read ⟨[.flag .verbose, .value .config "empty"], [.value .ways "4"]⟩
      (.error (.malformed .unexpectedEnd "")) := by
    rw [← hempty]
    exact .decoded (.before (by decide) (.tail _ (.head _)) rfl .path) rfl
  have hfour : (Setting.value .ways "4").Says (.number 4) :=
    (Setting.told?_eq_some_iff _ _).mp (by decide)
  have hmerges : Merges (.trace "missing") ⟨[.value .config "five"], [.value .ways "4"]⟩
      { cache := { ways := 5 } } { cache := { ways := 4 } } := {
    ways := .given (.behind (.head _) rfl hfour)
    sets := .kept (by unfold Sides.Lack; decide)
    offsetBits := .kept (by unfold Sides.Lack; decide)
    policy := by unfold Sides.Raise; decide
    workload := rfl }
  have hends := ((answer_follows_library wording read _).2 _ _ haccepted).1 _ _ _ |>.mp
    (.unreadTrace hfile hmerges rfl rfl (.unread rfl))
  have hends' := ((answer_follows_library wording read _).2 _ _ haccepted').1 _ _ _ |>.mp
    (.unreadConfig hfile')
  refine ⟨hends.1.symm, hends.2.1.symm.trans ?_, hends.2.2.symm.trans ?_,
    hends'.1.symm, hends'.2.1.symm, hends'.2.2.symm.trans ?_⟩
  · rfl
  · rfl
  · rfl

end CommandLine

end PseudoLru
