import PseudoLru.Proofs.CommandGrammar

/-!
# The order of options

A command line is a subcommand with settings before and behind it; behind
`trace` the path stands anywhere among them.  As long as every option is given
once, all that counts is which settings there are, and neither their order, nor
their side, nor their spelling.  A setting that cannot be read refuses every
command line that has it.
-/

namespace PseudoLru.CommandLine

/-! ## Command lines -/

/-- The arguments that name a command and spell settings, with nothing else
among them.  What stands before the subcommand is global.  The path of a trace
stands anywhere behind the subcommand. -/
inductive Written : Command → List Setting → List String → Prop
  | matMul {outer inner : List Setting} {before behind : List String}
      (hbefore : SpelledInTurn outer before) (hbehind : SpelledInTurn inner behind)
      (hglobal : ∀ s ∈ outer, s.kind ≠ .value .size) :
      Written .matMul (outer ++ inner) (before ++ "matmul" :: behind)
  | trace {path : String} {outer inner last : List Setting} {before behind end' : List String}
      (hpath : path.toList.head? ≠ some '-')
      (hbefore : SpelledInTurn outer before) (hbehind : SpelledInTurn inner behind)
      (hend : SpelledInTurn last end')
      (hglobal : ∀ s ∈ outer ++ (inner ++ last), s.kind ≠ .value .size) :
      Written (.trace path) (outer ++ (inner ++ last))
        (before ++ "trace" :: (behind ++ path :: end'))

theorem Written.exists_composed {command : Command} {settings : List Setting}
    {arguments : List String} (hwritten : Written command settings arguments) :
    ∃ outer inner, settings = outer ++ inner ∧ Composed command ⟨outer, inner⟩ arguments := by
  have hglobal : ∀ {level : Level} {settings : List Setting},
      (∀ s ∈ settings, s.kind ≠ .value .size) → ∀ s ∈ settings, level.Takes s :=
    fun hsettings s hs hsize => absurd hsize (hsettings s hs)
  cases hwritten with
  | @matMul outer inner before behind hbefore hbehind houter =>
      refine ⟨outer, inner, rfl, ?_⟩
      rw [← behind.append_nil]
      exact .matMul (hbefore.spelledAt (hglobal houter)) (hbehind.spelledAt fun _ _ _ => rfl)
        (.inl rfl)
  | @trace path outer inner last before behind end' hpath hbefore hbehind hend hall =>
      rw [List.forall_mem_append, List.forall_mem_append] at hall
      have ⟨houter, hinner, hlast⟩ := hall
      refine ⟨outer, inner ++ last, rfl, ?_⟩
      have halone : StandsAlone path := by
        intro letter rest heq
        exact hpath (by rw [heq]; rfl)
      rw [← end'.append_nil]
      exact .trace (hbefore.spelledAt (hglobal houter)) (hbehind.spelledAt (hglobal hinner)) halone
        (hend.spelledAt (hglobal hlast)) (.inl rfl)

section Written

variable {command : Command} {settings : List Setting} {arguments : List String}

theorem exists_parse_of_read (hwritten : Written command settings arguments)
    (honce : ((counted settings).map Setting.kind).Nodup)
    (hread : ∀ s ∈ settings, s.told?.isSome) :
    ∃ given, parse arguments = .ok (command, given) ∧ given.Tells (counted settings) := by
  obtain ⟨outer, inner, rfl, hcomposed⟩ := hwritten.exists_composed
  have hparse := hcomposed.parse_eq
  have hsplit : counted (outer ++ inner) = counted outer ++ counted inner := List.filter_append ..
  rw [hsplit, List.map_append, List.nodup_append] at honce
  obtain ⟨houter, hinner, hapart⟩ := honce
  have ⟨hreadOuter, hreadInner⟩ := List.forall_mem_append.mp hread
  obtain ⟨before, hbefore, htold⟩ := Given.exists_tells_counted houter hreadOuter
  obtain ⟨behind, hbehind, htold'⟩ := Given.exists_tells_counted hinner hreadInner
  refine ⟨behind.orElse before, ?_, ?_⟩
  · rw [hparse, hbefore, hbehind]
    rfl
  · rw [hsplit]
    exact htold'.orElse htold fun s hs t ht =>
      hapart s.kind (List.mem_map_of_mem hs) t.kind (List.mem_map_of_mem ht)

theorem exists_parse_error (hwritten : Written command settings arguments) {s : Setting}
    (hs : s ∈ settings) (htold : s.told? = none) :
    ∃ error, parse arguments = .error (.usage error) := by
  obtain ⟨outer, inner, rfl, hcomposed⟩ := hwritten.exists_composed
  have hparse := hcomposed.parse_eq
  rw [hparse]
  cases hbefore : outer.foldlM Given.apply {} with
  | error error => exact ⟨error, rfl⟩
  | ok before =>
      rcases List.mem_append.mp hs with houter | hinner
      · obtain ⟨error, herror⟩ := Given.exists_foldlM_error houter htold {}
        rw [hbefore] at herror
        contradiction
      · obtain ⟨error, herror⟩ := Given.exists_foldlM_error hinner htold {}
        exact ⟨error, by rw [herror]; rfl⟩

theorem exists_unread_of_perm {settings' : List Setting}
    (hsame : (counted settings).Perm (counted settings'))
    (hunread : ∃ s ∈ settings, s.told? = none) : ∃ s ∈ settings', s.told? = none := by
  obtain ⟨s, hs, htold⟩ := hunread
  have hcounts : s ≠ .flag .verbose := by
    rintro rfl
    cases htold
  have hs' := hsame.mem_iff.mp (mem_counted_iff.mpr ⟨hs, hcounts⟩)
  exact ⟨s, (mem_counted_iff.mp hs').1, htold⟩

theorem isSome_told?_of_not_unread (hread : ¬ ∃ s ∈ settings, s.told? = none) :
    ∀ s ∈ settings, s.told?.isSome := by
  intro s hs
  rw [Option.isSome_iff_ne_none]
  intro htold
  exact hread ⟨s, hs, htold⟩

end Written

/-- Two command lines of one command have the same exit code, output and fatal
line if they give the same options, each once and with a plain value.  Neither
the order of the options counts, nor the side of the subcommand on which a
global one stands, nor the place of the path behind it, nor the spelling, nor
how often the verbosity is raised. -/
theorem answer_of_same_settings (wording : Wording) (read : FileReader) {command : Command}
    {settings settings' : List Setting} {first second : List String}
    (hfirst : Written command settings first) (hsecond : Written command settings' second)
    (honce : ((counted settings).map Setting.kind).Nodup)
    (hsame : (counted settings).Perm (counted settings')) :
    let answer := Answer.ofArguments read first
    let other := Answer.ofArguments read second
    answer.exitCode = other.exitCode ∧ answer.output wording = other.output wording ∧
      answer.fatal? wording = other.fatal? wording := by
  -- A value that cannot be read is in both command lines or in none of them.
  by_cases hunread : ∃ s ∈ settings, s.told? = none
  · obtain ⟨s, hs, htold⟩ := hunread
    obtain ⟨s', hs', htold'⟩ := exists_unread_of_perm hsame ⟨s, hs, htold⟩
    obtain ⟨error, herror⟩ := exists_parse_error hfirst hs htold
    obtain ⟨error', herror'⟩ := exists_parse_error hsecond hs' htold'
    rw [Answer.ofArguments, Answer.ofArguments, herror, herror']
    exact ⟨rfl, rfl, rfl⟩
  · have hunread' := mt (exists_unread_of_perm hsame.symm) hunread
    have honce' := (hsame.map Setting.kind).nodup_iff.mp honce
    obtain ⟨given, hgiven, htells⟩ :=
      exists_parse_of_read hfirst honce (isSome_told?_of_not_unread hunread)
    obtain ⟨given', hgiven', htells'⟩ :=
      exists_parse_of_read hsecond honce' (isSome_told?_of_not_unread hunread')
    obtain rfl := (htells.perm hsame).eq htells'
    rw [Answer.ofArguments, Answer.ofArguments, hgiven, hgiven']
    exact ⟨rfl, rfl, rfl⟩

/-- The value `trace` is no subcommand, and `-v` is put in. -/
theorem answer_of_two_orders :
    let wording : Wording := ⟨fun _ => "", fun _ => ""⟩
    let read := FileTree.read (.ofFiles [("trace", [0x7b, 0x7d]), ("path", [])])
    let answer := Answer.ofArguments read ["--config", "trace", "--ways=4", "trace", "path"]
    let other := Answer.ofArguments read ["trace", "-v", "path", "--ways", "4", "-ctrace"]
    answer.exitCode = other.exitCode ∧ answer.output wording = other.output wording ∧
      answer.fatal? wording = other.fatal? wording := by
  have hpath : "path".toList.head? ≠ some '-' := by decide
  have hconfig : PlainValue "trace" := ⟨'t', "race".toList, rfl, by decide, by decide⟩
  have hways : PlainValue "4" := ⟨'4', [], rfl, by decide, by decide⟩
  have hverbose : Setting.Spelled (.flag .verbose) ["-v"] :=
    @Setting.Spelled.letterRaised .verbose 'v' rfl
  have hletter : Setting.Spelled (.value .config "trace") ["-ctrace"] :=
    @Setting.Spelled.letterJoined .config "trace" 'c' rfl hconfig
  have hfirst : Written (.trace "path") [.value .config "trace", .value .ways "4"]
      ["--config", "trace", "--ways=4", "trace", "path"] :=
    .trace hpath (.cons (.apart hconfig) (.cons (.joined hways) .nil)) .nil .nil (by decide)
  have hsecond : Written (.trace "path") [.flag .verbose, .value .ways "4", .value .config "trace"]
      ["trace", "-v", "path", "--ways", "4", "-ctrace"] :=
    .trace hpath .nil (.cons hverbose .nil) (.cons (.apart hways) (.cons hletter .nil)) (by decide)
  exact answer_of_same_settings _ _ hfirst hsecond (by decide) (by decide)

end PseudoLru.CommandLine
