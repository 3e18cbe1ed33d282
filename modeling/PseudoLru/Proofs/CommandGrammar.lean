import PseudoLru.CommandLine.Report
import PseudoLru.Proofs.OptionGroups
import PseudoLru.Proofs.OptionValues

/-!
# The grammar of command lines

A command line in order names a subcommand, with groups of options before and
behind it; behind `trace` a path stands between two groups or after two dashes.
On each side an option is given once, and its value can be read.  These are the
command lines that are accepted, and what an option says behind the subcommand
counts before what it says in front.
-/

namespace PseudoLru.CommandLine

/-- The settings on the two sides of the subcommand. -/
structure Sides where
  before : List Setting
  behind : List Setting

namespace Sides

variable (sides : Sides)

def all : List Setting := sides.before ++ sides.behind

/-- What counts for a kind of option. -/
inductive Say (kind : OptionKind) (told : Told) : Prop
  | behind {s : Setting} (hs : s ∈ sides.behind) (hkind : s.kind = kind) (hmeans : s.Says told)
  | before {s : Setting} (hnone : ∀ t ∈ sides.behind, t.kind ≠ kind) (hs : s ∈ sides.before)
      (hkind : s.kind = kind) (hmeans : s.Says told)

def Lack (kind : OptionKind) : Prop := ∀ s ∈ sides.all, s.kind ≠ kind

def Raise (raised : Flag) : Prop := .flag raised ∈ sides.all

end Sides

/-- Two dashes may end the options. -/
def Ended (arguments : List String) : Prop := arguments = [] ∨ arguments = ["--"]

/-- The arguments that name a command and spell the settings on its sides. -/
inductive Composed : Command → Sides → List String → Prop
  | matMul {outer inner : List Setting} {before behind ended : List String}
      (hbefore : SpelledAt .root outer before) (hbehind : SpelledAt .matMul inner behind)
      (hended : Ended ended) :
      Composed .matMul ⟨outer, inner⟩ (before ++ "matmul" :: (behind ++ ended))
  | trace {path : String} {outer inner later : List Setting}
      {before behind after ended : List String} (hbefore : SpelledAt .root outer before)
      (hbehind : SpelledAt .trace inner behind) (hpath : StandsAlone path)
      (hafter : SpelledAt .trace later after) (hended : Ended ended) :
      Composed (.trace path) ⟨outer, inner ++ later⟩
        (before ++ "trace" :: (behind ++ path :: (after ++ ended)))
  | traceEnded {path : String} {outer inner : List Setting} {before behind : List String}
      (hbefore : SpelledAt .root outer before) (hbehind : SpelledAt .trace inner behind) :
      Composed (.trace path) ⟨outer, inner⟩ (before ++ "trace" :: (behind ++ ["--", path]))

/-- A command line in order. -/
structure Accepted (command : Command) (sides : Sides) (arguments : List String) : Prop where
  composed : Composed command sides arguments
  once_before : ((counted sides.before).map Setting.kind).Nodup
  once_behind : ((counted sides.behind).map Setting.kind).Nodup
  readable : ∀ s ∈ sides.all, ∃ told, s.Says told

/-- Only the matrix multiplication takes a size. -/
theorem Composed.lack_size {path : String} {sides : Sides} {arguments : List String}
    (hcomposed : Composed (.trace path) sides arguments) : sides.Lack (.value .size) := by
  have hnone : ∀ {level : Level} {settings : List Setting} {arguments : List String},
      level ≠ .matMul → SpelledAt level settings arguments →
        ∀ s ∈ settings, s.kind ≠ .value .size :=
    fun hlevel hspelled s hs hsize => hlevel (hspelled.takes s hs hsize)
  rw [Sides.Lack, Sides.all, List.forall_mem_append]
  cases hcomposed with
  | trace hbefore hbehind _ hafter _ =>
      refine ⟨hnone (by simp) hbefore, ?_⟩
      rw [List.forall_mem_append]
      exact ⟨hnone (by simp) hbehind, hnone (by simp) hafter⟩
  | traceEnded hbefore hbehind => exact ⟨hnone (by simp) hbefore, hnone (by simp) hbehind⟩

/-! ## Reading a composed command line -/

namespace Progress

variable {p last : Progress} {argument : String} {arguments : List String}

theorem ready_start : Ready {} := ⟨rfl, rfl, by simp⟩

theorem ready_matMul (outer : Given) : Ready { level := .matMul, outer } := ⟨rfl, rfl, by simp⟩

theorem ready_trace (outer given : Given) (path? : Option String) :
    Ready { level := .trace, outer, given, path? } := ⟨rfl, rfl, by simp⟩

theorem Ready.feed_plain (hready : p.Ready) (hlevel : p.level ≠ .root)
    (halone : StandsAlone argument) : p.feed argument = p.feedPlain argument := by
  rw [feed_eq_feedBody hready.optionsEnded_eq hready.level_ne (fun hroot => absurd hroot hlevel),
    feedBody_plain hready.pending?_eq halone]

theorem Ready.feed_dashes (hready : p.Ready) :
    p.feed "--" = .ok { p with optionsEnded := true } := by
  have hdash : "--".toList = '-' :: ['-'] := rfl
  rw [hready.feed_dash hdash, feedBody, hready.pending?_eq]
  rfl

theorem Ready.finish_ended (hready : p.Ready) {ended : List String} (hended : Ended ended) :
    (ended.foldlM feed p >>= finish) = p.finish := by
  rcases hended with rfl | rfl
  · rfl
  · rw [List.foldlM_cons, hready.feed_dashes]
    rfl

theorem orStop_eq_ok_iff {result : Except UsageError α} {a : α} :
    orStop result = .ok a ↔ result = .ok a := by
  cases result <;> simp [orStop, Except.mapError]

theorem orStop_bind (result : Except UsageError α) (f : α → Except UsageError β) :
    orStop (result >>= f) = orStop result >>= fun a => orStop (f a) := by
  cases result <;> rfl

end Progress

section Reading

open Progress

theorem parse_before {outer : List Setting} {before : List String}
    (hbefore : SpelledAt .root outer before) {name : String} {level : Level}
    (hname : Level.ofName? name = some level) (rest : List String) :
    parse (before ++ name :: rest) =
      orStop (outer.foldlM Given.apply {}) >>= fun given =>
        rest.foldlM feed { level, outer := given } >>= finish := by
  rw [parse, ready_start.feeds_append hbefore, bind_assoc]
  refine bind_congr fun given => ?_
  have hfeed : feed { given } name = .ok { level, outer := given } := by
    simp only [feed, hname, Bool.false_eq_true, if_false]
  rw [List.foldlM_cons, hfeed]
  rfl

/-- A composed command line is read as the settings of its sides, applied in turn. -/
theorem Composed.parse_eq {command : Command} {sides : Sides} {arguments : List String}
    (hcomposed : Composed command sides arguments) :
    parse arguments = orStop (do
      let before ← sides.before.foldlM Given.apply {}
      let behind ← sides.behind.foldlM Given.apply {}
      return (command, behind.orElse before)) := by
  cases hcomposed with
  | matMul hbefore hbehind hended =>
      rw [parse_before hbefore rfl, orStop_bind]
      refine bind_congr fun given => ?_
      rw [(ready_matMul given).feeds_append hbehind, orStop_bind, bind_assoc]
      exact bind_congr fun inner => ((ready_matMul given).withGiven inner).finish_ended hended
  | @trace path outer inner later before behind after ended hbefore hbehind hpath hafter hended =>
      rw [parse_before hbefore rfl, orStop_bind]
      refine bind_congr fun given => ?_
      rw [(ready_trace given {} none).feeds_append hbehind, List.foldlM_append, orStop_bind,
        orStop_bind, bind_assoc, bind_assoc]
      refine bind_congr fun inner => ?_
      have hfeed : feed { level := .trace, outer := given, given := inner } path =
          .ok { level := .trace, outer := given, given := inner, path? := some path } :=
        (ready_trace given inner none).feed_plain (by simp) hpath
      rw [List.foldlM_cons, hfeed]
      change ((after ++ ended).foldlM feed _ >>= finish) = _
      rw [(ready_trace given inner (some path)).feeds_append hafter, bind_assoc]
      exact bind_congr fun later => (ready_trace given later (some path)).finish_ended hended
  | @traceEnded path outer inner before behind hbefore hbehind =>
      rw [parse_before hbefore rfl, orStop_bind]
      refine bind_congr fun given => ?_
      rw [(ready_trace given {} none).feeds_append hbehind, orStop_bind, bind_assoc]
      refine bind_congr fun inner => ?_
      rw [List.foldlM_cons, (ready_trace given inner none).feed_dashes]
      rfl

end Reading

/-! ## What an accepted command line is composed of -/

namespace Progress

variable {p last : Progress} {argument : String} {arguments : List String} {command : Command}
  {given : Given}

theorem pending?_of_finish (hfinish : p.finish = .ok (command, given)) : p.pending? = none := by
  cases hpending : p.pending? with
  | none => rfl
  | some option =>
      rw [finish, hpending] at hfinish
      cases hlevel : p.level <;> rw [hlevel] at hfinish <;> contradiction

theorem eq_nil_of_feeds (hrefuse : ∀ argument, ∃ stop, p.feed argument = .error stop)
    (hfeeds : arguments.foldlM feed p = .ok last) : arguments = [] := by
  cases arguments with
  | nil => rfl
  | cons argument rest =>
      obtain ⟨next, hnext, -⟩ := exists_of_feeds_cons hfeeds
      obtain ⟨stop, hstop⟩ := hrefuse argument
      rw [hstop] at hnext
      contradiction

/-- No argument but options is taken any more. -/
def Full (p : Progress) : Prop := p.level = .matMul ∨ p.level = .trace ∧ p.path?.isSome = true

theorem Full.level_ne (hfull : p.Full) : p.level ≠ .root := by
  intro hroot
  rcases hfull with hlevel | ⟨hlevel, -⟩ <;> rw [hroot] at hlevel <;> contradiction

theorem Full.feedPlain_eq (hfull : p.Full) (argument : String) :
    p.feedPlain argument = .error (.usage .unexpectedArgument) := by
  rcases hfull with hlevel | ⟨hlevel, hpath⟩
  · rw [feedPlain, hlevel]
  · obtain ⟨path, hpath⟩ := Option.isSome_iff_exists.mp hpath
    rw [feedPlain, hlevel, hpath]

theorem Full.feed_ended (hfull : p.Full) (argument : String) :
    { p with optionsEnded := true }.feed argument = .error (.usage .unexpectedArgument) := by
  have hended : { p with optionsEnded := true }.Full := hfull
  rw [← hended.feedPlain_eq argument]
  rcases hfull with hlevel | ⟨hlevel, -⟩
  · simp [feed, hlevel]
  · simp [feed, hlevel]

theorem Full.ended_of_feeds (hfull : p.Full) (hready : p.Ready)
    (hfeeds : arguments.foldlM feed p = .ok last)
    (hbegins : ∀ argument rest, arguments = argument :: rest →
      argument = "--" ∨ StandsAlone argument) : Ended arguments := by
  cases arguments with
  | nil => exact .inl rfl
  | cons argument rest =>
      obtain ⟨next, hnext, hrest⟩ := exists_of_feeds_cons hfeeds
      rcases hbegins argument rest rfl with rfl | halone
      · obtain rfl := Except.ok.inj (hready.feed_dashes.symm.trans hnext)
        have hnil := eq_nil_of_feeds (fun argument => ⟨_, hfull.feed_ended argument⟩) hrest
        exact .inr (by rw [hnil])
      · rw [hready.feed_plain hfull.level_ne halone, hfull.feedPlain_eq] at hnext
        contradiction

section Sides

variable {settings : List Setting} {before : List String} {outer : Given}

theorem exists_composed_matMul (hbefore : SpelledAt .root settings before)
    (hfeeds : arguments.foldlM feed { level := .matMul, outer } = .ok last)
    (hlast : last.pending? = none) :
    ∃ command sides, Composed command sides (before ++ "matmul" :: arguments) := by
  obtain ⟨inner, behind, ended, given, rfl, hbehind, hended, hbegins⟩ :=
    (ready_matMul outer).exists_spelledAt hfeeds hlast
  have hfull : Full { level := .matMul, outer, given } := .inl rfl
  have hends := hfull.ended_of_feeds ((ready_matMul outer).withGiven given) hended hbegins
  exact ⟨_, _, .matMul hbefore hbehind hends⟩

theorem exists_composed_trace (hbefore : SpelledAt .root settings before)
    (hfeeds : arguments.foldlM feed { level := .trace, outer } = .ok last)
    (hfinish : last.finish = .ok (command, given)) :
    ∃ command sides, Composed command sides (before ++ "trace" :: arguments) := by
  have hlast := pending?_of_finish hfinish
  obtain ⟨inner, behind, remaining, middle, rfl, hbehind, hfeeds, hbegins⟩ :=
    (ready_trace outer {} none).exists_spelledAt hfeeds hlast
  have hready := ready_trace outer middle none
  cases remaining with
  | nil =>
      obtain rfl := Except.ok.inj hfeeds
      contradiction
  | cons argument rest =>
      obtain ⟨next, hnext, hrest⟩ := exists_of_feeds_cons hfeeds
      rcases hbegins argument rest rfl with rfl | halone
      · -- Behind the dashes stands the path, and nothing else.
        obtain rfl := Except.ok.inj (hready.feed_dashes.symm.trans hnext)
        cases rest with
        | nil =>
            obtain rfl := Except.ok.inj hrest
            contradiction
        | cons path rest =>
            have hfull : Full { level := .trace, outer, given := middle, path? := some path } :=
              .inr ⟨rfl, rfl⟩
            have hnil : rest = [] :=
              eq_nil_of_feeds (fun argument => ⟨_, hfull.feed_ended argument⟩) hrest
            rw [hnil]
            exact ⟨_, _, .traceEnded hbefore hbehind⟩
      · rw [hready.feed_plain (by simp) halone] at hnext
        obtain rfl := Except.ok.inj hnext
        have hready' := ready_trace outer middle (some argument)
        obtain ⟨later, after, ended, given, rfl, hafter, hended, hbegins⟩ :=
          hready'.exists_spelledAt hrest hlast
        have hfull : Full { level := .trace, outer, given, path? := some argument } :=
          .inr ⟨rfl, rfl⟩
        have hends := hfull.ended_of_feeds (ready_trace outer given (some argument)) hended hbegins
        exact ⟨_, _, .trace hbefore hbehind halone hafter hends⟩

end Sides

theorem finish_of_help {named : Bool} (hlevel : p.level = .help named)
    (hfeeds : arguments.foldlM feed p = .ok last) : last.finish = .error .help := by
  induction arguments generalizing p named with
  | nil =>
      obtain rfl := Except.ok.inj hfeeds
      rw [finish, hlevel]
  | cons argument rest ih =>
      obtain ⟨next, hnext, hrest⟩ := exists_of_feeds_cons hfeeds
      rw [feed, hlevel] at hnext
      dsimp only at hnext
      split at hnext
      · contradiction
      · obtain rfl := Except.ok.inj hnext
        exact ih rfl hrest

/-- Behind the options stands the subcommand. -/
theorem exists_composed_of_alone {settings : List Setting} {before : List String} {outer : Given}
    (hbefore : SpelledAt .root settings before) (halone : StandsAlone argument)
    (hfirst : feed { given := outer } argument = .ok p)
    (hfeeds : arguments.foldlM feed p = .ok last) (hfinish : last.finish = .ok (command, given)) :
    ∃ command sides, Composed command sides (before ++ argument :: arguments) := by
  cases hname : Level.ofName? argument with
  | none =>
      rw [feed_eq_feedBody rfl (by simp) (fun _ _ => hname), feedBody_plain rfl halone] at hfirst
      contradiction
  | some level =>
      simp only [feed, hname] at hfirst
      obtain rfl := Except.ok.inj hfirst
      unfold Level.ofName? at hname
      split at hname
      · obtain rfl := Option.some.inj hname
        exact exists_composed_matMul hbefore hfeeds (pending?_of_finish hfinish)
      · obtain rfl := Option.some.inj hname
        exact exists_composed_trace hbefore hfeeds hfinish
      · obtain rfl := Option.some.inj hname
        rw [finish_of_help rfl hfeeds] at hfinish
        contradiction
      · contradiction

end Progress

open Progress in
theorem exists_composed {arguments : List String} {command : Command} {given : Given}
    (hparse : parse arguments = .ok (command, given)) :
    ∃ command sides, Composed command sides arguments := by
  rw [parse, bind_eq_ok_iff] at hparse
  obtain ⟨last, hfeeds, hfinish⟩ := hparse
  obtain ⟨outer, before, remaining, middle, rfl, hbefore, hremaining, hbegins⟩ :=
    ready_start.exists_spelledAt hfeeds (pending?_of_finish hfinish)
  cases remaining with
  | nil =>
      obtain rfl := Except.ok.inj hremaining
      contradiction
  | cons argument rest =>
      obtain ⟨next, hnext, hrest⟩ := exists_of_feeds_cons hremaining
      rcases hbegins argument rest rfl with rfl | halone
      · -- Dashes in front of the subcommand leave no place for it.
        have hready := ready_start.withGiven middle
        obtain rfl := Except.ok.inj (hready.feed_dashes.symm.trans hnext)
        have hnil := eq_nil_of_feeds (fun argument => ⟨_, rfl⟩) hrest
        rw [hnil] at hrest
        obtain rfl := Except.ok.inj hrest
        contradiction
      · exact exists_composed_of_alone hbefore halone hnext hrest hfinish

/-! ## What the options say -/

namespace Given

variable {given : Given} {settings : List Setting} {kind : OptionKind}

theorem Tells.iff_of_counted (htells : given.Tells (counted settings))
    (hkind : kind ≠ .flag .verbose) (told : Told) :
    given.told? kind = some told ↔ ∃ s ∈ settings, s.kind = kind ∧ s.Says told := by
  rw [htells kind told]
  simp only [Setting.told?_eq_some_iff, mem_counted_iff]
  constructor
  · rintro ⟨s, ⟨hs, -⟩, hrest⟩
    exact ⟨s, hs, hrest⟩
  · rintro ⟨s, hs, rfl, hmeans⟩
    refine ⟨s, ⟨hs, ?_⟩, rfl, hmeans⟩
    rintro rfl
    exact hkind rfl

theorem Tells.none_iff_of_counted (htells : given.Tells (counted settings))
    (hreadable : ∀ s ∈ settings, ∃ told, s.Says told) (hkind : kind ≠ .flag .verbose) :
    given.told? kind = none ↔ ∀ s ∈ settings, s.kind ≠ kind := by
  rw [Option.eq_none_iff_forall_ne_some]
  constructor
  · intro hnone s hs hsame
    obtain ⟨told, hmeans⟩ := hreadable s hs
    exact hnone told ((htells.iff_of_counted hkind told).mpr ⟨s, hs, hsame, hmeans⟩)
  · intro hnone told htold
    obtain ⟨s, hs, hsame, -⟩ := (htells.iff_of_counted hkind told).mp htold
    exact hnone s hs hsame

/-- The options say what counts on the two sides. -/
structure Follows (given : Given) (sides : Sides) : Prop where
  told?_eq_some_iff : ∀ kind, kind ≠ .flag .verbose → ∀ told,
    (given.told? kind = some told ↔ sides.Say kind told)
  told?_eq_none_iff : ∀ kind, kind ≠ .flag .verbose →
    (given.told? kind = none ↔ sides.Lack kind)

theorem follows_orElse {inner outer : Given} {sides : Sides}
    (hinner : inner.Tells (counted sides.behind)) (houter : outer.Tells (counted sides.before))
    (hreadable : ∀ s ∈ sides.all, ∃ told, s.Says told) : (inner.orElse outer).Follows sides := by
  have ⟨hbefore, hbehind⟩ := List.forall_mem_append.mp hreadable
  constructor
  · intro kind hkind told
    rw [told?_orElse, Option.or_eq_some_iff, hinner.none_iff_of_counted hbehind hkind,
      hinner.iff_of_counted hkind, houter.iff_of_counted hkind]
    constructor
    · rintro (⟨s, hs, hsame, hmeans⟩ | ⟨hnone, s, hs, hsame, hmeans⟩)
      · exact .behind hs hsame hmeans
      · exact .before hnone hs hsame hmeans
    · intro hsay
      cases hsay with
      | behind hs hsame hmeans => exact .inl ⟨_, hs, hsame, hmeans⟩
      | before hnone hs hsame hmeans => exact .inr ⟨hnone, _, hs, hsame, hmeans⟩
  · intro kind hkind
    rw [told?_orElse, Option.or_eq_none_iff, hinner.none_iff_of_counted hbehind hkind,
      houter.none_iff_of_counted hbefore hkind, Sides.Lack, Sides.all, List.forall_mem_append]
    exact and_comm

end Given

section Accepted

variable {command : Command} {sides : Sides} {arguments : List String}

theorem isSome_told?_iff (settings : List Setting) :
    (∀ s ∈ settings, s.told?.isSome) ↔ ∀ s ∈ settings, ∃ told, s.Says told := by
  simp only [Option.isSome_iff_exists, Setting.told?_eq_some_iff]

theorem Accepted.exists_parse (haccepted : Accepted command sides arguments) :
    ∃ given, parse arguments = .ok (command, given) ∧ given.Follows sides := by
  have ⟨hread, hread'⟩ := List.forall_mem_append.mp haccepted.readable
  rw [← isSome_told?_iff] at hread hread'
  obtain ⟨before, hbefore, htells⟩ := Given.exists_tells_counted haccepted.once_before hread
  obtain ⟨behind, hbehind, htells'⟩ := Given.exists_tells_counted haccepted.once_behind hread'
  refine ⟨behind.orElse before, ?_, Given.follows_orElse htells' htells haccepted.readable⟩
  rw [haccepted.composed.parse_eq, hbefore, hbehind]
  rfl

/-- The command lines in order are those that are accepted. -/
theorem parse_eq_ok_iff (command : Command) (arguments : List String) :
    (∃ given, parse arguments = .ok (command, given)) ↔
      ∃ sides, Accepted command sides arguments := by
  constructor
  · rintro ⟨given, hparse⟩
    obtain ⟨other, sides, hcomposed⟩ := exists_composed hparse
    rw [hcomposed.parse_eq, Progress.orStop_eq_ok_iff, bind_eq_ok_iff] at hparse
    obtain ⟨before, hbefore, hrest⟩ := hparse
    obtain ⟨behind, hbehind, hresult⟩ := bind_eq_ok_iff.mp hrest
    obtain rfl := (Prod.mk.inj (Except.ok.inj hresult)).1
    obtain ⟨honce, hread⟩ := Given.once_of_foldlM hbefore
    obtain ⟨honce', hread'⟩ := Given.once_of_foldlM hbehind
    refine ⟨sides, hcomposed, honce, honce', ?_⟩
    rw [Sides.all, List.forall_mem_append, ← isSome_told?_iff, ← isSome_told?_iff]
    exact ⟨hread, hread'⟩
  · rintro ⟨sides, haccepted⟩
    obtain ⟨given, hparse, -⟩ := haccepted.exists_parse
    exact ⟨given, hparse⟩

end Accepted

end PseudoLru.CommandLine
