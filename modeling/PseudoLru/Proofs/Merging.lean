import PseudoLru.Proofs.CommandGrammar
import PseudoLru.Proofs.TraceLines

/-!
# Merging options into the configuration

The configuration is what the named file says as a text, or the default one.
The options of the command line replace parts of it: a number is replaced if an
option gives another one, and the policy only ever becomes the one that its flag
asks for.  A trace is what its file says.  The program reads the options through
what it was given, and comes to the same.
-/

namespace PseudoLru.CommandLine

/-! ## What the files say -/

/-- What the configuration file says, if one is named. -/
inductive Configured (read : FileReader) (sides : Sides) : Except ConfigError Config → Prop
  | standard (hlack : sides.Lack (.value .config)) : Configured read sides (.ok {})
  | unread {path : String} {fault : FileFault} (hpath : sides.Say (.value .config) (.text path))
      (hread : read path = .error fault) :
      Configured read sides (.error (.unreadable path fault))
  | undecodable {path : String} {bytes : Bytes}
      (hpath : sides.Say (.value .config) (.text path)) (hread : read path = .ok bytes)
      (hbytes : ∀ text, utf8 text ≠ bytes) :
      Configured read sides (.error (.unreadable path .invalidUtf8))
  | decoded {path text : String} (hpath : sides.Say (.value .config) (.text path))
      (hread : read path = .ok (utf8 text)) : Configured read sides (Config.ofJson text)

/-- What the file of a trace says. -/
inductive Traced (read : FileReader) (path : String) : Except TraceError (List UInt64) → Prop
  | unread {fault : FileFault} (hread : read path = .error fault) :
      Traced read path (.error (.unreadable fault))
  | parsed {bytes : Bytes} (hread : read path = .ok bytes) : Traced read path (Trace.parse bytes)

/-- The configuration that is found with the options. -/
def Given.fileConfig (read : FileReader) (given : Given) : Except ConfigError Config :=
  match given.config? with
  | none => .ok {}
  | some path => Config.load read path

section Files

variable {read : FileReader} {path : String}

theorem load_of_unread {fault : FileFault} (hread : read path = .error fault) :
    Config.load read path = .error (.unreadable path fault) := by
  rw [Config.load, hread]
  rfl

theorem load_of_read {bytes : Bytes} (hread : read path = .ok bytes) :
    Config.load read path =
      ((decodeUtf8 bytes).mapError (.unreadable path) >>= Config.ofJson) := by
  rw [Config.load, hread]
  rfl

theorem traced_iff (result : Except TraceError (List UInt64)) :
    Traced read path result ↔ Trace.load read path = result := by
  constructor
  · intro htraced
    cases htraced with
    | unread hread =>
        rw [Trace.load, hread]
        rfl
    | parsed hread =>
        rw [Trace.load, hread]
        rfl
  · intro hload
    subst hload
    cases hread : read path with
    | error fault =>
        rw [Trace.load, hread]
        exact .unread hread
    | ok bytes =>
        rw [Trace.load, hread]
        exact .parsed hread

theorem Given.Follows.config?_eq_some_iff {given : Given} {sides : Sides}
    (hfollows : given.Follows sides) :
    given.config? = some path ↔ sides.Say (.value .config) (.text path) := by
  rw [← hfollows.told?_eq_some_iff _ (by simp), told?, Option.map_eq_some_iff]
  simp

theorem Given.Follows.configured_iff {given : Given} {sides : Sides}
    (hfollows : given.Follows sides) (result : Except ConfigError Config) :
    Configured read sides result ↔ given.fileConfig read = result := by
  have hnone := hfollows.told?_eq_none_iff (.value .config) (by simp)
  rw [told?, Option.map_eq_none_iff] at hnone
  constructor
  · intro hconfigured
    cases hconfigured with
    | standard hlack => rw [fileConfig, hnone.mpr hlack]
    | unread hpath hread =>
        rw [fileConfig, hfollows.config?_eq_some_iff.mpr hpath]
        exact load_of_unread hread
    | undecodable hpath hread hbytes =>
        rw [fileConfig, hfollows.config?_eq_some_iff.mpr hpath]
        dsimp only
        rw [load_of_read hread, (decodeUtf8_eq_error_iff _ _).mpr ⟨rfl, hbytes⟩]
        rfl
    | decoded hpath hread =>
        rw [fileConfig, hfollows.config?_eq_some_iff.mpr hpath]
        dsimp only
        rw [load_of_read hread, (decodeUtf8_eq_ok_iff _ _).mpr rfl]
        rfl
  · intro hfile
    subst hfile
    cases hconfig : given.config? with
    | none =>
        rw [fileConfig, hconfig]
        exact .standard (hnone.mp hconfig)
    | some path =>
        have hpath := hfollows.config?_eq_some_iff.mp hconfig
        rw [fileConfig, hconfig]
        dsimp only
        cases hread : read path with
        | error fault =>
            rw [load_of_unread hread]
            exact .unread hpath hread
        | ok bytes =>
            rw [load_of_read hread]
            cases hdecoded : decodeUtf8 bytes with
            | error fault =>
                obtain ⟨rfl, hbytes⟩ := (decodeUtf8_eq_error_iff _ _).mp hdecoded
                exact .undecodable hpath hread hbytes
            | ok text =>
                obtain rfl := (decodeUtf8_eq_ok_iff _ _).mp hdecoded
                exact .decoded hpath hread

end Files

/-! ## What the options replace -/

/-- An option replaces a number if it is given. -/
inductive Replaces (sides : Sides) (option : ValueOption) (old : Nat) : (new : Nat) → Prop
  | given {new : Nat} (hsay : sides.Say (.value option) (.number new)) :
      Replaces sides option old new
  | kept (hlack : sides.Lack (.value option)) : Replaces sides option old old

/-- Only the matrix multiplication takes a size. -/
def Command.Resizes (command : Command) (sides : Sides) (old new : MatMul) : Prop :=
  match command with
  | .matMul => ∃ size, Replaces sides .size old.size size ∧ new = { old with size }
  | .trace _ => new = old

/-- The options of a command line are put in place of what the file says. -/
structure Merges (command : Command) (sides : Sides) (file config : Config) : Prop where
  ways : Replaces sides .ways file.cache.ways config.cache.ways
  sets : Replaces sides .sets file.cache.sets config.cache.sets
  offsetBits : Replaces sides .offsetBits file.cache.offsetBits config.cache.offsetBits
  policy : config.cache.policy = .invalidFirst ↔
    sides.Raise .invalidFirst ∨ file.cache.policy = .invalidFirst
  workload : command.Resizes sides file.workload config.workload

section Merging

variable {command : Command} {given : Given} {sides : Sides}

theorem Given.Follows.replaces_iff (hfollows : given.Follows sides) {option : ValueOption}
    {value? : Option Nat} (hvalue : given.told? (.value option) = value?.map .number)
    (old new : Nat) : Replaces sides option old new ↔ value?.getD old = new := by
  have hsome := hfollows.told?_eq_some_iff (.value option) (by simp)
  have hnone := hfollows.told?_eq_none_iff (.value option) (by simp)
  constructor
  · intro hreplaces
    cases hreplaces with
    | given hsay =>
        rw [← hsome, hvalue, Option.map_eq_some_iff] at hsay
        obtain ⟨value, rfl, hnew⟩ := hsay
        exact Told.number.inj hnew
    | kept hlack =>
        rw [← hnone, hvalue, Option.map_eq_none_iff] at hlack
        rw [hlack]
        rfl
  · intro hnew
    subst hnew
    cases value? with
    | none => exact .kept (hnone.mp hvalue)
    | some value => exact .given ((hsome (.number value)).mp hvalue)

theorem Given.Follows.raise_iff (hfollows : given.Follows sides) {raised : Flag} {on : Bool}
    (hflag : raised ≠ .verbose)
    (hon : given.told? (.flag raised) = if on then some .raised else none) :
    sides.Raise raised ↔ on = true := by
  have hnone := hfollows.told?_eq_none_iff (.flag raised) (by simpa using hflag)
  have hlack : sides.Lack (.flag raised) ↔ ¬ sides.Raise raised := by
    rw [Sides.Lack, Sides.Raise]
    constructor
    · intro hnone hraised
      exact hnone _ hraised rfl
    · intro hraised s hs hkind
      cases s with
      | value => cases hkind
      | flag other =>
          cases hkind
          exact hraised hs
  rw [hon, hlack] at hnone
  cases on <;> simp_all

/-- The options that are found say what the command line says. -/
theorem Given.Follows.merges_iff {arguments : List String} (hfollows : given.Follows sides)
    (hcomposed : Composed command sides arguments) (file config : Config) :
    Merges command sides file config ↔ given.adjust file = config := by
  have hways : given.told? (.value .ways) = given.ways?.map .number := rfl
  have hsets : given.told? (.value .sets) = given.sets?.map .number := rfl
  have hoffset : given.told? (.value .offsetBits) = given.offsetBits?.map .number := rfl
  have hsize : given.told? (.value .size) = given.size?.map .number := rfl
  have hflag : sides.Raise .invalidFirst ↔ given.invalidFirst = true :=
    hfollows.raise_iff (by simp) rfl
  have hpolicy : (given.adjust file).cache.policy = .invalidFirst ↔
      sides.Raise .invalidFirst ∨ file.cache.policy = .invalidFirst := by
    rw [hflag, adjust, adjustGeometry]
    split <;> simp_all
  have hworkload : ∀ workload, command.Resizes sides file.workload workload ↔
      (given.adjust file).workload = workload := by
    intro workload
    cases command with
    | matMul =>
        simp only [Command.Resizes, hfollows.replaces_iff hsize, exists_eq_left', adjust]
        exact eq_comm
    | trace path =>
        -- No size is given with a trace, so the one of the file stays.
        have hnone := (hfollows.told?_eq_none_iff (.value .size) (by simp)).mpr
          hcomposed.lack_size
        rw [hsize, Option.map_eq_none_iff] at hnone
        simp only [Command.Resizes, adjust, hnone, Option.getD_none]
        exact eq_comm
  constructor
  · intro hmerges
    have hsame : (given.adjust file).cache.policy = config.cache.policy := by
      have hiff := hpolicy.trans hmerges.policy.symm
      cases hleft : (given.adjust file).cache.policy <;>
        cases hright : config.cache.policy <;> simp_all
    have hcache : (given.adjust file).cache = config.cache := by
      rw [Geometry.mk.injEq]
      exact ⟨(hfollows.replaces_iff hways _ _).mp hmerges.ways,
        (hfollows.replaces_iff hsets _ _).mp hmerges.sets,
        (hfollows.replaces_iff hoffset _ _).mp hmerges.offsetBits, hsame⟩
    rw [Config.mk.injEq]
    exact ⟨hcache, (hworkload _).mp hmerges.workload⟩
  · intro hconfig
    subst hconfig
    exact {
      ways := (hfollows.replaces_iff hways _ _).mpr rfl
      sets := (hfollows.replaces_iff hsets _ _).mpr rfl
      offsetBits := (hfollows.replaces_iff hoffset _ _).mpr rfl
      policy := hpolicy
      workload := (hworkload _).mpr rfl }

end Merging

end PseudoLru.CommandLine
