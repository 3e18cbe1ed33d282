import PseudoLru.CommandLine.Arguments

/-!
# Spellings of options

An option with a value is spelled by its name or by its letter, with the value
behind it in the same argument or in the next one.  Behind one dash several
letters may stand together, so settings are spelled in groups of one argument
or two.  A value is plain if it can stand in all of these places: it is not
empty, and neither a dash nor an equals sign opens it.

The reader of arguments finds an option by the same names and letters, at the
levels where it is taken.
-/

namespace PseudoLru.CommandLine

def ValueOption.name : ValueOption → String
  | .config => "config"
  | .ways => "ways"
  | .sets => "sets"
  | .offsetBits => "offset-bits"
  | .size => "size"

def ValueOption.letter? : ValueOption → Option Char
  | .config => some 'c'
  | .size => some 's'
  | _ => none

def Flag.name : Flag → String
  | .verbose => "verbose"
  | .invalidFirst => "invalid-first"
  | .dumpSets => "dump-sets"

def Flag.letter? : Flag → Option Char
  | .verbose => some 'v'
  | _ => none

/-- An option as it is given, with its value if it takes one. -/
inductive Setting where
  | value (option : ValueOption) (text : String)
  | flag (flag : Flag)
  deriving DecidableEq

def PlainValue (text : String) : Prop :=
  ∃ first rest, text.toList = first :: rest ∧ first ≠ '-' ∧ first ≠ '='

namespace Setting

def kind : Setting → OptionKind
  | .value option _ => .value option
  | .flag raised => .flag raised

inductive Spelled : Setting → List String → Prop
  | apart {option : ValueOption} {text : String} (hplain : PlainValue text) :
      Spelled (.value option text) ["--" ++ option.name, text]
  | joined {option : ValueOption} {text : String} (hplain : PlainValue text) :
      Spelled (.value option text) ["--" ++ option.name ++ "=" ++ text]
  | letterApart {option : ValueOption} {text : String} {letter : Char}
      (hletter : option.letter? = some letter) (hplain : PlainValue text) :
      Spelled (.value option text) ["-" ++ String.singleton letter, text]
  | letterJoined {option : ValueOption} {text : String} {letter : Char}
      (hletter : option.letter? = some letter) (hplain : PlainValue text) :
      Spelled (.value option text) ["-" ++ String.singleton letter ++ text]
  | raised {raised : Flag} : Spelled (.flag raised) ["--" ++ raised.name]
  | letterRaised {raised : Flag} {letter : Char} (hletter : raised.letter? = some letter) :
      Spelled (.flag raised) ["-" ++ String.singleton letter]

end Setting

/-- An argument is no option unless there is something behind its dash. -/
def StandsAlone (argument : String) : Prop :=
  ∀ letter rest, argument.toList ≠ '-' :: letter :: rest

instance (argument : String) : Decidable (StandsAlone argument) :=
  decidable_of_iff (argument.toList.length = 1 ∨ argument.toList.head? ≠ some '-') (by
    unfold StandsAlone
    match argument.toList with
    | [] => simp
    | [_] => simp
    | _ :: _ :: _ => simp)

theorem PlainValue.standsAlone {text : String} (hplain : PlainValue text) : StandsAlone text := by
  rcases hplain with ⟨first, rest, htext, hdash, -⟩
  intro letter rest' heq
  rw [htext] at heq
  exact hdash (List.cons.inj heq).1

/-- Settings that are spelled by the letters behind one dash and the arguments
after them.  Flags come first; an option takes all letters that are left as its
value, or else the next argument. -/
inductive Lettered : List Setting → List Char → List String → Prop
  | nil : Lettered [] [] []
  | flag {raised : Flag} {letter : Char} {settings : List Setting} {letters : List Char}
      {next : List String} (hletter : raised.letter? = some letter)
      (hrest : Lettered settings letters next) :
      Lettered (.flag raised :: settings) (letter :: letters) next
  | apart {option : ValueOption} {letter : Char} {text : String}
      (hletter : option.letter? = some letter) (halone : StandsAlone text) :
      Lettered [.value option text] [letter] [text]
  | joined {option : ValueOption} {letter first : Char} {rest : List Char}
      (hletter : option.letter? = some letter) (hfirst : first ≠ '=') :
      Lettered [.value option (String.ofList (first :: rest))] (letter :: first :: rest) []
  | equals {option : ValueOption} {letter : Char} {value : List Char}
      (hletter : option.letter? = some letter) :
      Lettered [.value option (String.ofList value)] (letter :: '=' :: value) []

theorem Lettered.letter_ne {settings : List Setting} {letter : Char} {letters : List Char}
    {next : List String} (hlettered : Lettered settings (letter :: letters) next) :
    letter ≠ '-' := by
  rintro rfl
  cases hlettered with
  | @flag raised _ _ _ _ hletter _ => cases raised <;> cases hletter
  | @apart option _ _ hletter _ => cases option <;> cases hletter
  | @joined option _ _ _ hletter _ => cases option <;> cases hletter
  | @equals option _ _ hletter => cases option <;> cases hletter

/-- Settings that are spelled as one group. -/
inductive SpelledTogether : List Setting → List String → Prop
  | apart {option : ValueOption} {text : String} (halone : StandsAlone text) :
      SpelledTogether [.value option text] ["--" ++ option.name, text]
  | joined {option : ValueOption} {text : String} :
      SpelledTogether [.value option text] ["--" ++ option.name ++ "=" ++ text]
  | raised {raised : Flag} : SpelledTogether [.flag raised] ["--" ++ raised.name]
  | lettered {settings : List Setting} {letter : Char} {letters : List Char} {next : List String}
      (hlettered : Lettered settings (letter :: letters) next) :
      SpelledTogether settings (String.ofList ('-' :: letter :: letters) :: next)

theorem Setting.Spelled.together {s : Setting} {arguments : List String}
    (hspelled : s.Spelled arguments) : SpelledTogether [s] arguments := by
  have hargument : ∀ (letter : Char) (text : String),
      "-" ++ String.singleton letter ++ text = String.ofList ('-' :: letter :: text.toList) := by
    intro letter text
    rw [← String.toList_inj]
    simp
  cases hspelled with
  | apart hplain => exact .apart hplain.standsAlone
  | joined => exact .joined
  | raised => exact .raised
  | @letterApart option text letter hletter hplain =>
      have hdash := hargument letter ""
      rw [String.append_empty] at hdash
      rw [hdash]
      exact .lettered (.apart hletter hplain.standsAlone)
  | @letterJoined option text letter hletter hplain =>
      rcases hplain with ⟨first, rest, htext, -, hequals⟩
      have hvalue : text = String.ofList (first :: rest) := by
        rw [← htext, String.ofList_toList]
      rw [hargument, htext, hvalue]
      exact .lettered (.joined hletter hequals)
  | @letterRaised raised letter hletter =>
      have hdash := hargument letter ""
      rw [String.append_empty] at hdash
      rw [hdash]
      exact .lettered (.flag hletter .nil)

/-- Arguments that spell settings one after the other. -/
inductive SpelledInTurn : List Setting → List String → Prop
  | nil : SpelledInTurn [] []
  | cons {s : Setting} {settings : List Setting} {first rest : List String}
      (hfirst : s.Spelled first) (hrest : SpelledInTurn settings rest) :
      SpelledInTurn (s :: settings) (first ++ rest)

def Given.apply (g : Given) : Setting → Except UsageError Given
  | .value option text => g.put option text
  | .flag flag => g.raise flag

/-- The size belongs to one subcommand, all other settings are global. -/
def Level.Takes (level : Level) (s : Setting) : Prop :=
  s.kind = .value .size → level = .matMul

instance (level : Level) (s : Setting) : Decidable (level.Takes s) :=
  inferInstanceAs (Decidable (s.kind = .value .size → level = .matMul))

/-- Settings that are taken at a level, spelled group by group. -/
inductive SpelledAt (level : Level) : List Setting → List String → Prop
  | nil : SpelledAt level [] []
  | cons {settings later : List Setting} {first rest : List String}
      (hfirst : SpelledTogether settings first) (htakes : ∀ s ∈ settings, level.Takes s)
      (hrest : SpelledAt level later rest) :
      SpelledAt level (settings ++ later) (first ++ rest)

theorem SpelledInTurn.spelledAt {level : Level} {settings : List Setting}
    {arguments : List String} (hspelled : SpelledInTurn settings arguments)
    (htakes : ∀ s ∈ settings, level.Takes s) : SpelledAt level settings arguments := by
  induction hspelled with
  | nil => exact .nil
  | cons hfirst _ ih =>
      have ⟨hs, hlater⟩ := List.forall_mem_cons.mp htakes
      exact .cons hfirst.together (List.forall_mem_singleton.mpr hs) (ih hlater)

theorem SpelledAt.takes {level : Level} {settings : List Setting} {arguments : List String}
    (hspelled : SpelledAt level settings arguments) : ∀ s ∈ settings, level.Takes s := by
  induction hspelled with
  | nil => exact fun s hs => absurd hs List.not_mem_nil
  | cons _ htakes _ ih => exact List.forall_mem_append.mpr ⟨htakes, ih⟩

namespace Level

theorem ofName?_of_dash {argument : String} {rest : List Char}
    (hdash : argument.toList = '-' :: rest) : ofName? argument = none := by
  unfold ofName?
  split
  case h_4 => rfl
  all_goals simp at hdash

variable {level : Level}

theorem longOption?_name {option : ValueOption} {text : String}
    (htakes : level.Takes (.value option text)) :
    level.longOption? option.name.toList = some (.value option) := by
  cases option <;> simp [longOption?, ValueOption.name]
  exact htakes rfl

theorem longOption?_flag (flag : Flag) :
    level.longOption? flag.name.toList = some (.flag flag) := by
  cases flag <;> simp [longOption?, Flag.name]

theorem shortOption?_letter {option : ValueOption} {text : String} {letter : Char}
    (hletter : option.letter? = some letter) (htakes : level.Takes (.value option text)) :
    level.shortOption? letter = some (.value option) := by
  cases option <;> cases hletter
  · rfl
  · simp [shortOption?]
    exact htakes rfl

theorem shortOption?_flag {flag : Flag} {letter : Char} (hletter : flag.letter? = some letter) :
    level.shortOption? letter = some (.flag flag) := by
  cases flag <;> cases hletter
  rfl

theorem eq_name_of_longOption? {name : List Char} {option : ValueOption}
    (hlong : level.longOption? name = some (.value option)) :
    name = option.name.toList ∧ ∀ text, level.Takes (.value option text) := by
  rw [← String.toList_ofList (l := name)]
  unfold longOption? at hlong
  cases option <;> split at hlong <;> simp_all [ValueOption.name, Takes, Setting.kind]

theorem eq_name_of_longOption?_flag {name : List Char} {raised : Flag}
    (hlong : level.longOption? name = some (.flag raised)) : name = raised.name.toList := by
  rw [← String.toList_ofList (l := name)]
  unfold longOption? at hlong
  cases raised <;> split at hlong <;> simp_all [Flag.name]

theorem letter?_of_shortOption? {letter : Char} {option : ValueOption}
    (hshort : level.shortOption? letter = some (.value option)) :
    option.letter? = some letter ∧ ∀ text, level.Takes (.value option text) := by
  unfold shortOption? at hshort
  cases option <;> split at hshort <;> simp_all [ValueOption.letter?, Takes, Setting.kind]

theorem letter?_of_shortOption?_flag {letter : Char} {raised : Flag}
    (hshort : level.shortOption? letter = some (.flag raised)) :
    raised.letter? = some letter := by
  unfold shortOption? at hshort
  cases raised <;> split at hshort <;> simp_all [Flag.letter?]

theorem takes_flag (raised : Flag) : level.Takes (.flag raised) := by
  intro hsize
  cases hsize

end Level

end PseudoLru.CommandLine
