import Mathlib.Data.List.TakeWhile
import PseudoLru.Proofs.OptionSpelling
import PseudoLru.Proofs.Results

/-!
# Reading groups of options

Between two groups the reader has nothing pending.  From such a place the
arguments that spell a group lead to the next one, with its settings applied
to what was given before, whatever the spelling is.  And whatever the reader
accepts is such groups, up to an argument that does not look like an option.
-/

namespace PseudoLru.CommandLine

namespace Progress

/-- The reader stands between two groups. -/
structure Ready (p : Progress) : Prop where
  pending?_eq : p.pending? = none
  optionsEnded_eq : p.optionsEnded = false
  level_ne : ∀ named, p.level ≠ .help named

/-- The progress after a setting. -/
def take (p : Progress) (s : Setting) : Except Stop Progress :=
  (orStop (p.given.apply s)).map fun given => { p with given }

/-- The progress after settings. -/
def takeAll (p : Progress) (settings : List Setting) : Except Stop Progress :=
  (orStop (settings.foldlM Given.apply p.given)).map fun given => { p with given }

variable {p last : Progress} {argument : String}

theorem takeAll_cons (p : Progress) (s : Setting) (settings : List Setting) :
    p.takeAll (s :: settings) = p.take s >>= fun next => next.takeAll settings := by
  rw [takeAll, take, List.foldlM_cons]
  cases p.given.apply s <;> rfl

theorem takeAll_singleton (p : Progress) (s : Setting) : p.takeAll [s] = p.take s := by
  rw [takeAll_cons]
  exact bind_pure _

theorem Ready.withGiven (hready : p.Ready) (given : Given) : { p with given }.Ready :=
  ⟨hready.pending?_eq, hready.optionsEnded_eq, hready.level_ne⟩

theorem exists_of_feeds_cons {rest : List String}
    (hfeeds : (argument :: rest).foldlM feed p = .ok last) :
    ∃ next, p.feed argument = .ok next ∧ rest.foldlM feed next = .ok last := by
  rwa [List.foldlM_cons, bind_eq_ok_iff] at hfeeds

/-! ## How an argument begins -/

theorem feed_eq_feedBody (hoptions : p.optionsEnded = false)
    (hlevel : ∀ named, p.level ≠ .help named)
    (hname : p.level = .root → p.pending? = none → Level.ofName? argument = none) :
    p.feed argument = p.feedBody argument := by
  unfold feed
  split
  case h_1 named heq => exact absurd heq (hlevel named)
  case h_2 heq =>
    simp only [hoptions, Bool.false_eq_true, if_false]
    split
    case h_1 level hpending hfound =>
      rw [hname heq hpending] at hfound
      contradiction
    case h_2 => rfl
  all_goals simp only [hoptions, Bool.false_eq_true, if_false]

theorem Ready.feed_dash (hready : p.Ready) {rest : List Char}
    (hdash : argument.toList = '-' :: rest) : p.feed argument = p.feedBody argument :=
  feed_eq_feedBody hready.optionsEnded_eq hready.level_ne fun _ _ => Level.ofName?_of_dash hdash

theorem feedBody_long (hpending : p.pending? = none) {body : List Char}
    (hbody : argument.toList = '-' :: '-' :: body) (hne : body ≠ []) :
    p.feedBody argument = p.feedLong body := by
  rw [feedBody, hbody, hpending]
  cases body with
  | nil => contradiction
  | cons => rfl

theorem feedBody_short (hpending : p.pending? = none) {letter : Char} {rest : List Char}
    (hbody : argument.toList = '-' :: letter :: rest) (hletter : letter ≠ '-') :
    p.feedBody argument = p.feedShort (letter :: rest) := by
  rw [feedBody, hbody, hpending]
  split <;> simp_all

theorem feedBody_value {option : ValueOption} (hpending : p.pending? = some option)
    (halone : StandsAlone argument) : p.feedBody argument = p.put option argument.toList := by
  have hoption := halone
  unfold StandsAlone at hoption
  unfold feedBody
  split <;> simp_all

theorem feedBody_plain (hpending : p.pending? = none) (halone : StandsAlone argument) :
    p.feedBody argument = p.feedPlain argument := by
  have hoption := halone
  unfold StandsAlone at hoption
  unfold feedBody
  split <;> simp_all

/-! ## Names and letters -/

theorem put_toList (p : Progress) (option : ValueOption) (text : String) :
    p.put option text.toList =
      (orStop (p.given.put option text)).map fun given => { p with given, pending? := none } := by
  rw [put, String.ofList_toList]
  cases p.given.put option text <;> rfl

theorem put_eq_take (hready : p.Ready) (option : ValueOption) (text : String) :
    p.put option text.toList = p.take (.value option text) := by
  rw [put_toList, take, ← hready.pending?_eq]
  rfl

theorem put_pending_eq_take (hready : p.Ready) (option : ValueOption) (text : String) :
    { p with pending? := some option }.put option text.toList = p.take (.value option text) := by
  rw [put_toList, take, ← hready.pending?_eq]
  rfl

theorem put_ofList_eq_take (hready : p.Ready) (option : ValueOption) (value : List Char) :
    p.put option value = p.take (.value option (String.ofList value)) := by
  rw [← put_eq_take hready, String.toList_ofList]

theorem raise_eq_take (p : Progress) (raised : Flag) : p.raise raised = p.take (.flag raised) := by
  rw [raise, take, Given.apply]
  cases p.given.raise raised <;> rfl

theorem eq_notMem_name (option : ValueOption) : '=' ∉ option.name.toList := by
  cases option <;> decide

theorem eq_notMem_flag (raised : Flag) : '=' ∉ raised.name.toList := by
  cases raised <;> decide

theorem forall_ne_of_notMem {name : List Char} (hname : '=' ∉ name) :
    ∀ c ∈ name, decide (c ≠ '=') = true := by
  intro c hc
  exact decide_eq_true (ne_of_mem_of_not_mem hc hname)

section Names

variable {option : ValueOption} {raised : Flag} {text : String}

theorem feedLong_name (htakes : p.level.Takes (.value option text)) :
    p.feedLong option.name.toList = .ok { p with pending? := some option } := by
  have hname := Level.longOption?_name htakes
  have hwhole := forall_ne_of_notMem (eq_notMem_name option)
  unfold feedLong
  simp only [List.takeWhile_eq_self_iff.mpr hwhole, List.dropWhile_eq_nil_iff.mpr hwhole, hname]

theorem feedLong_name_value (htakes : p.level.Takes (.value option text)) (value : List Char) :
    p.feedLong (option.name.toList ++ '=' :: value) = p.put option value := by
  have hname := Level.longOption?_name htakes
  have hwhole := forall_ne_of_notMem (eq_notMem_name option)
  unfold feedLong
  simp only [List.takeWhile_append_of_pos hwhole, List.dropWhile_append_of_pos hwhole]
  simp [hname]

theorem feedLong_flag (raised : Flag) : p.feedLong raised.name.toList = p.raise raised := by
  have hname : p.level.longOption? raised.name.toList = some (.flag raised) :=
    Level.longOption?_flag raised
  have hwhole := forall_ne_of_notMem (eq_notMem_flag raised)
  unfold feedLong
  simp only [List.takeWhile_eq_self_iff.mpr hwhole, List.dropWhile_eq_nil_iff.mpr hwhole, hname]

theorem feedShort_letter {letter : Char} (hletter : option.letter? = some letter)
    (htakes : p.level.Takes (.value option text)) :
    p.feedShort [letter] = .ok { p with pending? := some option } := by
  have hshort := Level.shortOption?_letter hletter htakes
  simp only [feedShort, hshort]

theorem feedShort_letter_value {letter first : Char} {rest : List Char}
    (hletter : option.letter? = some letter) (htakes : p.level.Takes (.value option text))
    (hfirst : first ≠ '=') :
    p.feedShort (letter :: first :: rest) = p.put option (first :: rest) := by
  have hshort := Level.shortOption?_letter hletter htakes
  simp only [feedShort, hshort]
  split
  next heq => simp at heq
  next heq => exact absurd (List.cons.inj heq).1 hfirst
  next => rfl

theorem feedShort_letter_equals {letter : Char} {value : List Char}
    (hletter : option.letter? = some letter) (htakes : p.level.Takes (.value option text)) :
    p.feedShort (letter :: '=' :: value) = p.put option value := by
  have hshort := Level.shortOption?_letter hletter htakes
  simp only [feedShort, hshort]

theorem feedShort_flag {letter : Char} (hletter : raised.letter? = some letter)
    (letters : List Char) :
    p.feedShort (letter :: letters) =
      p.take (.flag raised) >>= fun next => next.feedShort letters := by
  have hshort : p.level.shortOption? letter = some (.flag raised) :=
    Level.shortOption?_flag hletter
  simp only [feedShort, hshort, raise_eq_take]

end Names

/-! ## From one group to the next -/

section Feeding

variable {option : ValueOption} {text : String} {settings : List Setting}
  {arguments : List String}

/-- A pending value is read whatever it spells. -/
theorem Ready.feed_value (hready : p.Ready) (halone : StandsAlone text) :
    { p with pending? := some option }.feed text = p.take (.value option text) := by
  rw [feed_eq_feedBody (p := { p with pending? := some option }) hready.optionsEnded_eq
    hready.level_ne (fun _ hpending => by cases hpending), feedBody_value rfl halone,
    put_pending_eq_take hready]

theorem Ready.feeds_value (hready : p.Ready) (halone : StandsAlone text) :
    [text].foldlM feed { p with pending? := some option } = p.takeAll [.value option text] := by
  rw [List.foldlM_cons, hready.feed_value halone, takeAll_singleton]
  exact bind_pure _

theorem Ready.feedShort_lettered (hready : p.Ready) {letters : List Char} {next : List String}
    (hlettered : Lettered settings letters next) (htakes : ∀ s ∈ settings, p.level.Takes s) :
    (p.feedShort letters >>= fun middle => next.foldlM feed middle) = p.takeAll settings := by
  induction hlettered generalizing p with
  | nil => rfl
  | @flag raised letter settings letters next hletter _ ih =>
      rw [feedShort_flag hletter, takeAll_cons, bind_assoc, take]
      cases p.given.apply (.flag raised) with
      | error error => rfl
      | ok given =>
          exact ih (hready.withGiven given) fun s hs => htakes s (List.mem_cons_of_mem _ hs)
  | apart hletter halone =>
      rw [feedShort_letter hletter (htakes _ (List.mem_singleton_self _))]
      exact hready.feeds_value halone
  | joined hletter hfirst =>
      rw [feedShort_letter_value hletter (htakes _ (List.mem_singleton_self _)) hfirst,
        put_ofList_eq_take hready, takeAll_singleton]
      exact bind_pure _
  | equals hletter =>
      rw [feedShort_letter_equals hletter (htakes _ (List.mem_singleton_self _)),
        put_ofList_eq_take hready, takeAll_singleton]
      exact bind_pure _

/-- Whatever the spelling is, a group is taken as a whole. -/
theorem Ready.feeds_together (hready : p.Ready) (hspelled : SpelledTogether settings arguments)
    (htakes : ∀ s ∈ settings, p.level.Takes s) :
    arguments.foldlM feed p = p.takeAll settings := by
  cases hspelled with
  | @apart option text halone =>
      have hdash : ("--" ++ option.name).toList = '-' :: '-' :: option.name.toList := by simp
      have hne : option.name.toList ≠ [] := by cases option <;> decide
      rw [List.foldlM_cons, hready.feed_dash hdash, feedBody_long hready.pending?_eq hdash hne,
        feedLong_name (htakes _ (List.mem_singleton_self _))]
      exact hready.feeds_value halone
  | @joined option text =>
      have hdash : ("--" ++ option.name ++ "=" ++ text).toList =
          '-' :: '-' :: (option.name.toList ++ '=' :: text.toList) := by simp
      rw [List.foldlM_cons, hready.feed_dash hdash,
        feedBody_long hready.pending?_eq hdash (by simp),
        feedLong_name_value (htakes _ (List.mem_singleton_self _)), put_eq_take hready,
        takeAll_singleton]
      exact bind_pure _
  | @raised raised =>
      have hdash : ("--" ++ raised.name).toList = '-' :: '-' :: raised.name.toList := by simp
      have hne : raised.name.toList ≠ [] := by cases raised <;> decide
      rw [List.foldlM_cons, hready.feed_dash hdash, feedBody_long hready.pending?_eq hdash hne,
        feedLong_flag, raise_eq_take, takeAll_singleton]
      exact bind_pure _
  | @lettered settings letter letters next hlettered =>
      have hdash : (String.ofList ('-' :: letter :: letters)).toList = '-' :: letter :: letters :=
        String.toList_ofList
      rw [List.foldlM_cons, hready.feed_dash hdash,
        feedBody_short hready.pending?_eq hdash hlettered.letter_ne]
      exact hready.feedShort_lettered hlettered htakes

/-- Arguments that spell settings are read as these settings, and what stands
behind them is read next. -/
theorem Ready.feeds_append (hready : p.Ready) (hspelled : SpelledAt p.level settings arguments)
    (behind : List String) :
    (arguments ++ behind).foldlM feed p =
      orStop (settings.foldlM Given.apply p.given) >>= fun given =>
        behind.foldlM feed { p with given } := by
  generalize hlevel : p.level = level at hspelled
  induction hspelled generalizing p with
  | nil =>
      subst hlevel
      rfl
  | @cons settings later first rest hfirst htakes _ ih =>
      subst hlevel
      rw [List.append_assoc, List.foldlM_append, hready.feeds_together hfirst htakes, takeAll,
        List.foldlM_append]
      cases settings.foldlM Given.apply p.given with
      | error error => rfl
      | ok given => exact ih (hready.withGiven given) rfl

end Feeding

/-! ## What was read -/

section Accepted

variable {settings : List Setting} {arguments rest : List String}

theorem exists_value_of_feeds {option : ValueOption} (hready : p.Ready)
    (hfeeds : arguments.foldlM feed { p with pending? := some option } = .ok last)
    (hlast : last.pending? = none) :
    ∃ text behind, arguments = text :: behind ∧ StandsAlone text := by
  cases arguments with
  | nil =>
      obtain rfl := Except.ok.inj hfeeds
      contradiction
  | cons argument rest =>
      refine ⟨argument, rest, rfl, ?_⟩
      intro letter letters hoption
      obtain ⟨next, hfirst, -⟩ := exists_of_feeds_cons hfeeds
      rw [feed_eq_feedBody (p := { p with pending? := some option }) hready.optionsEnded_eq
        hready.level_ne (fun _ hpending => by cases hpending), feedBody, hoption] at hfirst
      contradiction

theorem exists_lettered (hready : p.Ready) {letters : List Char} {middle : Progress}
    (hletters : p.feedShort letters = .ok middle) (hfeeds : rest.foldlM feed middle = .ok last)
    (hlast : last.pending? = none) :
    ∃ settings next behind, rest = next ++ behind ∧ Lettered settings letters next ∧
      ∀ s ∈ settings, p.level.Takes s := by
  induction letters generalizing p with
  | nil => exact ⟨[], [], rest, rfl, .nil, by simp⟩
  | cons letter letters ih =>
      rw [feedShort] at hletters
      split at hletters
      case h_2 option hshort =>
        obtain ⟨hletter, htakes⟩ := Level.letter?_of_shortOption? hshort
        split at hletters
        · obtain rfl := Except.ok.inj hletters
          obtain ⟨text, behind, rfl, halone⟩ := exists_value_of_feeds hready hfeeds hlast
          exact ⟨_, [text], behind, rfl, .apart hletter halone, by simp [htakes]⟩
        · exact ⟨_, [], rest, rfl, .equals hletter, by simp [htakes]⟩
        next hne hequals =>
          cases letters with
          | nil => contradiction
          | cons first value =>
              have hfirst : first ≠ '=' := by
                rintro rfl
                exact hequals _ rfl
              exact ⟨_, [], rest, rfl, .joined hletter hfirst, by simp [htakes]⟩
      case h_3 raised hshort =>
        have hletter := Level.letter?_of_shortOption?_flag hshort
        rw [raise_eq_take, bind_eq_ok_iff] at hletters
        obtain ⟨taken, htake, hletters⟩ := hletters
        obtain ⟨given, -, rfl⟩ := map_eq_ok_iff.mp htake
        obtain ⟨settings, next, behind, hrest, hlettered, htakes⟩ :=
          ih (hready.withGiven given) hletters
        exact ⟨.flag raised :: settings, next, behind, hrest, .flag hletter hlettered,
          List.forall_mem_cons.mpr ⟨Level.takes_flag raised, htakes⟩⟩
      all_goals contradiction

theorem exists_long (hready : p.Ready) {body : List Char} {middle : Progress}
    (hlong : p.feedLong body = .ok middle) (hfeeds : rest.foldlM feed middle = .ok last)
    (hlast : last.pending? = none) (hargument : argument.toList = '-' :: '-' :: body) :
    ∃ settings next behind, rest = next ++ behind ∧
      SpelledTogether settings (argument :: next) ∧ ∀ s ∈ settings, p.level.Takes s := by
  have hspelled : ∀ text : String, text.toList = argument.toList → argument = text :=
    fun text htext => String.toList_inj.mp htext.symm
  have hbody : body.takeWhile (· ≠ '=') ++ body.dropWhile (· ≠ '=') = body :=
    List.takeWhile_append_dropWhile
  have hequals := List.head?_dropWhile_not (· ≠ '=') body
  unfold feedLong at hlong
  dsimp only at hlong
  generalize body.takeWhile (· ≠ '=') = name at hlong hbody
  generalize body.dropWhile (· ≠ '=') = tail at hlong hbody hequals
  cases tail with
  | nil =>
      rw [List.append_nil] at hbody
      subst hbody
      dsimp only at hlong
      split at hlong
      case h_3 option hname _ =>
        obtain ⟨rfl, htakes⟩ := Level.eq_name_of_longOption? hname
        obtain rfl := Except.ok.inj hlong
        obtain ⟨text, behind, rfl, halone⟩ := exists_value_of_feeds hready hfeeds hlast
        rw [hspelled ("--" ++ option.name) (by simp [hargument])]
        exact ⟨_, [text], behind, rfl, .apart halone, by simp [htakes]⟩
      case h_5 raised hname _ =>
        obtain rfl := Level.eq_name_of_longOption?_flag hname
        rw [hspelled ("--" ++ raised.name) (by simp [hargument])]
        exact ⟨_, [], rest, rfl, .raised, by simp [Level.takes_flag]⟩
      all_goals contradiction
  | cons c value =>
      have hc : c = '=' := by simpa using hequals
      subst hc
      subst hbody
      dsimp only at hlong
      split at hlong
      case h_2 option _ hname _ =>
        obtain ⟨rfl, htakes⟩ := Level.eq_name_of_longOption? hname
        rw [hspelled ("--" ++ option.name ++ "=" ++ String.ofList value) (by simp [hargument])]
        exact ⟨_, [], rest, rfl, .joined, by simp [htakes]⟩
      all_goals contradiction

/-- An accepted argument that looks like an option begins a group. -/
theorem exists_together (hready : p.Ready)
    (hfeeds : (argument :: rest).foldlM feed p = .ok last) (hlast : last.pending? = none)
    (hdashes : argument ≠ "--") (hoption : ¬ StandsAlone argument) :
    ∃ settings next behind, rest = next ++ behind ∧
      SpelledTogether settings (argument :: next) ∧ ∀ s ∈ settings, p.level.Takes s := by
  simp only [StandsAlone, not_forall, not_not] at hoption
  obtain ⟨letter, letters, hargument⟩ := hoption
  obtain ⟨middle, hfirst, hrest⟩ := exists_of_feeds_cons hfeeds
  rw [hready.feed_dash hargument] at hfirst
  by_cases hlong : letter = '-'
  · subst hlong
    have hbody : letters ≠ [] := by
      rintro rfl
      exact hdashes (String.toList_inj.mp hargument)
    rw [feedBody_long hready.pending?_eq hargument hbody] at hfirst
    exact exists_long hready hfirst hrest hlast hargument
  · rw [feedBody_short hready.pending?_eq hargument hlong] at hfirst
    obtain ⟨settings, next, behind, hnext, hlettered, htakes⟩ :=
      exists_lettered hready hfirst hrest hlast
    refine ⟨settings, next, behind, hnext, ?_, htakes⟩
    rw [← String.ofList_toList (s := argument), hargument]
    exact .lettered hlettered

/-- What is accepted consists of groups, up to an argument that does not look
like an option. -/
theorem Ready.exists_spelledAt (hready : p.Ready) (hfeeds : arguments.foldlM feed p = .ok last)
    (hlast : last.pending? = none) :
    ∃ settings before behind given, arguments = before ++ behind ∧
      SpelledAt p.level settings before ∧ behind.foldlM feed { p with given } = .ok last ∧
      ∀ argument rest, behind = argument :: rest → argument = "--" ∨ StandsAlone argument := by
  induction hlength : arguments.length using Nat.strongRecOn generalizing p arguments with
  | ind length ih =>
      by_cases hstop : ∀ argument rest, arguments = argument :: rest →
          argument = "--" ∨ StandsAlone argument
      · exact ⟨[], [], arguments, p.given, rfl, .nil, hfeeds, hstop⟩
      · simp only [not_forall, not_or] at hstop
        obtain ⟨argument, rest, rfl, hdashes, hoption⟩ := hstop
        obtain ⟨first, next, behind, rfl, htogether, htakes⟩ :=
          exists_together hready hfeeds hlast hdashes hoption
        rw [← List.cons_append, List.foldlM_append, hready.feeds_together htogether htakes,
          bind_eq_ok_iff] at hfeeds
        obtain ⟨taken, htake, hbehind⟩ := hfeeds
        obtain ⟨given, -, rfl⟩ := map_eq_ok_iff.mp htake
        have hless : behind.length < length := by
          rw [← hlength, List.length_cons, List.length_append]
          omega
        obtain ⟨later, before, remaining, given', rfl, hspelled, hremaining, hend⟩ :=
          ih behind.length hless (hready.withGiven given) hbehind rfl
        exact ⟨first ++ later, argument :: next ++ before, remaining, given',
          by simp, .cons htogether htakes hspelled, hremaining, hend⟩

end Accepted

end Progress

end PseudoLru.CommandLine
