import Mathlib.Tactic
import PseudoLru.Proofs.Numerals
import PseudoLru.Proofs.OptionSpelling
import PseudoLru.Proofs.Results

/-!
# What options say

The options that are given are looked at through one view, `Given.told?`: what is
told for each kind of option.  A setting that can be read tells its own kind
something and leaves the others alone; one whose kind was told something before
is refused.  So settings are accepted exactly if each of them can be read and
none is given twice, and all that counts then is which settings there are.
Verbosity tells nothing.
-/

namespace PseudoLru.CommandLine

/-- What an option says. -/
inductive Told where
  | text (text : String)
  | number (value : Nat)
  | raised
  deriving DecidableEq

/-- What a setting says, unless its value cannot be read. -/
def Setting.told? : Setting → Option Told
  | .value .config text => some (.text text)
  | .value .offsetBits text => (Given.width? text.toList).map .number
  | .value _ text => (Text.wordNumeral? 10 text.toList).map .number
  | .flag _ => some .raised

/-- What a setting says, told without a reader.  A count is a numeral of a word; a
field width is one of 32 bits, or zero with a minus sign. -/
inductive Setting.Says : Setting → Told → Prop
  | path {text : String} : Says (.value .config text) (.text text)
  | count {option : ValueOption} {text : String} {n : Nat}
      (hcount : option = .ways ∨ option = .sets ∨ option = .size)
      (hnumeral : Text.IsNumeral 10 text.toList n) (hless : n < 2 ^ 64) :
      Says (.value option text) (.number n)
  | width {text : String} {n : Nat} (hnumeral : Text.IsNumeral 10 text.toList n)
      (hless : n < 2 ^ 32) : Says (.value .offsetBits text) (.number n)
  | minusZero {text : String} {digits : List Char} (htext : text.toList = '-' :: digits)
      (hzero : Text.HasValue 10 digits 0) : Says (.value .offsetBits text) (.number 0)
  | raised {raised : Flag} : Says (.flag raised) .raised

theorem width?_eq_some_iff (text : String) (n : Nat) :
    Given.width? text.toList = some n ↔ (Setting.value .offsetBits text).Says (.number n) := by
  unfold Given.width?
  split
  next digits htext =>
    have hvalue : (if digits.isEmpty then none else
        (Text.digits? 10 digits).filter (· = 0)) = some n ↔ Text.HasValue 10 digits 0 ∧ n = 0 := by
      rw [← Text.digits?_eq_some_iff (by decide)]
      by_cases hempty : digits.isEmpty
      · simp [hempty]
      · simp only [hempty, Bool.false_eq_true, if_false, Option.filter_eq_some_iff]
        constructor
        · rintro ⟨hdigits, hzero⟩
          obtain rfl := of_decide_eq_true hzero
          exact ⟨hdigits, rfl⟩
        · rintro ⟨hdigits, rfl⟩
          exact ⟨hdigits, rfl⟩
    rw [hvalue]
    constructor
    · rintro ⟨hzero, rfl⟩
      exact .minusZero htext hzero
    · intro hmeans
      cases hmeans with
      | count hcount => simp at hcount
      | width hnumeral =>
          rw [htext] at hnumeral
          exact absurd hnumeral (Text.not_isNumeral_minus digits n)
      | minusZero htext' hzero =>
          obtain rfl := (List.cons.inj (htext.symm.trans htext')).2
          exact ⟨hzero, rfl⟩
  next htext =>
    rw [Option.filter_eq_some_iff, Text.numeral?_eq_some_iff (by decide), decide_eq_true_iff]
    constructor
    · rintro ⟨hnumeral, hless⟩
      exact .width hnumeral hless
    · intro hmeans
      cases hmeans with
      | count hcount => simp at hcount
      | width hnumeral hless => exact ⟨hnumeral, hless⟩
      | minusZero htext' => exact absurd htext' (htext _)

theorem Setting.told?_eq_some_iff (s : Setting) (told : Told) :
    s.told? = some told ↔ s.Says told := by
  cases s with
  | value option text =>
      cases option with
      | config =>
          constructor
          · rintro ⟨⟩
            exact .path
          · intro hmeans
            cases hmeans with
            | path => rfl
            | count hcount => simp at hcount
      | offsetBits =>
          rw [told?, Option.map_eq_some_iff]
          constructor
          · rintro ⟨n, hn, rfl⟩
            exact (width?_eq_some_iff text n).mp hn
          · intro hmeans
            cases hmeans with
            | count hcount => simp at hcount
            | width hnumeral hless =>
                exact ⟨_, (width?_eq_some_iff _ _).mpr (.width hnumeral hless), rfl⟩
            | minusZero htext hzero =>
                exact ⟨_, (width?_eq_some_iff _ _).mpr (.minusZero htext hzero), rfl⟩
      | ways | sets | size =>
          rw [told?, Option.map_eq_some_iff]
          · constructor
            · rintro ⟨n, hn, rfl⟩
              obtain ⟨hnumeral, hless⟩ := (Text.wordNumeral?_eq_some_iff _ _).mp hn
              exact .count (by simp) hnumeral hless
            · intro hmeans
              cases hmeans with
              | count _ hnumeral hless =>
                  exact ⟨_, (Text.wordNumeral?_eq_some_iff _ _).mpr ⟨hnumeral, hless⟩, rfl⟩
          all_goals simp
  | flag raised =>
      constructor
      · rintro ⟨⟩
        exact .raised
      · intro hmeans
        cases hmeans
        rfl

/-- The settings that change something: all but the verbosity. -/
def counted (settings : List Setting) : List Setting :=
  settings.filter (· ≠ .flag .verbose)

theorem mem_counted_iff {s : Setting} {settings : List Setting} :
    s ∈ counted settings ↔ s ∈ settings ∧ s ≠ .flag .verbose := by
  rw [counted, List.mem_filter, decide_eq_true_iff]

namespace Given

def told? (g : Given) : OptionKind → Option Told
  | .value .config => g.config?.map .text
  | .value .ways => g.ways?.map .number
  | .value .sets => g.sets?.map .number
  | .value .offsetBits => g.offsetBits?.map .number
  | .value .size => g.size?.map .number
  | .flag .invalidFirst => if g.invalidFirst then some .raised else none
  | .flag .dumpSets => if g.dumpSets then some .raised else none
  | .flag .verbose | .help | .version => none

theorem eq_of_told?_eq {g h : Given} (htold : ∀ kind, g.told? kind = h.told? kind) : g = h := by
  have htext : Function.Injective Told.text := fun _ _ => Told.text.inj
  have hnumber : Function.Injective Told.number := fun _ _ => Told.number.inj
  have hflag : ∀ {a b : Bool}, (if a then some Told.raised else none) =
      (if b then some Told.raised else none) → a = b := by
    intro a b hab
    cases a <;> cases b <;> simp_all
  cases g
  cases h
  congr
  · exact Option.map_injective htext (htold (.value .config))
  · exact Option.map_injective hnumber (htold (.value .ways))
  · exact Option.map_injective hnumber (htold (.value .sets))
  · exact Option.map_injective hnumber (htold (.value .offsetBits))
  · exact Option.map_injective hnumber (htold (.value .size))
  · exact hflag (htold (.flag .invalidFirst))
  · exact hflag (htold (.flag .dumpSets))

theorem told?_orElse (inner outer : Given) (kind : OptionKind) :
    (inner.orElse outer).told? kind = (inner.told? kind).or (outer.told? kind) := by
  cases kind with
  | value option => cases option <;> simp [orElse, told?, Option.orElse_eq_or, Option.map_or]
  | flag raised =>
      cases raised with
      | verbose => rfl
      | invalidFirst => cases h : inner.invalidFirst <;> simp [orElse, told?, h]
      | dumpSets => cases h : inner.dumpSets <;> simp [orElse, told?, h]
  | help => rfl
  | version => rfl

/-! ## One setting -/

variable {g : Given} {s : Setting}

/-- A setting that can be read tells its own kind something, once. -/
theorem exists_apply_of_told? (hcounts : s ≠ .flag .verbose) (hfree : g.told? s.kind = none)
    {told : Told} (htold : s.told? = some told) :
    ∃ next, g.apply s = .ok next ∧
      ∀ kind, next.told? kind = if kind = s.kind then some told else g.told? kind := by
  cases s with
  | value option text =>
      cases option with
      | config =>
          obtain rfl := Option.some.inj htold
          have hnone := Option.map_eq_none_iff.mp hfree
          refine ⟨{ g with config? := some text }, ?_, ?_⟩
          · simp only [apply, put, hnone]
            rfl
          · rintro (⟨⟨⟩⟩ | ⟨⟨⟩⟩ | _ | _) <;> rfl
      | ways | sets | offsetBits | size =>
          obtain ⟨number, hnumber, rfl⟩ := Option.map_eq_some_iff.mp htold
          have hnone := Option.map_eq_none_iff.mp hfree
          refine Exists.intro _ (And.intro (by simp only [apply, put, hnone, hnumber]; rfl) ?_)
          rintro (⟨⟨⟩⟩ | ⟨⟨⟩⟩ | _ | _) <;> rfl
  | flag raised =>
      obtain rfl := Option.some.inj htold
      cases raised with
      | verbose => contradiction
      | invalidFirst | dumpSets =>
          have hoff := hfree
          simp only [told?, Setting.kind, ite_eq_right_iff, reduceCtorEq, imp_false] at hoff
          refine Exists.intro _ (And.intro (by simp only [apply, raise, hoff]; rfl) ?_)
          rintro (⟨⟨⟩⟩ | ⟨⟨⟩⟩ | _ | _) <;> rfl

theorem exists_apply_error (htold : s.told? = none) (g : Given) :
    ∃ error, g.apply s = .error error := by
  cases s with
  | value option text =>
      cases option with
      | config => contradiction
      | ways | sets | offsetBits | size =>
          have hnone := Option.map_eq_none_iff.mp htold
          simp only [apply, put, hnone, once]
          split
          · exact ⟨_, rfl⟩
          · contradiction
          · exact ⟨_, rfl⟩
  | flag raised => contradiction

theorem exists_apply_error_of_told? (hcounts : s ≠ .flag .verbose) (htold : g.told? s.kind ≠ none) :
    ∃ error, g.apply s = .error error := by
  cases s with
  | value option text =>
      cases option with
      | config | ways | sets | offsetBits | size =>
          obtain ⟨old, hold⟩ := Option.ne_none_iff_exists'.mp (mt Option.map_eq_none_iff.mpr htold)
          exact ⟨.repeatedOption, by simp only [apply, put, hold]; rfl⟩
  | flag raised =>
      cases raised with
      | verbose => contradiction
      | invalidFirst | dumpSets =>
          have hon := htold
          simp only [told?, Setting.kind, ne_eq, ite_eq_right_iff, reduceCtorEq, imp_false,
            Bool.not_eq_true, Bool.not_eq_false] at hon
          exact ⟨.repeatedOption, by simp only [apply, raise, hon, if_true]⟩

/-! ## Many settings -/

theorem foldlM_apply_counted (settings : List Setting) (g : Given) :
    (counted settings).foldlM apply g = settings.foldlM apply g := by
  induction settings generalizing g with
  | nil => rfl
  | cons s settings ih =>
      by_cases hverbose : s = .flag .verbose
      · subst hverbose
        exact ih g
      · have hcons : counted (s :: settings) = s :: counted settings := by
          simp [counted, hverbose]
        rw [hcons, List.foldlM_cons, List.foldlM_cons]
        exact bind_congr ih

/-- The options say what the settings say. -/
def Tells (g : Given) (settings : List Setting) : Prop :=
  ∀ kind told, g.told? kind = some told ↔ ∃ s ∈ settings, s.kind = kind ∧ s.told? = some told

theorem Tells.eq {h : Given} {settings : List Setting} (hg : g.Tells settings)
    (hh : h.Tells settings) : g = h := by
  apply eq_of_told?_eq
  intro kind
  apply Option.ext
  intro told
  rw [hg kind told, hh kind told]

theorem Tells.perm {settings settings' : List Setting} (htells : g.Tells settings)
    (hperm : settings.Perm settings') : g.Tells settings' := by
  intro kind told
  simp only [htells kind told, hperm.mem_iff]

theorem tells_nil : Given.Tells {} [] := by
  rintro (⟨⟨⟩⟩ | ⟨⟨⟩⟩ | _ | _) told <;> simp [told?]

theorem Tells.told?_eq_none {settings : List Setting} (htells : g.Tells settings)
    {kind : OptionKind} (hkind : ∀ s ∈ settings, s.kind ≠ kind) : g.told? kind = none := by
  cases htold : g.told? kind with
  | none => rfl
  | some told =>
      obtain ⟨s, hs, hsame, -⟩ := (htells kind told).mp htold
      exact absurd hsame (hkind s hs)

theorem Tells.after_apply {settings : List Setting} (htells : g.Tells settings)
    (hcounts : s ≠ .flag .verbose) (hkind : ∀ t ∈ settings, t.kind ≠ s.kind)
    (hread : s.told?.isSome) : ∃ next, g.apply s = .ok next ∧ next.Tells (settings ++ [s]) := by
  obtain ⟨said, hsaid⟩ := Option.isSome_iff_exists.mp hread
  obtain ⟨next, happly, hnext⟩ :=
    exists_apply_of_told? hcounts (htells.told?_eq_none hkind) hsaid
  refine ⟨next, happly, ?_⟩
  intro kind told
  rw [hnext kind]
  by_cases hsame : kind = s.kind
  · subst hsame
    rw [if_pos rfl, ← hsaid]
    constructor
    · intro htold
      exact ⟨s, by simp, rfl, htold⟩
    · rintro ⟨t, ht, hkind', htold⟩
      rcases List.mem_append.mp ht with hearlier | hlast
      · exact absurd hkind' (hkind t hearlier)
      · rwa [List.mem_singleton.mp hlast] at htold
  · rw [if_neg hsame, htells kind told]
    constructor
    · rintro ⟨t, ht, hrest⟩
      exact ⟨t, List.mem_append_left _ ht, hrest⟩
    · rintro ⟨t, ht, hkind', htold⟩
      rcases List.mem_append.mp ht with hearlier | hlast
      · exact ⟨t, hearlier, hkind', htold⟩
      · rw [List.mem_singleton.mp hlast] at hkind'
        exact absurd hkind'.symm hsame

theorem exists_tells {settings : List Setting} (hcounts : ∀ s ∈ settings, s ≠ .flag .verbose)
    (honce : (settings.map Setting.kind).Nodup) (hread : ∀ s ∈ settings, s.told?.isSome) :
    ∃ g, settings.foldlM apply {} = .ok g ∧ g.Tells settings := by
  -- Settings are applied from the left, so the last one comes on top of the others.
  induction settings using List.reverseRecOn with
  | nil => exact ⟨{}, rfl, tells_nil⟩
  | append_singleton settings s ih =>
      rw [List.map_append, List.nodup_append] at honce
      obtain ⟨hearlier, -, hapart⟩ := honce
      obtain ⟨g, hg, htells⟩ := ih (fun t ht => hcounts t (List.mem_append_left _ ht)) hearlier
        fun t ht => hread t (List.mem_append_left _ ht)
      obtain ⟨next, happly, hnext⟩ := htells.after_apply (hcounts s (by simp))
        (fun t ht => hapart t.kind (List.mem_map_of_mem ht) s.kind (by simp)) (hread s (by simp))
      refine ⟨next, ?_, hnext⟩
      rw [List.foldlM_append, hg]
      change List.foldlM apply g [s] = _
      rw [List.foldlM_cons, happly]
      rfl

/-- The verbosity aside, settings are accepted that are given once and can be read. -/
theorem exists_tells_counted {settings : List Setting}
    (honce : ((counted settings).map Setting.kind).Nodup)
    (hread : ∀ s ∈ settings, s.told?.isSome) :
    ∃ g, settings.foldlM apply {} = .ok g ∧ g.Tells (counted settings) := by
  rw [← foldlM_apply_counted]
  exact exists_tells (fun s hs => (mem_counted_iff.mp hs).2) honce
    fun s hs => hread s (mem_counted_iff.mp hs).1

theorem exists_foldlM_error {settings : List Setting} (hs : s ∈ settings) (htold : s.told? = none)
    (g : Given) : ∃ error, settings.foldlM apply g = .error error := by
  induction settings generalizing g with
  | nil => simp at hs
  | cons first settings ih =>
      rw [List.foldlM_cons]
      rcases List.mem_cons.mp hs with rfl | hlater
      · obtain ⟨error, herror⟩ := exists_apply_error htold g
        exact ⟨error, by rw [herror]; rfl⟩
      · cases hfirst : g.apply first with
        | error error => exact ⟨error, rfl⟩
        | ok next => exact ih hlater next

/-- A setting is taken only if none of its kind was given before. -/
theorem Tells.kind_ne_of_apply {settings : List Setting} {next : Given} (htells : g.Tells settings)
    (hread : ∀ t ∈ settings, t.told?.isSome) (hcounts : s ≠ .flag .verbose)
    (happly : g.apply s = .ok next) : ∀ t ∈ settings, t.kind ≠ s.kind := by
  intro t ht hsame
  obtain ⟨told, htold⟩ := Option.isSome_iff_exists.mp (hread t ht)
  have hsaid : g.told? s.kind ≠ none := by
    rw [(htells s.kind told).mpr ⟨t, ht, hsame, htold⟩]
    exact Option.some_ne_none told
  obtain ⟨error, herror⟩ := exists_apply_error_of_told? hcounts hsaid
  rw [happly] at herror
  contradiction

theorem nodup_kind_of_foldlM {settings : List Setting} {given : Given}
    (haccepted : settings.foldlM apply {} = .ok given)
    (hcounts : ∀ s ∈ settings, s ≠ .flag .verbose) (hread : ∀ s ∈ settings, s.told?.isSome) :
    (settings.map Setting.kind).Nodup := by
  induction settings using List.reverseRecOn generalizing given with
  | nil => exact List.nodup_nil
  | append_singleton settings s ih =>
      rw [List.forall_mem_append, List.forall_mem_singleton] at hcounts hread
      rw [List.foldlM_append, bind_eq_ok_iff] at haccepted
      obtain ⟨middle, hearlier, hlast⟩ := haccepted
      rw [List.foldlM_cons, bind_eq_ok_iff] at hlast
      obtain ⟨next, happly, -⟩ := hlast
      have honce := ih hearlier hcounts.1 hread.1
      obtain ⟨other, hother, htells⟩ := exists_tells hcounts.1 honce hread.1
      obtain rfl := Except.ok.inj (hearlier.symm.trans hother)
      have hapart := htells.kind_ne_of_apply hread.1 hcounts.2 happly
      rw [List.map_append, List.map_singleton, List.nodup_append]
      refine ⟨honce, List.nodup_singleton _, ?_⟩
      intro kind hkind kind' hkind'
      obtain ⟨t, ht, rfl⟩ := List.mem_map.mp hkind
      obtain rfl := List.mem_singleton.mp hkind'
      exact hapart t ht

/-- Settings that are accepted are given once, and each of them can be read. -/
theorem once_of_foldlM {settings : List Setting} {given : Given}
    (haccepted : settings.foldlM apply {} = .ok given) :
    ((counted settings).map Setting.kind).Nodup ∧ ∀ s ∈ settings, s.told?.isSome := by
  have hread : ∀ s ∈ settings, s.told?.isSome := by
    intro s hs
    rw [Option.isSome_iff_ne_none]
    intro htold
    obtain ⟨error, herror⟩ := exists_foldlM_error hs htold {}
    rw [haccepted] at herror
    contradiction
  rw [← foldlM_apply_counted] at haccepted
  refine ⟨nodup_kind_of_foldlM haccepted ?_ ?_, hread⟩
  · exact fun s hs => (mem_counted_iff.mp hs).2
  · exact fun s hs => hread s (mem_counted_iff.mp hs).1

theorem Tells.orElse {inner outer : Given} {behind before : List Setting}
    (hinner : inner.Tells behind) (houter : outer.Tells before)
    (hapart : ∀ s ∈ before, ∀ t ∈ behind, s.kind ≠ t.kind) :
    (inner.orElse outer).Tells (before ++ behind) := by
  intro kind told
  have hmem : (∃ s ∈ before ++ behind, s.kind = kind ∧ s.told? = some told) ↔
      inner.told? kind = some told ∨ outer.told? kind = some told := by
    rw [hinner kind told, houter kind told]
    simp only [List.mem_append, or_and_right, exists_or]
    exact Or.comm
  rw [hmem, told?_orElse, Option.or_eq_some_iff]
  constructor
  · rintro (hsaid | ⟨-, hsaid⟩)
    · exact Or.inl hsaid
    · exact Or.inr hsaid
  · rintro (hsaid | hsaid)
    · exact Or.inl hsaid
    · obtain ⟨s, hs, rfl, -⟩ := (houter kind told).mp hsaid
      exact Or.inr ⟨hinner.told?_eq_none fun t ht => (hapart s hs t ht).symm, hsaid⟩

end Given

end PseudoLru.CommandLine
