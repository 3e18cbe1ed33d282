import Mathlib.Tactic
import PseudoLru.CacheSet
import PseudoLru.Proofs.EncodingTree
import PseudoLru.Proofs.Runs

/-!
# Accesses to a set

`Accesses` says all that one access does; what the other modules use of it is
that an access refers in the tree to the one way it uses, that it leaves the
accessed tag in this way and every other way as it was, and that a tag is
displaced only from the victim of the tree.

An access that does not do this fails, and `Faults` says why: the way to fill
is out of the range of the encoding or of the set.  A set that is as wide as
its encoding serves every access.
-/

namespace PseudoLru

theorem Line.holds_iff_eq_fetched (line : Line) (tag : UInt64) :
    line.holds tag = true ↔ line = Line.fetched tag := by
  cases line
  simp [Line.holds, Line.fetched]

namespace CacheSet

def HoldsAt (set : CacheSet) (way : Nat) (tag : UInt64) : Prop :=
  set.lines[way]? = some (Line.fetched tag)

/-- No tag is held by two ways. -/
def Distinct (set : CacheSet) : Prop :=
  ∀ way other tag, set.HoldsAt way tag → set.HoldsAt other tag → way = other

theorem lt_of_holdsAt {set : CacheSet} {way : Nat} {tag : UInt64}
    (hholds : set.HoldsAt way tag) : way < set.lines.length := by
  obtain ⟨hlt, -⟩ := List.getElem?_eq_some_iff.mp hholds
  exact hlt

theorem not_holdsAt_empty (index ways way : Nat) (tag : UInt64) :
    ¬ (empty index ways).HoldsAt way tag := by
  intro hholds
  have hline := (List.mem_replicate.mp (List.mem_of_getElem? hholds)).2
  simp [Line.fetched, Line.empty] at hline

theorem holdsAt_unique {set : CacheSet} {way : Nat} {tag other : UInt64}
    (htag : set.HoldsAt way tag) (hother : set.HoldsAt way other) : tag = other := by
  unfold HoldsAt at htag hother
  rw [htag] at hother
  simpa [Line.fetched] using hother

theorem card_le_length_of_holdsAt {set : CacheSet} {tags : Finset UInt64}
    (hheld : ∀ tag ∈ tags, ∃ way, set.HoldsAt way tag) : tags.card ≤ set.lines.length := by
  choose! way hway using hheld
  rw [← Finset.card_range set.lines.length]
  apply Finset.card_le_card_of_injOn way
  · intro tag htag
    exact Finset.mem_coe.mpr (Finset.mem_range.mpr (lt_of_holdsAt (hway tag htag)))
  · intro tag htag other hother heq
    have hholds := hway tag htag
    rw [heq] at hholds
    exact holdsAt_unique hholds (hway other hother)

theorem holdsAt_of_probe {set : CacheSet} {way : Nat} {tag : UInt64}
    (hprobe : set.probe tag = some way) : set.HoldsAt way tag := by
  obtain ⟨hlt, hholds, -⟩ := List.findIdx?_eq_some_iff_getElem.mp hprobe
  unfold HoldsAt
  rw [List.getElem?_eq_getElem hlt, (Line.holds_iff_eq_fetched _ tag).mp hholds]

theorem probe_eq_none_iff (set : CacheSet) (tag : UInt64) :
    set.probe tag = none ↔ ∀ way, ¬ set.HoldsAt way tag := by
  unfold probe
  rw [List.findIdx?_eq_none_iff]
  constructor
  · intro habsent way hholds
    have hfalse := habsent _ (List.mem_of_getElem? hholds)
    rw [Line.holds_fetched, beq_self_eq_true] at hfalse
    contradiction
  · intro habsent line hline
    rw [← Bool.not_eq_true, Line.holds_iff_eq_fetched]
    rintro rfl
    obtain ⟨way, hway⟩ := List.mem_iff_getElem?.mp hline
    exact habsent way hway

theorem probe_isSome_iff (set : CacheSet) (tag : UInt64) :
    (set.probe tag).isSome = true ↔ ∃ way, set.HoldsAt way tag := by
  rw [← not_iff_not, Bool.not_eq_true, Option.isSome_eq_false_iff, Option.isNone_iff_eq_none,
    probe_eq_none_iff]
  simp

theorem not_valid_of_emptyWay? {set : CacheSet} {way : Nat} (hempty : set.emptyWay? = some way) :
    ∃ line, set.lines[way]? = some line ∧ line.valid = false := by
  obtain ⟨hlt, hvalid, -⟩ := List.findIdx?_eq_some_iff_getElem.mp hempty
  exact ⟨set.lines[way], List.getElem?_eq_getElem hlt, by simpa using hvalid⟩

/-- The way that a miss fills. -/
def Fills (set : CacheSet) (e : Encoding) (policy : VictimPolicy) (way : Nat) : Prop :=
  (policy = .invalidFirst ∧ set.emptyWay? = some way) ∨
    ((policy = .tree ∨ set.emptyWay? = none) ∧ way = e.victim set.state)

/-- What an access of `tag` that succeeds does. -/
inductive Accesses (e : Encoding) (policy : VictimPolicy) (set : CacheSet) (tag : UInt64) :
    Access CacheSet → Prop
  | hit {way : Nat} {p : PathPattern} (hpattern : e.patterns[way]? = some p)
      (hprobe : set.probe tag = some way) :
      Accesses e policy set tag {
        outcome := ⟨.hit, way, set.index, set.state, p.touch set.state⟩
        event := .hit set.index way tag set.state (p.clear set.state) (p.touch set.state)
        after := { set with state := p.touch set.state } }
  | miss {way : Nat} {p : PathPattern} {line : Line} (hpattern : e.patterns[way]? = some p)
      (hline : set.lines[way]? = some line) (hprobe : set.probe tag = none)
      (hfills : set.Fills e policy way) :
      Accesses e policy set tag {
        outcome := ⟨.miss line.resident?, way, set.index, set.state, p.touch set.state⟩
        event := .miss set.index way line.resident? tag set.state (p.touch set.state)
        after := { set with
          lines := set.lines.set way (Line.fetched tag), state := p.touch set.state } }

theorem exists_fills (set : CacheSet) (e : Encoding) (policy : VictimPolicy) :
    ∃ way, set.Fills e policy way := by
  cases policy with
  | tree => exact ⟨_, Or.inr ⟨Or.inl rfl, rfl⟩⟩
  | invalidFirst =>
      cases hempty : set.emptyWay? with
      | none => exact ⟨_, Or.inr ⟨Or.inr hempty, rfl⟩⟩
      | some way => exact ⟨way, Or.inl ⟨rfl, hempty⟩⟩

/-- The way that a miss fills is referred to, also if it is the victim. -/
theorem replacement_of_fills {set : CacheSet} {e : Encoding} {policy : VictimPolicy} {way : Nat}
    (hfills : set.Fills e policy way) :
    set.replacement e policy = (e.touch set.state way).map fun after => (way, after) := by
  rcases hfills with ⟨rfl, hempty⟩ | ⟨hnone, rfl⟩
  · simp only [replacement, hempty]
    cases e.touch set.state way <;> rfl
  · have hvictim : set.replacement e policy = do
        return (e.victim set.state, ← e.fill set.state (e.victim set.state)) := by
      rcases hnone with rfl | hnone
      · rfl
      · cases policy <;> simp [replacement, hnone]
    rw [hvictim, e.fill_victim]
    cases e.touch set.state (e.victim set.state) <;> rfl

theorem access_of_accesses {set : CacheSet} {e : Encoding} {policy : VictimPolicy} {tag : UInt64}
    {access : Access CacheSet} (haccess : set.Accesses e policy tag access) :
    set.access e policy tag = .ok access := by
  cases haccess with
  | hit hpattern hprobe =>
      simp [CacheSet.access, hprobe, CacheSet.hit, Encoding.pattern, OutOfRange.lookup, hpattern,
        bind, Except.bind, pure, Except.pure]
  | miss hpattern hline hprobe hfills =>
      simp [CacheSet.access, hprobe, CacheSet.miss, replacement_of_fills hfills,
        Encoding.touch_of_getElem?_patterns hpattern, OutOfRange.lookup, hline, Except.map, bind,
        Except.bind, pure, Except.pure]

/-! ## Ways out of range -/

/-- No way beyond the encoding is valid. -/
def Within (e : Encoding) (set : CacheSet) : Prop :=
  ∀ way line, set.lines[way]? = some line → line.valid = true → way < e.ways

/-- The tag is absent, and the encoding or the set lacks the way to fill. -/
inductive Faults (e : Encoding) (policy : VictimPolicy) (set : CacheSet) (tag : UInt64) :
    OutOfRange → Prop
  | emptyWay {way : Nat} (hprobe : set.probe tag = none) (hpolicy : policy = .invalidFirst)
      (hempty : set.emptyWay? = some way) (hbeyond : e.ways ≤ way) :
      Faults e policy set tag ⟨e.ways, way⟩
  | victim (hprobe : set.probe tag = none) (hpolicy : policy = .tree ∨ set.emptyWay? = none)
      (hbeyond : set.lines.length ≤ e.victim set.state) :
      Faults e policy set tag ⟨set.lines.length, e.victim set.state⟩

theorem Within.lt_of_holdsAt {e : Encoding} {set : CacheSet} (hwithin : set.Within e) {way : Nat}
    {tag : UInt64} (hheld : set.HoldsAt way tag) : way < e.ways :=
  hwithin way _ hheld rfl

theorem Within.accesses_or_faults {set : CacheSet} {e : Encoding} (hwithin : set.Within e)
    (policy : VictimPolicy) (tag : UInt64) :
    (∃ access, set.Accesses e policy tag access) ∨
      ∃ fault, set.Faults e policy tag fault := by
  cases hprobe : set.probe tag with
  | some way =>
      have hway := hwithin.lt_of_holdsAt (holdsAt_of_probe hprobe)
      obtain ⟨p, hp⟩ := Encoding.exists_getElem?_patterns hway
      exact Or.inl ⟨_, .hit hp hprobe⟩
  | none =>
      obtain ⟨way, hfills⟩ := set.exists_fills e policy
      rcases hfills with ⟨hpolicy, hempty⟩ | ⟨hpolicy, rfl⟩
      · by_cases hway : way < e.ways
        · obtain ⟨p, hp⟩ := Encoding.exists_getElem?_patterns hway
          obtain ⟨line, hline, -⟩ := not_valid_of_emptyWay? hempty
          exact Or.inl ⟨_, .miss hp hline hprobe (Or.inl ⟨hpolicy, hempty⟩)⟩
        · exact Or.inr ⟨_, .emptyWay hprobe hpolicy hempty (Nat.le_of_not_lt hway)⟩
      · by_cases hvictim : e.victim set.state < set.lines.length
        · obtain ⟨p, hp⟩ := Encoding.exists_getElem?_patterns (e.victim_lt set.state)
          exact Or.inl
            ⟨_, .miss hp (List.getElem?_eq_getElem hvictim) hprobe (Or.inr ⟨hpolicy, rfl⟩)⟩
        · exact Or.inr ⟨_, .victim hprobe hpolicy (Nat.le_of_not_lt hvictim)⟩

theorem exists_access {set : CacheSet} {e : Encoding} (hwidth : set.lines.length = e.ways)
    (policy : VictimPolicy) (tag : UInt64) :
    ∃ access, set.access e policy tag = .ok access ∧ set.Accesses e policy tag access := by
  have hlt : ∀ way line, set.lines[way]? = some line → way < e.ways := by
    intro way line hline
    obtain ⟨hlt, -⟩ := List.getElem?_eq_some_iff.mp hline
    rwa [← hwidth]
  have hwithin : set.Within e := fun way line hline _ => hlt way line hline
  rcases hwithin.accesses_or_faults policy tag with ⟨access, haccess⟩ | ⟨fault, hfaults⟩
  · exact ⟨access, access_of_accesses haccess, haccess⟩
  · -- Neither the empty way nor the victim is out of range.
    cases hfaults with
    | @emptyWay way hprobe hpolicy hempty hbeyond =>
        obtain ⟨line, hline, -⟩ := not_valid_of_emptyWay? hempty
        exact absurd (hlt way line hline) (Nat.not_lt_of_le hbeyond)
    | victim hprobe hpolicy hbeyond =>
        rw [hwidth] at hbeyond
        exact absurd (e.victim_lt set.state) (Nat.not_lt_of_le hbeyond)

/-! ## What one access does -/

section Accesses

variable {set : CacheSet} {e : Encoding} {policy : VictimPolicy} {tag : UInt64}
  {access : Access CacheSet}

/-- Hits, fills of empty ways and fills of victims all change the state as a
reference to the way they use. -/
theorem Accesses.touch (haccess : set.Accesses e policy tag access) :
    e.touch set.state access.outcome.way = .ok access.after.state := by
  cases haccess with
  | hit hpattern _ => exact Encoding.touch_of_getElem?_patterns hpattern _
  | miss hpattern _ _ _ => exact Encoding.touch_of_getElem?_patterns hpattern _

theorem Accesses.way_lt (haccess : set.Accesses e policy tag access) :
    access.outcome.way < e.ways :=
  Encoding.way_lt_of_touch haccess.touch

theorem Accesses.length_lines (haccess : set.Accesses e policy tag access) :
    access.after.lines.length = set.lines.length := by
  cases haccess with
  | hit => rfl
  | miss => exact List.length_set

theorem Accesses.index_after (haccess : set.Accesses e policy tag access) :
    access.after.index = set.index := by
  cases haccess <;> rfl

theorem Accesses.setIndex_eq (haccess : set.Accesses e policy tag access) :
    access.outcome.setIndex = set.index := by
  cases haccess <;> rfl

theorem Accesses.stateBefore_eq (haccess : set.Accesses e policy tag access) :
    access.outcome.stateBefore = set.state := by
  cases haccess <;> rfl

theorem Accesses.stateAfter_eq (haccess : set.Accesses e policy tag access) :
    access.outcome.stateAfter = access.after.state := by
  cases haccess <;> rfl

theorem Accesses.isHit_iff (haccess : set.Accesses e policy tag access) :
    access.outcome.isHit = true ↔ ∃ way, set.HoldsAt way tag := by
  rw [← probe_isSome_iff]
  cases haccess with
  | hit _ hprobe => simp [Outcome.isHit, hprobe]
  | miss _ _ hprobe _ => simp [Outcome.isHit, hprobe]

theorem Accesses.holdsAt_way (haccess : set.Accesses e policy tag access) :
    access.after.HoldsAt access.outcome.way tag := by
  cases haccess with
  | hit _ hprobe => exact holdsAt_of_probe hprobe
  | miss _ hline _ _ =>
      obtain ⟨hlt, -⟩ := List.getElem?_eq_some_iff.mp hline
      exact List.getElem?_set_self hlt

theorem Accesses.holdsAt_of_ne (haccess : set.Accesses e policy tag access) {way : Nat}
    (hway : way ≠ access.outcome.way) (other : UInt64) :
    access.after.HoldsAt way other ↔ set.HoldsAt way other := by
  cases haccess with
  | hit => rfl
  | miss =>
      unfold HoldsAt
      rw [List.getElem?_set_ne (Ne.symm hway)]

theorem Accesses.getElem?_lines_after (haccess : set.Accesses e policy tag access) (way : Nat) :
    access.after.lines[way]? =
      if way = access.outcome.way then some (Line.fetched tag) else set.lines[way]? := by
  by_cases hway : way = access.outcome.way
  · rw [if_pos hway, hway]
    exact haccess.holdsAt_way
  · rw [if_neg hway]
    cases haccess with
    | hit => rfl
    | miss => exact List.getElem?_set_ne (Ne.symm hway)

theorem Accesses.holdsAt_of_isHit (haccess : set.Accesses e policy tag access)
    (hhit : access.outcome.isHit = true) : set.HoldsAt access.outcome.way tag := by
  cases haccess with
  | hit _ hprobe => exact holdsAt_of_probe hprobe
  | miss => simp [Outcome.isHit] at hhit

theorem Accesses.holdsAt_way_iff (haccess : set.Accesses e policy tag access) (other : UInt64) :
    access.after.HoldsAt access.outcome.way other ↔ other = tag := by
  constructor
  · intro hother
    exact holdsAt_unique hother haccess.holdsAt_way
  · rintro rfl
    exact haccess.holdsAt_way

theorem Accesses.mem_of_holdsAt (haccess : set.Accesses e policy tag access)
    {history : List UInt64} (haccessed : ∀ way held, set.HoldsAt way held → held ∈ history)
    {way : Nat} {held : UInt64} (hheld : access.after.HoldsAt way held) :
    held ∈ history ++ [tag] := by
  by_cases hused : way = access.outcome.way
  · subst way
    rw [(haccess.holdsAt_way_iff held).mp hheld]
    exact List.mem_append_right _ List.mem_cons_self
  · rw [haccess.holdsAt_of_ne hused] at hheld
    exact List.mem_append_left _ (haccessed way held hheld)

/-- If the accessed tag was held before, it was held by the way that the access
uses. -/
theorem Accesses.way_eq_of_holdsAt (haccess : set.Accesses e policy tag access)
    (hdistinct : set.Distinct) {way : Nat} (hheld : set.HoldsAt way tag) :
    way = access.outcome.way := by
  cases haccess with
  | hit _ hprobe => exact hdistinct _ _ _ hheld (holdsAt_of_probe hprobe)
  | miss _ _ hprobe _ => exact absurd hheld ((set.probe_eq_none_iff tag).mp hprobe way)

theorem Accesses.distinct (haccess : set.Accesses e policy tag access)
    (hdistinct : set.Distinct) : access.after.Distinct := by
  have hused : ∀ way, access.after.HoldsAt way tag → way = access.outcome.way := by
    intro way hway
    by_contra hne
    rw [haccess.holdsAt_of_ne hne] at hway
    exact hne (haccess.way_eq_of_holdsAt hdistinct hway)
  intro way other held hway hother
  by_cases hheld : held = tag
  · subst held
    rw [hused way hway, hused other hother]
  · have hne : ∀ way', access.after.HoldsAt way' held → way' ≠ access.outcome.way := by
      rintro way' hway' rfl
      exact hheld ((haccess.holdsAt_way_iff held).mp hway')
    rw [haccess.holdsAt_of_ne (hne way hway)] at hway
    rw [haccess.holdsAt_of_ne (hne other hother)] at hother
    exact hdistinct way other held hway hother

theorem Accesses.lines_of_isHit (haccess : set.Accesses e policy tag access)
    (hhit : access.outcome.isHit = true) : access.after.lines = set.lines := by
  cases haccess with
  | hit => rfl
  | miss => simp [Outcome.isHit] at hhit

theorem Accesses.evicted?_of_isHit (haccess : set.Accesses e policy tag access)
    (hhit : access.outcome.isHit = true) : access.outcome.evicted? = none := by
  cases haccess with
  | hit => rfl
  | miss => simp [Outcome.isHit] at hhit

theorem Accesses.exists_evicted?_of_miss (haccess : set.Accesses e policy tag access)
    (hmiss : access.outcome.isHit = false) :
    ∃ line, set.lines[access.outcome.way]? = some line ∧
      access.outcome.evicted? = line.resident? := by
  cases haccess with
  | hit => simp [Outcome.isHit] at hmiss
  | miss _ hline _ _ => exact ⟨_, hline, rfl⟩

/-- Under the tree policy every miss fills the victim. -/
theorem Accesses.way_eq_victim (haccess : set.Accesses e .tree tag access)
    (hmiss : access.outcome.isHit = false) : access.outcome.way = e.victim set.state := by
  cases haccess with
  | hit => simp [Outcome.isHit] at hmiss
  | miss _ _ _ hfills =>
      rcases hfills with ⟨hpolicy, _⟩ | ⟨_, hvictim⟩
      · cases hpolicy
      · exact hvictim

/-- A tag is displaced only by a miss, and only from the victim. -/
theorem Accesses.displaced (haccess : set.Accesses e policy tag access) {other : UInt64}
    (hheld : set.HoldsAt access.outcome.way other) (hother : other ≠ tag) :
    access.outcome.way = e.victim set.state ∧ ∀ way, ¬ set.HoldsAt way tag := by
  cases haccess with
  | hit _ hprobe => exact absurd (holdsAt_unique hheld (holdsAt_of_probe hprobe)) hother
  | miss hpattern hline hprobe hfills =>
      refine ⟨?_, (set.probe_eq_none_iff tag).mp hprobe⟩
      rcases hfills with ⟨_, hempty⟩ | ⟨_, hvictim⟩
      · obtain ⟨line, hget, hinvalid⟩ := not_valid_of_emptyWay? hempty
        rw [hheld] at hget
        obtain rfl := Option.some.inj hget
        simp [Line.fetched] at hinvalid
      · exact hvictim

end Accesses

/-! ## Runs on a set -/

def replay (set : CacheSet) (e : Encoding) (policy : VictimPolicy) (tags : List UInt64) :
    Except OutOfRange (Run CacheSet) :=
  Run.ofRequests (fun set tag => set.access e policy tag) set tags

theorem exists_replay (e : Encoding) (policy : VictimPolicy)
    (Inv : List UInt64 → List Outcome → CacheSet → Prop)
    (hstep : ∀ past outcomes set tag access, set.lines.length = e.ways →
      Inv past outcomes set → set.Accesses e policy tag access →
        Inv (past ++ [tag]) (outcomes ++ [access.outcome]) access.after)
    {set : CacheSet} (hwidth : set.lines.length = e.ways) (hinv : Inv [] [] set)
    (tags : List UInt64) :
    ∃ run, set.replay e policy tags = .ok run ∧
      run.after.lines.length = e.ways ∧ Inv tags run.outcomes run.after := by
  have hboth : ∀ past outcomes (set : CacheSet) tag,
      (set.lines.length = e.ways ∧ Inv past outcomes set) →
        ∃ access, set.access e policy tag = .ok access ∧
          (access.after.lines.length = e.ways ∧
            Inv (past ++ [tag]) (outcomes ++ [access.outcome]) access.after) := by
    rintro past outcomes set tag ⟨hlength, hset⟩
    obtain ⟨access, hok, haccess⟩ := exists_access hlength policy tag
    refine ⟨access, hok, ?_, hstep past outcomes set tag access hlength hset haccess⟩
    rw [haccess.length_lines, hlength]
  obtain ⟨run, hrun, hlength, hlast⟩ :=
    Run.exists_ofRequests_of_invariant
      (fun past outcomes set => set.lines.length = e.ways ∧ Inv past outcomes set)
      hboth ⟨hwidth, hinv⟩ tags
  exact ⟨run, hrun, hlength, hlast⟩

/-- What every access keeps is true of the run that was made. -/
theorem invariant_of_replay {e : Encoding} {policy : VictimPolicy}
    (Inv : List UInt64 → List Outcome → CacheSet → Prop)
    (hstep : ∀ past outcomes set tag access, set.lines.length = e.ways →
      Inv past outcomes set → set.Accesses e policy tag access →
        Inv (past ++ [tag]) (outcomes ++ [access.outcome]) access.after)
    {set : CacheSet} (hwidth : set.lines.length = e.ways) (hinv : Inv [] [] set)
    {tags : List UInt64} {run : Run CacheSet} (hrun : set.replay e policy tags = .ok run) :
    Inv tags run.outcomes run.after := by
  obtain ⟨made, hmade, -, hlast⟩ := exists_replay e policy Inv hstep hwidth hinv tags
  rw [hrun] at hmade
  obtain rfl := Except.ok.inj hmade
  exact hlast

@[simp] theorem length_lines_empty (index ways : Nat) :
    (empty index ways).lines.length = ways :=
  List.length_replicate

end CacheSet

end PseudoLru
