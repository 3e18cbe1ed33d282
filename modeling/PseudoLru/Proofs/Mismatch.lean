import Mathlib.Tactic
import PseudoLru.Proofs.Recency
import PseudoLru.Proofs.SetAccess

/-!
# Sets and encodings of different widths

An encoding may be used with a set of any number of ways.  Then an access
fails if the tag is absent and the way to fill is one that the encoding or the
set lacks: an empty way beyond the encoding, or a victim beyond the set.  No
way beyond the encoding is ever filled, so a hit never fails.

An access in place assigns the lines and the state one after the other, each
once the values it needs are known.  The assignments come last, so an access
that fails has made none of them, and the set may be used further.
-/

namespace PseudoLru.CacheSet

open History

/-! ## Accesses in place -/

/-- Work on a set, which may fail part of the way; what was assigned by then
stays. -/
abbrev InPlace := ExceptT OutOfRange (StateM CacheSet)

section InPlace

variable {α β : Type}

def runInPlace (work : InPlace α) (set : CacheSet) : Except OutOfRange α × CacheSet :=
  (ExceptT.run work).run set

@[simp] theorem runInPlace_pure (a : α) (set : CacheSet) :
    runInPlace (pure a) set = (.ok a, set) := rfl

@[simp] theorem runInPlace_get (set : CacheSet) : runInPlace get set = (.ok set, set) := rfl

@[simp] theorem runInPlace_modify (f : CacheSet → CacheSet) (set : CacheSet) :
    runInPlace (modify f) set = (.ok ⟨⟩, f set) := rfl

@[simp] theorem runInPlace_ofExcept (result : Except OutOfRange α) (set : CacheSet) :
    runInPlace (MonadExcept.ofExcept result) set = (result, set) := by
  cases result <;> rfl

@[simp] theorem runInPlace_bind (work : InPlace α) (next : α → InPlace β) (set : CacheSet) :
    runInPlace (work >>= next) set =
      match runInPlace work set with
      | (.ok a, after) => runInPlace (next a) after
      | (.error fault, after) => (.error fault, after) := by
  simp only [runInPlace, ExceptT.run_bind, StateT.run_bind]
  rcases (ExceptT.run work).run set with ⟨_ | _, after⟩ <;> rfl

end InPlace

/-- An access that assigns the parts of the set in turn. -/
def accessInPlace (e : Encoding) (policy : VictimPolicy) (tag : UInt64) :
    InPlace (Outcome × Event) := do
  let set ← get
  match set.probe tag with
  | some way =>
      let after ← MonadExcept.ofExcept (e.touch set.state way)
      modify fun set => { set with state := after }
      let pattern ← MonadExcept.ofExcept (e.pattern way)
      return (⟨.hit, way, set.index, set.state, after⟩,
        .hit set.index way tag set.state (pattern.clear set.state) after)
  | none =>
      let (way, after) ← MonadExcept.ofExcept (set.replacement e policy)
      let line ← MonadExcept.ofExcept (OutOfRange.lookup set.lines way)
      let evicted := line.resident?
      modify fun set => { set with lines := set.lines.set way (Line.fetched tag) }
      modify fun set => { set with state := after }
      return (⟨.miss evicted, way, set.index, set.state, after⟩,
        .miss set.index way evicted tag set.state after)

theorem runInPlace_accessInPlace (e : Encoding) (policy : VictimPolicy) (tag : UInt64)
    (set : CacheSet) :
    runInPlace (accessInPlace e policy tag) set =
      match set.access e policy tag with
      | .ok access => (.ok (access.outcome, access.event), access.after)
      | .error fault => (.error fault, set) := by
  rw [accessInPlace, runInPlace_bind, runInPlace_get, CacheSet.access]
  cases hprobe : set.probe tag with
  | some way =>
      simp only [hprobe, runInPlace_bind, runInPlace_ofExcept, runInPlace_modify, runInPlace_pure,
        Encoding.touch, CacheSet.hit]
      cases e.pattern way <;> rfl
  | none =>
      simp only [hprobe, runInPlace_bind, runInPlace_ofExcept, runInPlace_modify, runInPlace_pure,
        CacheSet.miss]
      cases set.replacement e policy with
      | error fault => rfl
      | ok filled =>
          simp only [bind, Except.bind]
          cases OutOfRange.lookup set.lines filled.1 <;> rfl

/-! ## Accesses that fail -/

theorem within_empty (e : Encoding) (index ways : Nat) : (empty index ways).Within e := by
  intro way line hline hvalid
  rw [(List.mem_replicate.mp (List.mem_of_getElem? hline)).2] at hvalid
  simp [Line.empty] at hvalid

section Faults

variable {e : Encoding} {policy : VictimPolicy} {set : CacheSet} {tag : UInt64}
  {fault : OutOfRange}

theorem Faults.probe_eq_none (hfaults : set.Faults e policy tag fault) :
    set.probe tag = none := by
  cases hfaults <;> assumption

theorem access_of_faults (hfaults : set.Faults e policy tag fault) :
    set.access e policy tag = .error fault := by
  cases hfaults with
  | emptyWay hprobe hpolicy hempty hbeyond =>
      rw [← e.length_patterns] at hbeyond
      simp [CacheSet.access, hprobe, CacheSet.miss, replacement_of_fills (Or.inl ⟨hpolicy, hempty⟩),
        Encoding.touch, Encoding.pattern, OutOfRange.lookup_of_le hbeyond, Except.map, bind,
        Except.bind]
  | victim hprobe hpolicy hbeyond =>
      obtain ⟨p, hpattern, -⟩ := e.exists_victim_pattern set.state
      simp [CacheSet.access, hprobe, CacheSet.miss, replacement_of_fills (Or.inr ⟨hpolicy, rfl⟩),
        Encoding.touch_of_getElem?_patterns hpattern, OutOfRange.lookup_of_le hbeyond, Except.map,
        bind, Except.bind]

theorem Within.access_eq_error_iff (hwithin : set.Within e) :
    set.access e policy tag = .error fault ↔ set.Faults e policy tag fault := by
  refine ⟨?_, access_of_faults⟩
  intro herror
  rcases hwithin.accesses_or_faults policy tag with ⟨access, haccess⟩ | ⟨other, hother⟩
  · rw [access_of_accesses haccess] at herror
    cases herror
  · rw [access_of_faults hother] at herror
    cases herror
    exact hother

theorem Within.after {access : Access CacheSet} (hwithin : set.Within e)
    (haccess : set.Accesses e policy tag access) : access.after.Within e := by
  intro way line hline hvalid
  rw [haccess.getElem?_lines_after] at hline
  split at hline
  next hused =>
    rw [hused]
    exact haccess.way_lt
  next => exact hwithin way line hline hvalid

/-- The ways of the encoding are all valid if the lowest empty way is beyond
them, so it is the first one beyond. -/
theorem Within.emptyWay?_eq (hwithin : set.Within e) {way : Nat}
    (hempty : set.emptyWay? = some way) (hbeyond : e.ways ≤ way) : way = e.ways := by
  obtain ⟨hlt, -, hbelow⟩ := List.findIdx?_eq_some_iff_getElem.mp hempty
  by_contra hne
  have hvalid := hbelow e.ways (by omega)
  simp only [Bool.not_eq_true', Bool.not_eq_false] at hvalid
  have hway := hwithin e.ways _ (List.getElem?_eq_getElem (by omega)) hvalid
  omega

end Faults

/-! ## Runs that go on after a failure -/

def survive (set : CacheSet) (e : Encoding) (policy : VictimPolicy) (tag : UInt64) : CacheSet :=
  (runInPlace (accessInPlace e policy tag) set).2

/-- What a run in place leaves if its failures are survived. -/
def survivor (set : CacheSet) (e : Encoding) (policy : VictimPolicy) (tags : List UInt64) :
    CacheSet :=
  tags.foldl (fun set tag => set.survive e policy tag) set

theorem survivor_append_singleton (set : CacheSet) (e : Encoding) (policy : VictimPolicy)
    (past : List UInt64) (tag : UInt64) :
    set.survivor e policy (past ++ [tag]) = (set.survivor e policy past).survive e policy tag := by
  simp [survivor]

theorem Within.survive_cases {e : Encoding} {set : CacheSet} (hwithin : set.Within e)
    (policy : VictimPolicy) (tag : UInt64) :
    (∃ access, set.Accesses e policy tag access ∧ set.survive e policy tag = access.after) ∨
      ∃ fault, set.Faults e policy tag fault ∧ set.survive e policy tag = set := by
  rw [survive, runInPlace_accessInPlace]
  rcases hwithin.accesses_or_faults policy tag with ⟨access, haccess⟩ | ⟨fault, hfaults⟩
  · left
    rw [access_of_accesses haccess]
    exact ⟨access, haccess, rfl⟩
  · right
    rw [access_of_faults hfaults]
    exact ⟨fault, hfaults, rfl⟩

theorem Within.survivor {e : Encoding} {set : CacheSet} (hwithin : set.Within e)
    (policy : VictimPolicy) (tags : List UInt64) : (set.survivor e policy tags).Within e := by
  induction tags using List.reverseRecOn with
  | nil => exact hwithin
  | append_singleton past tag ih =>
      rw [survivor_append_singleton]
      rcases ih.survive_cases policy tag with ⟨access, haccess, hafter⟩ | ⟨fault, -, hsame⟩
      · rw [hafter]
        exact ih.after haccess
      · rwa [hsame]

theorem invariant_of_survivor {e : Encoding} {policy : VictimPolicy}
    (Inv : List UInt64 → CacheSet → Prop)
    (haccess : ∀ past set tag access, Inv past set → set.Accesses e policy tag access →
      Inv (past ++ [tag]) access.after)
    (hfaults : ∀ past set tag fault, Inv past set → set.Faults e policy tag fault →
      Inv (past ++ [tag]) set)
    {set : CacheSet} (hwithin : set.Within e) (hinv : Inv [] set) (tags : List UInt64) :
    Inv tags (set.survivor e policy tags) := by
  induction tags using List.reverseRecOn with
  | nil => exact hinv
  | append_singleton past tag ih =>
      rw [survivor_append_singleton]
      rcases (hwithin.survivor policy past).survive_cases policy tag with
        ⟨access, hserved, hafter⟩ | ⟨fault, hfault, hsame⟩
      · rw [hafter]
        exact haccess _ _ _ _ ih hserved
      · rw [hsame]
        exact hfaults _ _ _ _ ih hfault

theorem length_lines_survivor (e : Encoding) (policy : VictimPolicy) (index ways : Nat)
    (tags : List UInt64) : ((empty index ways).survivor e policy tags).lines.length = ways :=
  invariant_of_survivor (fun _ set => set.lines.length = ways)
    (fun _ _ _ _ hlength haccess => haccess.length_lines.trans hlength)
    (fun _ _ _ _ hlength _ => hlength)
    (within_empty e index ways) (length_lines_empty index ways) tags

/-! ## More ways than the encoding has -/

/-- The first distinct tags, as many as the encoding has ways. -/
def keptTags (e : Encoding) (history : List UInt64) : List UInt64 :=
  (firstTags history).take e.ways

theorem length_keptTags_le (e : Encoding) (history : List UInt64) :
    (keptTags e history).length ≤ e.ways :=
  List.length_take_le _ _

theorem keptTags_isPrefix (e : Encoding) (earlier later : List UInt64) :
    keptTags e earlier <+: keptTags e (earlier ++ later) := by
  have hfirst := firstTags_prefix earlier later
  exact hfirst.take e.ways

theorem keptTags_append (e : Encoding) (history : List UInt64) (tag : UInt64) :
    keptTags e (history ++ [tag]) =
      if tag ∈ keptTags e history ∨ (keptTags e history).length = e.ways then keptTags e history
      else keptTags e history ++ [tag] := by
  unfold keptTags
  by_cases hroom : (firstTags history).length < e.ways
  · have hlength : (firstTags history).length ≠ e.ways := Nat.ne_of_lt hroom
    rw [List.take_of_length_le (Nat.le_of_lt hroom)]
    by_cases hmem : tag ∈ history
    · rw [firstTags_append_of_mem hmem, List.take_of_length_le (Nat.le_of_lt hroom)]
      simp [hmem]
    · rw [firstTags_append_of_notMem hmem, List.take_of_length_le (by simpa using hroom)]
      simp [hmem, hlength]
  · have hlength : ((firstTags history).take e.ways).length = e.ways := by
      rw [List.length_take]
      omega
    rw [if_pos (Or.inr hlength)]
    exact (List.IsPrefix.eq_of_length_le (keptTags_isPrefix e history [tag])
      (hlength.symm ▸ length_keptTags_le e _)).symm

/-- The first tags fill the ways of the encoding in order and stay there, and
the ways beyond stay empty. -/
def KeepsFirst (e : Encoding) (ways : Nat) (history : List UInt64) (set : CacheSet) : Prop :=
  set.lines = (keptTags e history).map Line.fetched ++
    List.replicate (ways - (keptTags e history).length) Line.empty

section KeepsFirst

variable {e : Encoding} {ways : Nat} {history : List UInt64} {set : CacheSet} {tag : UInt64}

theorem keepsFirst_empty (e : Encoding) (index ways : Nat) :
    (empty index ways).KeepsFirst e ways [] := by
  simp [KeepsFirst, keptTags, empty]

theorem KeepsFirst.exists_holdsAt_iff (hkeeps : set.KeepsFirst e ways history) (tag : UInt64) :
    (∃ way, set.HoldsAt way tag) ↔ tag ∈ keptTags e history := by
  unfold HoldsAt
  rw [← List.mem_iff_getElem?, hkeeps]
  simp [Line.fetched, Line.empty, List.mem_replicate]

theorem KeepsFirst.probe_eq_none_iff (hkeeps : set.KeepsFirst e ways history) (tag : UInt64) :
    set.probe tag = none ↔ tag ∉ keptTags e history := by
  rw [CacheSet.probe_eq_none_iff, ← hkeeps.exists_holdsAt_iff, not_exists]

theorem KeepsFirst.emptyWay?_eq (hkeeps : set.KeepsFirst e ways history) (hmore : e.ways < ways) :
    set.emptyWay? = some (keptTags e history).length := by
  have hle := length_keptTags_le e history
  have hvalid : ((keptTags e history).map Line.fetched).findIdx? (! ·.valid) = none := by
    simp [Line.fetched]
  rw [emptyWay?, hkeeps, List.findIdx?_append, hvalid, List.findIdx?_replicate]
  simp [Line.empty, show 0 < ways - (keptTags e history).length by omega]

theorem KeepsFirst.after_access (hkeeps : set.KeepsFirst e ways history) (hmore : e.ways < ways)
    {access : Access CacheSet} (haccess : set.Accesses e .invalidFirst tag access) :
    access.after.KeepsFirst e ways (history ++ [tag]) := by
  have hempty := hkeeps.emptyWay?_eq hmore
  unfold KeepsFirst
  rw [keptTags_append]
  cases haccess with
  | hit hpattern hprobe =>
      have hheld := (hkeeps.exists_holdsAt_iff tag).mp ⟨_, holdsAt_of_probe hprobe⟩
      rwa [if_pos (Or.inl hheld)]
  | @miss way p line hpattern hline hprobe hfills =>
      have hway : way = (keptTags e history).length := by
        rcases hfills with ⟨-, hfirst⟩ | ⟨hpolicy, -⟩
        · rw [hempty] at hfirst
          exact (Option.some.inj hfirst).symm
        · simp [hempty] at hpolicy
      subst way
      have hlt := Encoding.way_lt_of_getElem?_patterns hpattern
      rw [if_neg (not_or.mpr ⟨(hkeeps.probe_eq_none_iff tag).mp hprobe, Nat.ne_of_lt hlt⟩)]
      -- The filled way is the first of the empty ones.
      change set.lines.set _ _ = _
      rw [hkeeps, show ways - (keptTags e history).length =
        ways - (keptTags e history ++ [tag]).length + 1 by simp; omega, List.replicate_succ]
      simp

theorem KeepsFirst.faults_iff (hkeeps : set.KeepsFirst e ways history) (hmore : e.ways < ways)
    (fault : OutOfRange) :
    set.Faults e .invalidFirst tag fault ↔
      tag ∉ keptTags e (history ++ [tag]) ∧ fault = ⟨e.ways, e.ways⟩ := by
  have hempty := hkeeps.emptyWay?_eq hmore
  have hle := length_keptTags_le e history
  have hlate : tag ∉ keptTags e (history ++ [tag]) ↔
      set.probe tag = none ∧ (keptTags e history).length = e.ways := by
    rw [hkeeps.probe_eq_none_iff, keptTags_append]
    split <;> simp <;> tauto
  rw [hlate]
  constructor
  · intro hfaults
    cases hfaults with
    | @emptyWay way hprobe hpolicy hfirst hbeyond =>
        rw [hempty] at hfirst
        obtain rfl := Option.some.inj hfirst
        have hfull := Nat.le_antisymm hle hbeyond
        exact ⟨⟨hprobe, hfull⟩, by rw [hfull]⟩
    | victim hprobe hpolicy hbeyond => simp [hempty] at hpolicy
  · rintro ⟨⟨hprobe, hfull⟩, rfl⟩
    exact .emptyWay hprobe rfl (hfull ▸ hempty) (Nat.le_refl _)

theorem KeepsFirst.after_fault (hkeeps : set.KeepsFirst e ways history) (hmore : e.ways < ways)
    {fault : OutOfRange} (hfaults : set.Faults e .invalidFirst tag fault) :
    set.KeepsFirst e ways (history ++ [tag]) := by
  have hlate := ((hkeeps.faults_iff hmore fault).mp hfaults).1
  rw [keptTags_append] at hlate
  unfold KeepsFirst
  rw [keptTags_append]
  split at hlate
  next hkept => rwa [if_pos hkept]
  next => simp at hlate

end KeepsFirst

theorem survivor_keepsFirst {e : Encoding} {ways : Nat} (hmore : e.ways < ways) (index : Nat)
    (tags : List UInt64) :
    ((empty index ways).survivor e .invalidFirst tags).KeepsFirst e ways tags :=
  invariant_of_survivor (fun past set => set.KeepsFirst e ways past)
    (fun _ _ _ _ hkeeps haccess => hkeeps.after_access hmore haccess)
    (fun _ _ _ _ hkeeps hfaults => hkeeps.after_fault hmore hfaults)
    (within_empty e index ways) (keepsFirst_empty e index ways) tags

/-! ## All widths -/

/-- How a set of `ways` ways serves the next access, whatever the width of the
encoding. -/
structure Withstands (e : Encoding) (policy : VictimPolicy) (ways : Nat) (set : CacheSet) :
    Prop where
  length_lines : set.lines.length = ways
  /-- An access fails exactly if the tag is absent and the empty way to fill is
  beyond the encoding, or the victim is beyond the set. -/
  error_iff : ∀ tag fault,
    set.access e policy tag = .error fault ↔
      (∀ way, ¬ set.HoldsAt way tag) ∧
        ((policy = .invalidFirst ∧
            ∃ way, set.emptyWay? = some way ∧ e.ways ≤ way ∧ fault = ⟨e.ways, way⟩) ∨
          ((policy = .tree ∨ set.emptyWay? = none) ∧
            ways ≤ e.victim set.state ∧ fault = ⟨ways, e.victim set.state⟩))
  emptyWay_eq : ∀ way, set.emptyWay? = some way → e.ways ≤ way → way = e.ways
  hits : ∀ tag, (∃ way, set.HoldsAt way tag) →
    ∃ access, set.access e policy tag = .ok access ∧ access.outcome.isHit = true
  within : ∀ way line, set.lines[way]? = some line → line.valid = true → way < e.ways
  /-- What fails does so in place, too, and has assigned nothing by then. -/
  unchanged : ∀ tag fault, set.access e policy tag = .error fault →
    runInPlace (accessInPlace e policy tag) set = (.error fault, set)
  serves : ways = e.ways → ∀ tag, ∃ access, set.access e policy tag = .ok access

theorem Within.exists_hit {e : Encoding} {set : CacheSet} (hwithin : set.Within e)
    (policy : VictimPolicy) {tag : UInt64} (hheld : ∃ way, set.HoldsAt way tag) :
    ∃ access, set.access e policy tag = .ok access ∧ access.outcome.isHit = true := by
  obtain ⟨way, hprobe⟩ := Option.isSome_iff_exists.mp ((set.probe_isSome_iff tag).mpr hheld)
  rcases hwithin.accesses_or_faults policy tag with ⟨access, haccess⟩ | ⟨fault, hfaults⟩
  · exact ⟨access, access_of_accesses haccess, haccess.isHit_iff.mpr hheld⟩
  · rw [hfaults.probe_eq_none] at hprobe
    contradiction

theorem faults_iff (e : Encoding) (policy : VictimPolicy) (set : CacheSet) (tag : UInt64)
    (fault : OutOfRange) :
    set.Faults e policy tag fault ↔
      (∀ way, ¬ set.HoldsAt way tag) ∧
        ((policy = .invalidFirst ∧
            ∃ way, set.emptyWay? = some way ∧ e.ways ≤ way ∧ fault = ⟨e.ways, way⟩) ∨
          ((policy = .tree ∨ set.emptyWay? = none) ∧ set.lines.length ≤ e.victim set.state ∧
            fault = ⟨set.lines.length, e.victim set.state⟩)) := by
  rw [← probe_eq_none_iff]
  constructor
  · intro hfaults
    cases hfaults with
    | emptyWay hprobe hpolicy hempty hbeyond =>
        exact ⟨hprobe, Or.inl ⟨hpolicy, _, hempty, hbeyond, rfl⟩⟩
    | victim hprobe hpolicy hbeyond => exact ⟨hprobe, Or.inr ⟨hpolicy, hbeyond, rfl⟩⟩
  · rintro ⟨hprobe, ⟨hpolicy, way, hempty, hbeyond, rfl⟩ | ⟨hpolicy, hbeyond, rfl⟩⟩
    · exact .emptyWay hprobe hpolicy hempty hbeyond
    · exact .victim hprobe hpolicy hbeyond

theorem withstands_survivor (e : Encoding) (policy : VictimPolicy) (index ways : Nat)
    (history : List UInt64) :
    ((empty index ways).survivor e policy history).Withstands e policy ways := by
  have hlength := length_lines_survivor e policy index ways history
  have hwithin := (within_empty e index ways).survivor policy history
  constructor
  · exact hlength
  · intro tag fault
    rw [hwithin.access_eq_error_iff, faults_iff, hlength]
  · exact fun way hempty hbeyond => hwithin.emptyWay?_eq hempty hbeyond
  · exact fun tag hheld => hwithin.exists_hit policy hheld
  · exact hwithin
  · intro tag fault herror
    rw [runInPlace_accessInPlace, herror]
  · intro hsame tag
    obtain ⟨access, hok, -⟩ := exists_access (hlength.trans hsame) policy tag
    exact ⟨access, hok⟩

/-- A set may be used with an encoding of another width.  Accesses that fail
leave it as it was, and after any run in which they were survived it is known
which ones fail and how.  Under the invalid-first policy a set wider than the
encoding keeps the first tags for good, as many as the encoding has ways, and
fails for all others. -/
theorem failed_accesses_survived (e : Encoding) (policy : VictimPolicy) (index ways : Nat)
    (history : List UInt64) :
    let set := (empty index ways).survivor e policy history
    set.Withstands e policy ways ∧
      (policy = .invalidFirst → e.ways < ways →
        (∀ earlier later, history = earlier ++ later →
          ∀ tag ∈ (firstTags earlier).take e.ways, ∃ way, set.HoldsAt way tag) ∧
        ∀ tag, set.access e policy tag = .error ⟨e.ways, e.ways⟩ ↔
          tag ∉ (firstTags (history ++ [tag])).take e.ways) := by
  intro set
  refine ⟨withstands_survivor e policy index ways history, ?_⟩
  rintro rfl hmore
  have hkeeps : set.KeepsFirst e ways history := survivor_keepsFirst hmore index history
  have hwithin := (within_empty e index ways).survivor .invalidFirst history
  constructor
  · rintro earlier later rfl tag htag
    rw [hkeeps.exists_holdsAt_iff]
    exact (keptTags_isPrefix e earlier later).subset htag
  · intro tag
    rw [hwithin.access_eq_error_iff, hkeeps.faults_iff hmore]
    simp [keptTags]

end PseudoLru.CacheSet
