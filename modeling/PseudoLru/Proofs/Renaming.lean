import Mathlib.Tactic
import PseudoLru.Proofs.Soundness

/-!
# Renamed runs

A cache compares tags with each other and does nothing else with them, it reads
the number of a set only to find the set, and it never reads an offset.  So if
the sets are numbered anew, and in every set the tags are renamed such that
distinct ones stay distinct, then every access does the same as before under the
new names.

An empty line has a tag field too, and this field is not renamed.  A lookup must
not depend on it, since the new name of some tag may be what it holds.
-/

namespace PseudoLru

/-- New numbers for the sets, and for each set new names for its tags. -/
structure Renaming where
  set : Nat → Nat
  tag : Nat → UInt64 → UInt64

def Renaming.block (names : Renaming) (block : Block) : Block :=
  ⟨names.tag block.index block.tag, names.set block.index⟩

def AccessKind.rename (name : UInt64 → UInt64) : AccessKind → AccessKind
  | .hit => .hit
  | .miss evicted => .miss (evicted.map name)

def Outcome.rename (names : Renaming) (outcome : Outcome) : Outcome :=
  { outcome with
    kind := outcome.kind.rename (names.tag outcome.setIndex)
    setIndex := names.set outcome.setIndex }

@[simp] theorem Outcome.isHit_rename (names : Renaming) (outcome : Outcome) :
    (outcome.rename names).isHit = outcome.isHit := by
  cases hkind : outcome.kind <;> simp [rename, isHit, AccessKind.rename, hkind]

namespace Line

/-- A valid line holds its tag under the new name; an empty line stays as it
is. -/
def rename (name : UInt64 → UInt64) (line : Line) : Line :=
  if line.valid then fetched (name line.tag) else line

variable (name : UInt64 → UInt64)

@[simp] theorem rename_empty : empty.rename name = empty := rfl

@[simp] theorem rename_fetched (tag : UInt64) :
    (fetched tag).rename name = fetched (name tag) := rfl

@[simp] theorem valid_rename (line : Line) : (line.rename name).valid = line.valid := by
  cases hvalid : line.valid <;> simp [rename, hvalid, fetched]

@[simp] theorem resident?_rename (line : Line) :
    (line.rename name).resident? = line.resident?.map name := by
  cases hvalid : line.valid <;> simp [rename, resident?, hvalid, fetched]

end Line

namespace CacheSet

def rename (names : Renaming) (set : CacheSet) : CacheSet where
  index := names.set set.index
  lines := set.lines.map (Line.rename (names.tag set.index))
  state := set.state

@[simp] theorem rename_empty (names : Renaming) (index ways : Nat) :
    (empty index ways).rename names = empty (names.set index) ways := by
  simp [rename, empty]

theorem findIdx?_congr {α : Type} {p q : α → Bool} {xs : List α} (hsame : ∀ x ∈ xs, p x = q x) :
    xs.findIdx? p = xs.findIdx? q := by
  induction xs with
  | nil => rfl
  | cons x rest ih =>
      rw [List.findIdx?_cons, List.findIdx?_cons, hsame x List.mem_cons_self,
        ih fun y hy => hsame y (List.mem_cons_of_mem x hy)]

section Step

variable {names : Renaming} {set : CacheSet} {known : Set UInt64} {tag : UInt64}
  {e : Encoding} {policy : VictimPolicy} {access : Access CacheSet}

theorem emptyWay?_rename (names : Renaming) (set : CacheSet) :
    (set.rename names).emptyWay? = set.emptyWay? := by
  unfold emptyWay? rename
  rw [List.findIdx?_map]
  exact findIdx?_congr fun line _ => by simp

theorem fills_rename (names : Renaming) (set : CacheSet) (way : Nat) :
    (set.rename names).Fills e policy way ↔ set.Fills e policy way := by
  rw [Fills, Fills, emptyWay?_rename]
  rfl

/-- A lookup finds the new name of a tag where it found the tag. -/
theorem probe_rename (hnames : Set.InjOn (names.tag set.index) known)
    (hheld : ∀ way held, set.HoldsAt way held → held ∈ known) (htag : tag ∈ known) :
    (set.rename names).probe (names.tag set.index tag) = set.probe tag := by
  unfold probe rename
  rw [List.findIdx?_map]
  apply findIdx?_congr
  intro line hline
  rw [Function.comp_apply, Bool.eq_iff_iff, Line.holds_iff_resident?, Line.holds_iff_resident?,
    Line.resident?_rename, Option.map_eq_some_iff]
  constructor
  · rintro ⟨held, hresident, heq⟩
    obtain ⟨way, hway⟩ := List.mem_iff_getElem?.mp hline
    rw [← Line.holds_iff_resident?, Line.holds_iff_eq_fetched] at hresident
    subst hresident
    rw [hnames (hheld way held hway) htag heq]
    rfl
  · intro hresident
    exact ⟨tag, hresident, rfl⟩

/-- An access of the new name of a tag has the renamed outcome and leaves the
renamed set. -/
theorem Accesses.exists_renamed (haccess : set.Accesses e policy tag access)
    (hnames : Set.InjOn (names.tag set.index) known)
    (hheld : ∀ way held, set.HoldsAt way held → held ∈ known) (htag : tag ∈ known) :
    ∃ renamed, (set.rename names).Accesses e policy (names.tag set.index tag) renamed ∧
      renamed.outcome = access.outcome.rename names ∧
      renamed.after = access.after.rename names := by
  have hprobe' := probe_rename hnames hheld htag
  cases haccess with
  | hit hpattern hprobe =>
      rw [hprobe] at hprobe'
      exact ⟨_, .hit hpattern hprobe', rfl, rfl⟩
  | @miss way p line hpattern hline hprobe hfills =>
      rw [hprobe] at hprobe'
      have hline' : (set.rename names).lines[way]? =
          some (line.rename (names.tag set.index)) := by
        rw [rename, List.getElem?_map, hline, Option.map_some]
      refine ⟨_, .miss hpattern hline' hprobe' ((fills_rename names set way).mpr hfills), ?_, ?_⟩
      · simp [Outcome.rename, AccessKind.rename, rename]
      · simp [rename, List.map_set]

end Step

end CacheSet

namespace Cache

/-- The tags that an address of this layout can have. -/
def knownTags (layout : AddressLayout) : Set UInt64 := {tag | tag.toNat < 2 ^ layout.tagBits}

/-- The second cache is the first one under new names, but for the layout of
its addresses. -/
structure Renames (names : Renaming) (cache other : Cache) : Prop where
  encoding_eq : other.encoding = cache.encoding
  policy_eq : other.geometry.policy = cache.geometry.policy
  tally_eq : other.tally = cache.tally
  sets_eq :
    ∀ (index : Nat) (set : CacheSet), cache.sets[index]? = some set →
      other.sets[names.set index]? = some (set.rename names)
  known :
    ∀ (index : Nat) (set : CacheSet), cache.sets[index]? = some set →
      ∀ way tag, set.HoldsAt way tag → tag ∈ knownTags cache.layout

section Step

variable {names : Renaming} {cache other : Cache} {address address' : UInt64}

theorem Renames.served (hrenames : cache.Renames names other)
    (hsets : Set.InjOn names.set (Set.Iio cache.sets.size))
    (hindex : other.indexOf address' = names.set (cache.indexOf address))
    {set : CacheSet} {inSet renamed : Access CacheSet}
    (hset : cache.sets[cache.indexOf address]? = some set)
    (haccess : set.Accesses cache.encoding cache.geometry.policy (cache.tagOf address) inSet)
    (houtcome : renamed.outcome = inSet.outcome.rename names)
    (hafter : renamed.after = inSet.after.rename names) :
    (cache.served (cache.indexOf address) inSet).Renames names
      (other.served (other.indexOf address') renamed) where
  encoding_eq := hrenames.encoding_eq
  policy_eq := hrenames.policy_eq
  tally_eq := by
    rw [Cache.served, Cache.served, houtcome, Outcome.isHit_rename, hrenames.tally_eq]
  sets_eq := by
    have hselected := hrenames.sets_eq _ _ hset
    rw [← hindex] at hselected
    intro index before hbefore
    by_cases hsame : cache.indexOf address = index
    · subst hsame
      rw [getElem?_sets_served_self hset, Option.some.injEq] at hbefore
      rw [← hindex, getElem?_sets_served_self hselected, hafter, hbefore]
    · rw [getElem?_sets_served_of_ne hsame] at hbefore
      have hother : other.indexOf address' ≠ names.set index := by
        obtain ⟨hlt, -⟩ := Array.getElem?_eq_some_iff.mp hset
        obtain ⟨hlt', -⟩ := Array.getElem?_eq_some_iff.mp hbefore
        rw [hindex]
        exact hsets.ne hlt hlt' hsame
      rw [getElem?_sets_served_of_ne hother]
      exact hrenames.sets_eq index before hbefore
  known := by
    apply forall_sets_served hrenames.known _ hset
    intro way tag hheld
    by_cases hway : way = inSet.outcome.way
    · subst hway
      rw [(haccess.holdsAt_way_iff tag).mp hheld]
      exact cache.layout.tag_decode_lt address
    · rw [haccess.holdsAt_of_ne hway] at hheld
      exact hrenames.known _ _ hset way tag hheld

/-- Addresses whose blocks correspond have corresponding runs. -/
theorem Renames.exists_replay (hwell : cache.WellFormed) (hother : other.WellFormed)
    (hrenames : cache.Renames names other)
    (hsets : Set.InjOn names.set (Set.Iio cache.sets.size))
    (htags : ∀ index < cache.sets.size, Set.InjOn (names.tag index) (knownTags cache.layout))
    {Corresponds : UInt64 → UInt64 → Prop}
    (hblocks : ∀ address address', Corresponds address address' →
      other.blockOf address' = names.block (cache.blockOf address))
    {addresses renamed : List UInt64} (hlists : List.Forall₂ Corresponds addresses renamed) :
    ∃ run run', cache.replay addresses = .ok run ∧ other.replay renamed = .ok run' ∧
      run'.outcomes = run.outcomes.map (Outcome.rename names) ∧
      run.after.Renames names run'.after := by
  induction hlists generalizing cache other with
  | nil => exact ⟨Run.start cache, Run.start other, rfl, rfl, rfl, hrenames⟩
  | @cons address address' rest rest' hfirst _ ih =>
      have hblock := hblocks address address' hfirst
      obtain ⟨set, inSet, hset, -, haccess, hserves⟩ := hwell.exists_access address
      have hindex : other.indexOf address' = names.set (cache.indexOf address) :=
        congrArg Block.index hblock
      have htag : (other.layout.decode address').tag =
          names.tag (cache.indexOf address) (cache.tagOf address) := congrArg Block.tag hblock
      have hnumber := hwell.index_eq _ _ hset
      have hnames := htags _ (hwell.indexOf_lt address)
      rw [← hnumber] at hnames
      obtain ⟨inSet', haccess', houtcome, hafter⟩ := haccess.exists_renamed hnames
        (hrenames.known _ _ hset) (cache.layout.tag_decode_lt address)
      have hselected := hrenames.sets_eq _ _ hset
      rw [← hindex] at hselected
      rw [hnumber, ← tagOf, ← htag, ← hrenames.encoding_eq, ← hrenames.policy_eq] at haccess'
      have hserves' := access_of_set hselected (CacheSet.access_of_accesses haccess')
      have hnext := hrenames.served hsets hindex hset haccess houtcome hafter
      have hsize : (cache.served (cache.indexOf address) inSet).sets.size = cache.sets.size :=
        Array.size_setIfInBounds
      obtain ⟨run, run', hrun, hrun', houtcomes, hlast⟩ :=
        ih (hwell.served hset haccess) (hother.served hselected haccess') hnext
          (hsize ▸ hsets) (hsize ▸ htags) hblocks
      refine ⟨_, _, Run.ofRequests_cons_of_ok hserves hrun,
        Run.ofRequests_cons_of_ok hserves' hrun', ?_, hlast⟩
      rw [Run.cons, Run.cons, List.map_cons, houtcome, houtcomes]

end Step

theorem IsFresh.renames {names : Renaming} {g : Geometry} {offsetBits : Nat} {cache other : Cache}
    (hfresh : cache.IsFresh g) (hother : other.IsFresh { g with offsetBits })
    (hencoding : other.encoding = cache.encoding)
    (hsets : Set.MapsTo names.set (Set.Iio g.sets) (Set.Iio g.sets)) :
    cache.Renames names other where
  encoding_eq := hencoding
  policy_eq := by rw [hother.geometry_eq, hfresh.geometry_eq]
  tally_eq := by rw [hother.tally_eq, hfresh.tally_eq]
  sets_eq := by
    intro index set hset
    obtain ⟨hlt, -⟩ := Array.getElem?_eq_some_iff.mp hset
    rw [hfresh.size_sets] at hlt
    rw [hfresh.getElem?_sets hlt, Option.some.injEq] at hset
    rw [hother.getElem?_sets (hsets hlt), ← hset, CacheSet.rename_empty, hencoding]
  known := by
    intro index set hset way tag hheld
    obtain ⟨hlt, -⟩ := Array.getElem?_eq_some_iff.mp hset
    rw [hfresh.size_sets] at hlt
    rw [hfresh.getElem?_sets hlt, Option.some.injEq] at hset
    rw [← hset] at hheld
    exact absurd hheld (CacheSet.not_holdsAt_empty _ _ way tag)

/-- Two fresh caches of one geometry but for the width of the offset run on two
lists of addresses.  If the second list has the blocks of the first under new
names, a permutation of the sets and for each set an injection of its tags, then
each access has the same outcome under the new names, and the tallies agree. -/
theorem renamed_runs_agree (g : Geometry) (offsetBits : Nat) (names : Renaming)
    (hvalid : g.validate = .ok ()) (hvalid' : { g with offsetBits }.validate = .ok ())
    (hsets : Set.BijOn names.set (Set.Iio g.sets) (Set.Iio g.sets))
    (htags : ∀ index < g.sets, Set.InjOn (names.tag index)
      {tag | tag.toNat < 2 ^ (64 - (g.offsetBits + g.indexBits))}) :
    ∃ cache other, ofGeometry g = .ok cache ∧ ofGeometry { g with offsetBits } = .ok other ∧
      ∀ addresses renamed : List UInt64,
        List.Forall₂ (fun address address' =>
          other.blockOf address' = names.block (cache.blockOf address)) addresses renamed →
        ∃ run run', cache.replay addresses = .ok run ∧ other.replay renamed = .ok run' ∧
          run.outcomes.length = addresses.length ∧
          run'.outcomes = run.outcomes.map (Outcome.rename names) ∧
          run'.after.tally = run.after.tally := by
  obtain ⟨cache, hcache, hfresh⟩ := exists_ofGeometry hvalid
  obtain ⟨other, hother, hfresh'⟩ := exists_ofGeometry hvalid'
  have hencoding : other.encoding = cache.encoding := by
    have hsame := (parts_of_ofGeometry hother).1
    rw [(parts_of_ofGeometry hcache).1] at hsame
    exact (Except.ok.inj hsame).symm
  have hrenames : cache.Renames names other := hfresh.renames hfresh' hencoding hsets.mapsTo
  refine ⟨cache, other, hcache, hother, ?_⟩
  intro addresses renamed hlists
  have hknown : {tag : UInt64 | tag.toNat < 2 ^ (64 - (g.offsetBits + g.indexBits))} =
      knownTags cache.layout := by
    rw [knownTags, AddressLayout.tagBits, AddressLayout.tagShift, hfresh.offsetBits_eq,
      hfresh.indexBits_eq]
  rw [hknown, ← hfresh.size_sets] at htags
  have hinjective := hsets.injOn
  rw [← hfresh.size_sets] at hinjective
  obtain ⟨run, run', hrun, hrun', houtcomes, hafter⟩ :=
    hrenames.exists_replay (hfresh.wellFormed hvalid) (hfresh'.wellFormed hvalid') hinjective
      htags (fun _ _ hblock => hblock) hlists
  exact ⟨run, run', hrun, hrun', Run.length_outcomes_of_ok hrun, houtcomes, hafter.tally_eq⟩

/-- The two sets change places, and the tag 1 is renamed to 0, which is what the
tag field of an empty line holds. -/
theorem swapped_sets_run_agrees :
    ∃ cache other run run',
      ofGeometry { ways := 2, sets := 2 } = .ok cache ∧
      ofGeometry { ways := 2, sets := 2, offsetBits := 0 } = .ok other ∧
      cache.replay [128, 256, 192, 258, 133] = .ok run ∧
      other.replay [1, 3, 0, 3, 1] = .ok run' ∧
      run'.outcomes = run.outcomes.map
        (Outcome.rename ⟨fun index => 1 - index, fun _ tag => tag - 1⟩) ∧
      run'.after.tally = run.after.tally := by
  have hsets : Set.BijOn (fun index => 1 - index) (Set.Iio 2) (Set.Iio 2) := by
    have hback : ∀ index ∈ Set.Iio 2, 1 - (1 - index) = index := by
      intro index hindex
      rw [Set.mem_Iio] at hindex
      omega
    have hmaps : Set.MapsTo (fun index => 1 - index) (Set.Iio 2) (Set.Iio 2) := by
      intro index _
      change 1 - index < 2
      omega
    exact Set.InvOn.bijOn ⟨hback, hback⟩ hmaps hmaps
  have htags : Function.Injective fun tag : UInt64 => tag - 1 :=
    fun _ _ heq => (UInt64.sub_left_inj 1).mp heq
  obtain ⟨cache, other, hcache, hother, hagree⟩ :=
    renamed_runs_agree { ways := 2, sets := 2 } 0
      ⟨fun index => 1 - index, fun _ tag => tag - 1⟩ rfl rfl hsets
      (fun _ _ => htags.injOn)
  obtain rfl := Except.ok.inj hcache
  obtain rfl := Except.ok.inj hother
  obtain ⟨run, run', hrun, hrun', -, houtcomes, htally⟩ :=
    hagree [128, 256, 192, 258, 133] [1, 3, 0, 3, 1] (by decide)
  exact ⟨_, _, run, run', rfl, rfl, hrun, hrun', houtcomes, htally⟩

end Cache

end PseudoLru
