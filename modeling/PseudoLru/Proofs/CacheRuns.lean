import Mathlib.Tactic
import PseudoLru.Cache
import PseudoLru.Proofs.AddressFields
import PseudoLru.Proofs.SetAccess

/-!
# Runs on a cache

A valid geometry gives a fresh cache: its sets are numbered by the values of
the index field, and each is as wide as the shared encoding.  Both are kept by
every access, so no access of such a cache fails.  An access is one access to
the set that its index field selects; `Cache.served` is the cache afterwards,
with that set replaced and the tally advanced.
-/

namespace PseudoLru

namespace Geometry

theorem exists_exponent_of_isPowerOfTwo {count : Nat} (hpower : isPowerOfTwo count = true) :
    count = 2 ^ Word.trailingZeros count := by
  rw [isPowerOfTwo, beq_iff_eq, Nat.one_shiftLeft] at hpower
  exact hpower

theorem validate_eq_ok_iff (g : Geometry) :
    g.validate = .ok () ↔
      (isPowerOfTwo g.ways = true ∧ g.ways ≤ 64) ∧ isPowerOfTwo g.sets = true ∧
        g.offsetBits + g.indexBits ≤ 64 := by
  unfold validate
  split
  next hways => simp [hways]
  next hways =>
    rw [not_not] at hways
    split
    next hsets => simp [hsets]
    next hsets =>
      rw [not_not] at hsets
      split
      next hwidth => simp [hwidth]
      next hwidth => simpa [hways, hsets] using hwidth

theorem sets_eq_two_pow {g : Geometry} (hvalid : g.validate = .ok ()) :
    g.sets = 2 ^ g.indexBits :=
  exists_exponent_of_isPowerOfTwo ((validate_eq_ok_iff g).mp hvalid).2.1

end Geometry

namespace Encoding

theorem exists_ofWays {ways : Nat} (hpower : Geometry.isPowerOfTwo ways = true)
    (hways : ways ≤ 64) : ∃ e, ofWays ways = .ok e ∧ e.ways = ways := by
  have hexponent := Geometry.exists_exponent_of_isPowerOfTwo hpower
  have hlevels : Word.trailingZeros ways < 7 := by
    rw [← Nat.pow_lt_pow_iff_right (a := 2) (by decide), ← hexponent]
    omega
  have hfound : (levels? ways).isSome = true := by
    rw [levels?, List.find?_isSome]
    refine ⟨_, List.mem_range.mpr hlevels, ?_⟩
    rw [Nat.one_shiftLeft, ← hexponent, beq_self_eq_true]
  unfold ofWays
  split
  next levels hsome =>
    exact ⟨_, rfl, one_shiftLeft_of_levels?_eq_some hsome⟩
  next hnone =>
    rw [hnone] at hfound
    contradiction

end Encoding

namespace Cache

/-- The number of the set that an address selects. -/
def indexOf (cache : Cache) (address : UInt64) : Nat :=
  (cache.layout.decode address).index.toNat

/-- The cache after an access to the set of this number. -/
def served (cache : Cache) (index : Nat) (inSet : Access CacheSet) : Cache where
  geometry := cache.geometry
  encoding := cache.encoding
  layout := cache.layout
  sets := cache.sets.setIfInBounds index inSet.after
  tally := cache.tally.record inSet.outcome.isHit
  dumpSets := cache.dumpSets

structure IsFresh (g : Geometry) (cache : Cache) : Prop where
  geometry_eq : cache.geometry = g
  ways_eq : cache.encoding.ways = g.ways
  offsetBits_eq : cache.layout.offsetBits = g.offsetBits
  indexBits_eq : cache.layout.indexBits = g.indexBits
  sets_eq : cache.sets = Array.ofFn fun index : Fin g.sets => CacheSet.empty index g.ways
  tally_eq : cache.tally = {}

/-- Every index field selects a set, and every set is as wide as the encoding
and knows its number. -/
structure WellFormed (cache : Cache) : Prop where
  size_eq : cache.sets.size = 2 ^ cache.layout.indexBits
  length_lines : ∀ (index : Nat) (set : CacheSet), cache.sets[index]? = some set →
    set.lines.length = cache.encoding.ways
  index_eq : ∀ (index : Nat) (set : CacheSet), cache.sets[index]? = some set →
    set.index = index

theorem exists_ofGeometry {g : Geometry} (hvalid : g.validate = .ok ()) :
    ∃ cache, ofGeometry g = .ok cache ∧ cache.IsFresh g := by
  obtain ⟨⟨hpower, hways⟩, -, hfits⟩ := (Geometry.validate_eq_ok_iff g).mp hvalid
  obtain ⟨e, he, hwidth⟩ := Encoding.exists_ofWays hpower hways
  have hok : ofGeometry g = .ok {
      geometry := g
      encoding := e
      layout := ⟨g.offsetBits, g.indexBits, hfits⟩
      sets := Array.ofFn fun index : Fin g.sets => CacheSet.empty index g.ways
      tally := {}
      dumpSets := false } := by
    simp only [ofGeometry, hvalid, he, AddressLayout.ofWidths_of_le hfits, bind, Except.bind,
      pure, Except.pure]
  exact ⟨_, hok, rfl, hwidth, rfl, rfl, rfl, rfl⟩

theorem IsFresh.size_sets {g : Geometry} {cache : Cache} (hfresh : cache.IsFresh g) :
    cache.sets.size = g.sets := by
  rw [hfresh.sets_eq, Array.size_ofFn]

theorem IsFresh.wellFormed {g : Geometry} {cache : Cache} (hvalid : g.validate = .ok ())
    (hfresh : cache.IsFresh g) : cache.WellFormed := by
  have hempty : ∀ index set, cache.sets[index]? = some set →
      set = CacheSet.empty index g.ways := by
    intro index set hset
    rw [hfresh.sets_eq, Array.getElem?_ofFn] at hset
    split at hset
    next => exact (Option.some.inj hset).symm
    next => cases hset
  constructor
  · rw [hfresh.size_sets, hfresh.indexBits_eq, Geometry.sets_eq_two_pow hvalid]
  · intro index set hset
    rw [hempty index set hset, CacheSet.length_lines_empty, hfresh.ways_eq]
  · intro index set hset
    rw [hempty index set hset]
    rfl

theorem WellFormed.indexOf_lt {cache : Cache} (hwell : cache.WellFormed) (address : UInt64) :
    cache.indexOf address < cache.sets.size := by
  rw [hwell.size_eq]
  exact cache.layout.index_decode_lt address

theorem access_of_set {cache : Cache} {address : UInt64} {set : CacheSet}
    {inSet : Access CacheSet} (hset : cache.sets[cache.indexOf address]? = some set)
    (haccess : set.access cache.encoding cache.geometry.policy
      (cache.layout.decode address).tag = .ok inSet) :
    cache.access address =
      .ok ⟨inSet.outcome, inSet.event, cache.served (cache.indexOf address) inSet⟩ := by
  obtain ⟨hlt, rfl⟩ := Array.getElem?_eq_some_iff.mp hset
  have hin : (cache.layout.decode address).index.toNat < cache.sets.size := hlt
  simp only [indexOf] at haccess
  simp only [access, hin, haccess, served, indexOf, Array.setIfInBounds, ↓reduceDIte, bind,
    Except.bind, pure, Except.pure]

theorem WellFormed.exists_access {cache : Cache} (hwell : cache.WellFormed)
    (address : UInt64) :
    ∃ set inSet, cache.sets[cache.indexOf address]? = some set ∧
      set.access cache.encoding cache.geometry.policy (cache.layout.decode address).tag =
        .ok inSet ∧
      set.Accesses cache.encoding cache.geometry.policy (cache.layout.decode address).tag inSet ∧
      cache.access address =
        .ok ⟨inSet.outcome, inSet.event, cache.served (cache.indexOf address) inSet⟩ := by
  have hset := Array.getElem?_eq_getElem (hwell.indexOf_lt address)
  obtain ⟨inSet, hok, haccess⟩ := CacheSet.exists_access (hwell.length_lines _ _ hset)
    cache.geometry.policy (cache.layout.decode address).tag
  exact ⟨_, inSet, hset, hok, haccess, access_of_set hset hok⟩

section Served

variable {cache : Cache} {address : UInt64} {set : CacheSet} {inSet : Access CacheSet}

theorem getElem?_sets_served_self (hset : cache.sets[cache.indexOf address]? = some set) :
    (cache.served (cache.indexOf address) inSet).sets[cache.indexOf address]? =
      some inSet.after := by
  obtain ⟨hlt, -⟩ := Array.getElem?_eq_some_iff.mp hset
  exact Array.getElem?_setIfInBounds_self_of_lt hlt

theorem getElem?_sets_served_of_ne {index other : Nat} (hother : index ≠ other) :
    (cache.served index inSet).sets[other]? = cache.sets[other]? :=
  Array.getElem?_setIfInBounds_ne hother

/-- What holds of every set of a cache, and of the accessed set afterwards,
holds of every set afterwards. -/
theorem forall_sets_served {P : Nat → CacheSet → Prop}
    (hbefore : ∀ index set, cache.sets[index]? = some set → P index set)
    (hafter : P (cache.indexOf address) inSet.after)
    (hset : cache.sets[cache.indexOf address]? = some set) (index : Nat) (other : CacheSet)
    (hother : (cache.served (cache.indexOf address) inSet).sets[index]? = some other) :
    P index other := by
  by_cases hindex : cache.indexOf address = index
  · subst hindex
    rw [getElem?_sets_served_self hset] at hother
    obtain rfl := Option.some.inj hother
    exact hafter
  · rw [getElem?_sets_served_of_ne hindex] at hother
    exact hbefore index other hother

theorem WellFormed.served (hwell : cache.WellFormed)
    (hset : cache.sets[cache.indexOf address]? = some set)
    (haccess : set.Accesses cache.encoding cache.geometry.policy
      (cache.layout.decode address).tag inSet) :
    (cache.served (cache.indexOf address) inSet).WellFormed where
  size_eq := Array.size_setIfInBounds.trans hwell.size_eq
  length_lines := by
    apply forall_sets_served hwell.length_lines _ hset
    rw [haccess.length_lines]
    exact hwell.length_lines _ _ hset
  index_eq := by
    apply forall_sets_served hwell.index_eq _ hset
    rw [haccess.index_after]
    exact hwell.index_eq _ _ hset

end Served

/-- The first access of a run, and the run of the cache that it leaves. -/
theorem WellFormed.exists_of_replay_cons {cache : Cache} (hwell : cache.WellFormed)
    {address : UInt64} {rest : List UInt64} {run : Run Cache}
    (hrun : cache.replay (address :: rest) = .ok run) :
    ∃ (set : CacheSet) (inSet : Access CacheSet) (after : Run Cache),
      cache.sets[cache.indexOf address]? = some set ∧
      set.access cache.encoding cache.geometry.policy (cache.layout.decode address).tag =
        .ok inSet ∧
      set.Accesses cache.encoding cache.geometry.policy (cache.layout.decode address).tag inSet ∧
      (cache.served (cache.indexOf address) inSet).WellFormed ∧
      (cache.served (cache.indexOf address) inSet).replay rest = .ok after ∧
      run = Run.cons
        ⟨inSet.outcome, inSet.event, cache.served (cache.indexOf address) inSet⟩ after := by
  obtain ⟨access, after, hstep, hrest, rfl⟩ := Run.exists_of_ofRequests_cons hrun
  obtain ⟨set, inSet, hset, hok, haccess, hserves⟩ := hwell.exists_access address
  rw [hserves] at hstep
  obtain rfl := Except.ok.inj hstep
  exact ⟨set, inSet, after, hset, hok, haccess, hwell.served hset haccess, hrest, rfl⟩

theorem exists_replay (Inv : List UInt64 → List Outcome → Cache → Prop)
    (hstep : ∀ past outcomes (cache : Cache) address set inSet, cache.WellFormed →
      Inv past outcomes cache → cache.sets[cache.indexOf address]? = some set →
        set.Accesses cache.encoding cache.geometry.policy (cache.layout.decode address).tag
          inSet →
          Inv (past ++ [address]) (outcomes ++ [inSet.outcome])
            (cache.served (cache.indexOf address) inSet))
    {cache : Cache} (hwell : cache.WellFormed) (hinv : Inv [] [] cache)
    (addresses : List UInt64) :
    ∃ run, cache.replay addresses = .ok run ∧ run.after.WellFormed ∧
      Inv addresses run.outcomes run.after := by
  have hboth : ∀ past outcomes (cache : Cache) address,
      (cache.WellFormed ∧ Inv past outcomes cache) →
        ∃ access, cache.access address = .ok access ∧
          (access.after.WellFormed ∧
            Inv (past ++ [address]) (outcomes ++ [access.outcome]) access.after) := by
    rintro past outcomes cache address ⟨hwell, hcache⟩
    obtain ⟨set, inSet, hset, -, haccess, hok⟩ := hwell.exists_access address
    exact ⟨_, hok, hwell.served hset haccess,
      hstep past outcomes cache address set inSet hwell hcache hset haccess⟩
  obtain ⟨run, hrun, hlast, hcache⟩ :=
    Run.exists_ofRequests_of_invariant
      (fun past outcomes cache => cache.WellFormed ∧ Inv past outcomes cache)
      hboth ⟨hwell, hinv⟩ addresses
  exact ⟨run, hrun, hlast, hcache⟩

theorem WellFormed.exists_run {cache : Cache} (hwell : cache.WellFormed)
    (addresses : List UInt64) : ∃ run, cache.replay addresses = .ok run := by
  obtain ⟨run, hrun, -⟩ :=
    exists_replay (fun _ _ _ => True) (fun _ _ _ _ _ _ _ _ _ _ => trivial) hwell trivial
      addresses
  exact ⟨run, hrun⟩

/-- An invariant of a run, proved with the run up to each access at hand. -/
theorem WellFormed.invariant_of_replay {start : Cache} (hwell : start.WellFormed)
    (Inv : List UInt64 → List Outcome → Cache → Prop) (hstart : Inv [] [] start)
    (hstep : ∀ past (before : Run Cache) address set inSet, start.replay past = .ok before →
      before.after.WellFormed → Inv past before.outcomes before.after →
        before.after.sets[before.after.indexOf address]? = some set →
          set.Accesses before.after.encoding before.after.geometry.policy
            (before.after.layout.decode address).tag inSet →
            Inv (past ++ [address]) (before.outcomes ++ [inSet.outcome])
              (before.after.served (before.after.indexOf address) inSet))
    {addresses : List UInt64} {run : Run Cache} (hrun : start.replay addresses = .ok run) :
    run.after.WellFormed ∧ Inv addresses run.outcomes run.after := by
  apply Run.invariant_of_ok
    (fun past outcomes cache => cache.WellFormed ∧ Inv past outcomes cache) ⟨hwell, hstart⟩ _ hrun
  rintro past before address access hbefore hserves ⟨hwell, hinv⟩
  obtain ⟨set, inSet, hset, -, haccess, hok⟩ := hwell.exists_access address
  rw [hok] at hserves
  obtain rfl := Except.ok.inj hserves
  exact ⟨hwell.served hset haccess, hstep past before address set inSet hbefore hwell hinv hset
    haccess⟩

theorem WellFormed.wellFormed_after {cache : Cache} (hwell : cache.WellFormed)
    {addresses : List UInt64} {run : Run Cache} (hrun : cache.replay addresses = .ok run) :
    run.after.WellFormed :=
  (hwell.invariant_of_replay (fun _ _ _ => True) trivial
    (fun _ _ _ _ _ _ _ _ _ _ => trivial) hrun).1

end Cache

end PseudoLru
