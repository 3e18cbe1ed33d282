import Mathlib.Tactic
import PseudoLru.Proofs.ReuseDistance
import PseudoLru.Proofs.Residency
import PseudoLru.Proofs.StateHistory

/-!
# Sound caches

A cache is built exactly for the valid geometries, and a geometry that is
refused is refused by its own check.  A cache that was built is sound after any
number of accesses: every address selects a set, every search for a victim
finds a way, and no number of a way or a set is ever out of range, so no
access fails.
-/

namespace PseudoLru

theorem Encoding.Records.toNat_lt {e : Encoding} {used : List Nat} {state : UInt64}
    (hrecords : e.Records used state) : state.toNat < 2 ^ (e.ways - 1) :=
  Nat.lt_pow_two_of_testBit _ hrecords.above

namespace CacheSet

/-- What is true of every set of a cache, at any time. -/
structure Sound (g : Geometry) (tagBits index : Nat) (set : CacheSet) : Prop where
  index_eq : set.index = index
  length_lines : set.lines.length = g.ways
  state_lt : set.state.toNat < 2 ^ (g.ways - 1)
  distinct : set.Distinct
  tag_lt : ∀ way tag, set.HoldsAt way tag → tag.toNat < 2 ^ tagBits

end CacheSet

namespace Cache

theorem parts_of_ofGeometry {g : Geometry} {cache : Cache} (hcache : ofGeometry g = .ok cache) :
    Encoding.ofWays g.ways = .ok cache.encoding ∧
      AddressLayout.ofWidths g.offsetBits g.indexBits = .ok cache.layout := by
  simp only [ofGeometry, bind, Except.bind, pure, Except.pure] at hcache
  cases hvalid : g.validate with
  | error error => simp [hvalid] at hcache
  | ok =>
      cases hencoding : Encoding.ofWays g.ways with
      | error error => simp [hvalid, hencoding] at hcache
      | ok encoding =>
          cases hlayout : AddressLayout.ofWidths g.offsetBits g.indexBits with
          | error error => simp [hvalid, hencoding, hlayout] at hcache
          | ok layout =>
              simp only [hvalid, hencoding, hlayout] at hcache
              obtain rfl := Except.ok.inj hcache
              exact ⟨rfl, rfl⟩

theorem ofGeometry_eq_error_iff (g : Geometry) (error : GeometryError) :
    ofGeometry g = .error error ↔ g.validate = .error error := by
  cases hvalid : g.validate with
  | error refusal => simp [ofGeometry, hvalid, bind, Except.bind]
  | ok =>
      obtain ⟨cache, hcache, -⟩ := exists_ofGeometry hvalid
      simp [hcache]

theorem isFresh_of_ofGeometry {g : Geometry} {cache : Cache} (hcache : ofGeometry g = .ok cache) :
    g.validate = .ok () ∧ cache.IsFresh g := by
  cases hvalid : g.validate with
  | error refusal =>
      rw [(ofGeometry_eq_error_iff g refusal).mpr hvalid] at hcache
      contradiction
  | ok =>
      obtain ⟨built, hbuilt, hfresh⟩ := exists_ofGeometry hvalid
      rw [hcache] at hbuilt
      obtain rfl := Except.ok.inj hbuilt
      exact ⟨rfl, hfresh⟩

/-- What is true of every cache of a geometry, after any accesses. -/
structure Sound (g : Geometry) (accesses : Nat) (cache : Cache) : Prop where
  encoding_eq : Encoding.ofWays g.ways = .ok cache.encoding
  layout_eq : AddressLayout.ofWidths g.offsetBits g.indexBits = .ok cache.layout
  size_sets : cache.sets.size = g.sets
  sets_eq : g.sets = 2 ^ g.indexBits
  ways_eq : cache.encoding.ways = g.ways
  indexOf_lt : ∀ address, cache.indexOf address < cache.sets.size
  findIdx?_leads :
    ∀ state, cache.encoding.patterns.findIdx? (·.leads state) = some (cache.encoding.victim state)
  sound_sets :
    ∀ (index : Nat) (set : CacheSet), cache.sets[index]? = some set →
      set.Sound g cache.layout.tagBits index
  accesses_eq : cache.tally.hits + cache.tally.misses = accesses

section Runs

variable {g : Geometry} {cache : Cache} {addresses : List UInt64} {run : Run Cache}

theorem WellFormed.accesses_eq (hwell : cache.WellFormed)
    (hrun : cache.replay addresses = .ok run) :
    run.after.tally.accesses = cache.tally.accesses + addresses.length :=
  (hwell.invariant_of_replay
    (fun past _ after => after.tally.accesses = cache.tally.accesses + past.length) rfl
    (fun past before _ _ inSet _ _ hbefore _ _ => by
      rw [Cache.served, Tally.accesses_record, hbefore, List.length_append]
      rfl)
    hrun).2

theorem WellFormed.hits_eq (hwell : cache.WellFormed)
    (hrun : cache.replay addresses = .ok run) :
    run.after.tally.hits = cache.tally.hits + run.outcomes.countP Outcome.isHit := by
  refine (hwell.invariant_of_replay
    (fun _ outcomes after => after.tally.hits = cache.tally.hits + outcomes.countP Outcome.isHit)
    rfl ?_ hrun).2
  intro past before address set inSet _ _ hcount _ _
  rw [Cache.served, List.countP_append, ← Nat.add_assoc, ← hcount]
  cases hkind : inSet.outcome.isHit <;> simp [Tally.record, Tally.hit, Tally.miss, hkind]

theorem WellFormed.outcome_lt (hwell : cache.WellFormed)
    (hrun : cache.replay addresses = .ok run) :
    ∀ outcome ∈ run.outcomes,
      outcome.setIndex < cache.sets.size ∧ outcome.way < cache.encoding.ways := by
  refine (hwell.invariant_of_replay
    (fun _ outcomes _ => ∀ outcome ∈ outcomes,
      outcome.setIndex < cache.sets.size ∧ outcome.way < cache.encoding.ways) (by simp) ?_ hrun).2
  intro past before address set inSet hbefore hafter hold hset haccess outcome houtcome
  rcases List.mem_append.mp houtcome with hmem | hlast
  · exact hold outcome hmem
  · obtain rfl := List.mem_singleton.mp hlast
    have hagrees := hwell.agrees_after hbefore
    rw [hagrees.size, hagrees.encoding, haccess.setIndex_eq, hafter.index_eq _ _ hset]
    exact ⟨hafter.indexOf_lt address, haccess.way_lt⟩

theorem IsFresh.sound_set (hvalid : g.validate = .ok ()) (hfresh : cache.IsFresh g)
    (hrun : cache.replay addresses = .ok run) {index : Nat} {set : CacheSet}
    (hset : run.after.sets[index]? = some set) : set.Sound g cache.layout.tagBits index := by
  have hwell := hfresh.wellFormed hvalid
  have hafter := hwell.wellFormed_after hrun
  have hagrees := hwell.agrees_after hrun
  obtain ⟨hrecords, hprotects⟩ :=
    hfresh.invariant_of_set hvalid
      (fun past outcomes before =>
        cache.encoding.Records (outcomes.map (·.way)) before.state ∧
          before.Protects cache.encoding past)
      (fun past outcomes before tag access hwidth hbefore haccess => by
        rw [List.map_append, List.map_singleton]
        exact ⟨hbefore.1.after_touch haccess.touch, hbefore.2.after hwidth haccess⟩)
      ⟨cache.encoding.records_zero, CacheSet.protects_empty _ index⟩ hrun hset
  constructor
  · exact hafter.index_eq _ _ hset
  · rw [hafter.length_lines _ _ hset, ← hagrees.encoding, hfresh.ways_eq]
  · rw [← hfresh.ways_eq]
    exact hrecords.toNat_lt
  · exact hprotects.distinct
  · intro way tag hheld
    obtain ⟨address, -, -, rfl⟩ :=
      (cache.mem_tagsOf_iff index addresses tag).mp (hprotects.accessed way tag hheld)
    exact cache.layout.tag_decode_lt address

theorem IsFresh.sound_after (hcache : ofGeometry g = .ok cache) (hvalid : g.validate = .ok ())
    (hfresh : cache.IsFresh g) (hrun : cache.replay addresses = .ok run) :
    run.after.Sound g addresses.length := by
  have hwell := hfresh.wellFormed hvalid
  have hagrees := hwell.agrees_after hrun
  obtain ⟨hencoding, hlayout⟩ := parts_of_ofGeometry hcache
  constructor
  · rw [hencoding, hagrees.encoding]
  · rw [hlayout, hagrees.layout]
  · rw [← hagrees.size, hfresh.size_sets]
  · exact Geometry.sets_eq_two_pow hvalid
  · rw [← hagrees.encoding, hfresh.ways_eq]
  · exact (hwell.wellFormed_after hrun).indexOf_lt
  · exact run.after.encoding.findIdx?_leads
  · intro index set hset
    rw [← hagrees.layout]
    exact hfresh.sound_set hvalid hrun hset
  · have haccesses := hwell.accesses_eq hrun
    rw [hfresh.tally_eq] at haccesses
    exact haccesses.trans (Nat.zero_add _)

end Runs

/-- A cache is built exactly for the geometries that pass their own check, with
the error of this check otherwise.  No sequence of accesses fails, all sets and
ways that it uses exist, and it leaves the cache sound. -/
theorem ofGeometry_sound (g : Geometry) :
    (∀ error, ofGeometry g = .error error ↔ g.validate = .error error) ∧
      (g.validate = .ok () → ∃ cache, ofGeometry g = .ok cache ∧
        ∀ addresses, ∃ run, cache.replay addresses = .ok run ∧
          (∀ outcome ∈ run.outcomes, outcome.setIndex < g.sets ∧ outcome.way < g.ways) ∧
          run.after.Sound g addresses.length) := by
  refine ⟨ofGeometry_eq_error_iff g, ?_⟩
  intro hvalid
  obtain ⟨cache, hcache, hfresh⟩ := exists_ofGeometry hvalid
  have hwell := hfresh.wellFormed hvalid
  refine ⟨cache, hcache, ?_⟩
  intro addresses
  obtain ⟨run, hrun⟩ := hwell.exists_run addresses
  have hbounds := hwell.outcome_lt hrun
  rw [hfresh.size_sets, hfresh.ways_eq] at hbounds
  exact ⟨run, hrun, hbounds, hfresh.sound_after hcache hvalid hrun⟩

end Cache

end PseudoLru
