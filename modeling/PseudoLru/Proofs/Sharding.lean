import Mathlib.Tactic
import PseudoLru.Proofs.CacheRuns
import PseudoLru.Tally

/-!
# Sharded runs

The sets of a cache may be divided into shards, and the addresses of a run
with them.  A shard that starts from the same fresh cache and serves its own
addresses only stays in agreement with the whole run on its sets: an address of
the shard has the same effect in both, and any other address leaves the sets of
the shard alone.  The counters are sums over the accesses, so they are merged
by adding.
-/

namespace PseudoLru

namespace Tally

def ofOutcome (outcome : Outcome) : Tally := record {} outcome.isHit

attribute [ext] Tally

instance : Zero Tally := ⟨{}⟩

@[simp] theorem hits_zero : (0 : Tally).hits = 0 := rfl

@[simp] theorem misses_zero : (0 : Tally).misses = 0 := rfl

instance : AddCommMonoid Tally where
  add_assoc s t u := by ext <;> simp [Nat.add_assoc]
  zero_add t := by ext <;> simp
  add_zero t := by ext <;> simp
  add_comm s t := by ext <;> simp [Nat.add_comm]
  nsmul := nsmulRec

theorem record_eq_add (t : Tally) (outcome : Outcome) :
    t.record outcome.isHit = t + ofOutcome outcome := by
  unfold ofOutcome
  cases outcome.isHit <;> rfl

end Tally

/-- A sum may be taken part by part, in any order of the parts. -/
theorem sum_map_parts {α κ M : Type*} [DecidableEq κ] [AddCommMonoid M] (key : α → κ)
    (f : α → M) {order : List κ} (hnodup : order.Nodup) {items : List α}
    (hcovered : ∀ x ∈ items, key x ∈ order) :
    (order.map fun k => ((items.filter fun x => key x = k).map f).sum).sum =
      (items.map f).sum := by
  rw [← List.sum_toFinset _ hnodup]
  induction items with
  | nil => simp
  | cons x rest ih =>
      have hkey : key x ∈ order.toFinset :=
        List.mem_toFinset.mpr (hcovered x List.mem_cons_self)
      have hrest : ∀ y ∈ rest, key y ∈ order := fun y hy =>
        hcovered y (List.mem_cons_of_mem x hy)
      have hsplit : ∀ k, (((x :: rest).filter fun y => key y = k).map f).sum =
          (if key x = k then f x else 0) + ((rest.filter fun y => key y = k).map f).sum := by
        intro k
        by_cases hk : key x = k <;> simp [hk]
      rw [Finset.sum_congr rfl fun k _ => hsplit k, Finset.sum_add_distrib, Finset.sum_ite_eq,
        if_pos hkey, ih hrest, List.map_cons, List.sum_cons]

namespace Cache

/-- The addresses that select sets of a shard. -/
def shard (cache : Cache) (inShard : Nat → Bool) (addresses : List UInt64) : List UInt64 :=
  addresses.filter fun address => inShard (cache.indexOf address)

def shardOutcomes (cache : Cache) (inShard : Nat → Bool) (addresses : List UInt64)
    (outcomes : List Outcome) : List Outcome :=
  ((addresses.zip outcomes).filter fun served => inShard (cache.indexOf served.1)).map (·.2)

section Cons

variable {cache : Cache} {inShard : Nat → Bool} {address : UInt64}

theorem shard_cons_of_pos (hshard : inShard (cache.indexOf address) = true)
    (rest : List UInt64) :
    cache.shard inShard (address :: rest) = address :: cache.shard inShard rest := by
  simp [shard, hshard]

theorem shard_cons_of_neg (hshard : inShard (cache.indexOf address) ≠ true)
    (rest : List UInt64) :
    cache.shard inShard (address :: rest) = cache.shard inShard rest := by
  simp [shard, hshard]

theorem shardOutcomes_cons_of_pos (hshard : inShard (cache.indexOf address) = true)
    (rest : List UInt64) (outcome : Outcome) (outcomes : List Outcome) :
    cache.shardOutcomes inShard (address :: rest) (outcome :: outcomes) =
      outcome :: cache.shardOutcomes inShard rest outcomes := by
  simp [shardOutcomes, hshard]

theorem shardOutcomes_cons_of_neg (hshard : inShard (cache.indexOf address) ≠ true)
    (rest : List UInt64) (outcome : Outcome) (outcomes : List Outcome) :
    cache.shardOutcomes inShard (address :: rest) (outcome :: outcomes) =
      cache.shardOutcomes inShard rest outcomes := by
  simp [shardOutcomes, hshard]

end Cons

/-- The caches are alike but for the tally and the sets of other shards. -/
structure AgreesOn (inShard : Nat → Bool) (part whole : Cache) : Prop where
  geometry : part.geometry = whole.geometry
  encoding : part.encoding = whole.encoding
  layout : part.layout = whole.layout
  dumpSets : part.dumpSets = whole.dumpSets
  size : part.sets.size = whole.sets.size
  sets : ∀ index, inShard index = true → part.sets[index]? = whole.sets[index]?

theorem AgreesOn.refl (inShard : Nat → Bool) (cache : Cache) : cache.AgreesOn inShard cache :=
  ⟨rfl, rfl, rfl, rfl, rfl, fun _ _ => rfl⟩

theorem AgreesOn.symm {inShard : Nat → Bool} {part whole : Cache}
    (hagrees : part.AgreesOn inShard whole) : whole.AgreesOn inShard part where
  geometry := hagrees.geometry.symm
  encoding := hagrees.encoding.symm
  layout := hagrees.layout.symm
  dumpSets := hagrees.dumpSets.symm
  size := hagrees.size.symm
  sets := fun index hindex => (hagrees.sets index hindex).symm

theorem AgreesOn.trans {inShard : Nat → Bool} {part middle whole : Cache}
    (hpart : part.AgreesOn inShard middle) (hwhole : middle.AgreesOn inShard whole) :
    part.AgreesOn inShard whole where
  geometry := hpart.geometry.trans hwhole.geometry
  encoding := hpart.encoding.trans hwhole.encoding
  layout := hpart.layout.trans hwhole.layout
  dumpSets := hpart.dumpSets.trans hwhole.dumpSets
  size := hpart.size.trans hwhole.size
  sets := fun index hindex =>
    (hpart.sets index hindex).trans (hwhole.sets index hindex)

theorem eq_of_forall_agreesOn {cache other : Cache}
    (hagrees : ∀ index, cache.AgreesOn (· = index) other) (htally : cache.tally = other.tally) :
    cache = other := by
  have hsets : cache.sets = other.sets := by
    apply Array.ext_getElem?
    intro index
    exact (hagrees index).sets index (decide_eq_true rfl)
  obtain ⟨hgeometry, hencoding, hlayout, hdumpSets, -, -⟩ := hagrees 0
  cases cache
  cases other
  simp only at hgeometry hencoding hlayout hdumpSets hsets htally
  subst hgeometry hencoding hlayout hdumpSets hsets htally
  rfl

section Step

variable {inShard : Nat → Bool} {part whole : Cache} {address : UInt64}

theorem AgreesOn.indexOf_eq (hagrees : part.AgreesOn inShard whole) :
    part.indexOf = whole.indexOf := by
  funext address
  rw [indexOf, indexOf, hagrees.layout]

/-- An address of the shard has the same effect in both caches. -/
theorem AgreesOn.served (hagrees : part.AgreesOn inShard whole) {set : CacheSet}
    (inSet : Access CacheSet) (hset : whole.sets[whole.indexOf address]? = some set)
    (hshard : inShard (whole.indexOf address) = true) :
    (part.served (whole.indexOf address) inSet).AgreesOn inShard
      (whole.served (whole.indexOf address) inSet) where
  geometry := hagrees.geometry
  encoding := hagrees.encoding
  layout := hagrees.layout
  dumpSets := hagrees.dumpSets
  size := by
    rw [Cache.served, Array.size_setIfInBounds, hagrees.size]
    exact Array.size_setIfInBounds.symm
  sets := by
    intro index hindex
    by_cases heq : whole.indexOf address = index
    · subst heq
      rw [getElem?_sets_served_self hset]
      rw [← hagrees.sets _ hshard, ← hagrees.indexOf_eq] at hset
      rw [← hagrees.indexOf_eq]
      exact getElem?_sets_served_self hset
    · rw [getElem?_sets_served_of_ne heq, getElem?_sets_served_of_ne heq]
      exact hagrees.sets index hindex

/-- An address outside of the shard has no effect on it. -/
theorem AgreesOn.served_whole (hagrees : part.AgreesOn inShard whole) (inSet : Access CacheSet)
    (hshard : inShard (whole.indexOf address) ≠ true) :
    part.AgreesOn inShard (whole.served (whole.indexOf address) inSet) where
  geometry := hagrees.geometry
  encoding := hagrees.encoding
  layout := hagrees.layout
  dumpSets := hagrees.dumpSets
  size := hagrees.size.trans Array.size_setIfInBounds.symm
  sets := by
    intro index hindex
    have hother : whole.indexOf address ≠ index := by
      rintro rfl
      exact hshard hindex
    rw [getElem?_sets_served_of_ne hother]
    exact hagrees.sets index hindex

end Step

theorem exists_shard_replay {inShard : Nat → Bool} {part whole : Cache}
    (hwell : whole.WellFormed) (hagrees : part.AgreesOn inShard whole)
    (addresses : List UInt64) :
    ∃ partRun run, part.replay (whole.shard inShard addresses) = .ok partRun ∧
      whole.replay addresses = .ok run ∧
      partRun.outcomes = whole.shardOutcomes inShard addresses run.outcomes ∧
      partRun.after.AgreesOn inShard run.after := by
  induction addresses generalizing part whole with
  | nil => exact ⟨Run.start part, Run.start whole, rfl, rfl, rfl, hagrees⟩
  | cons address rest ih =>
      obtain ⟨set, inSet, hset, hok, haccess, hserves⟩ := hwell.exists_access address
      have hnext := hwell.served hset haccess
      by_cases hshard : inShard (whole.indexOf address) = true
      · -- Both caches serve the address.
        obtain ⟨partRun, run, hpart, hrun, houtcomes, hafter⟩ :=
          ih hnext (hagrees.served inSet hset hshard)
        have hpartSet : part.sets[part.indexOf address]? = some set := by
          rw [hagrees.indexOf_eq, hagrees.sets _ hshard, hset]
        have hpartServes : part.access address = .ok ⟨inSet.outcome, inSet.event,
            part.served (whole.indexOf address) inSet⟩ := by
          rw [← hagrees.indexOf_eq]
          apply access_of_set hpartSet
          rw [hagrees.encoding, hagrees.geometry, hagrees.layout]
          exact hok
        have hpartRun : part.replay (whole.shard inShard (address :: rest)) =
            .ok (Run.cons ⟨inSet.outcome, inSet.event,
              part.served (whole.indexOf address) inSet⟩ partRun) := by
          rw [shard_cons_of_pos hshard]
          exact Run.ofRequests_cons_of_ok hpartServes hpart
        refine ⟨_, _, hpartRun, Run.ofRequests_cons_of_ok hserves hrun, ?_, hafter⟩
        rw [Run.cons, Run.cons, shardOutcomes_cons_of_pos hshard, houtcomes]
        rfl
      · -- Only the whole cache serves the address.
        obtain ⟨partRun, run, hpart, hrun, houtcomes, hafter⟩ :=
          ih hnext (hagrees.served_whole inSet hshard)
        refine ⟨partRun, _, ?_, Run.ofRequests_cons_of_ok hserves hrun, ?_, hafter⟩
        · rw [shard_cons_of_neg hshard]
          exact hpart
        · rw [Run.cons, shardOutcomes_cons_of_neg hshard]
          exact houtcomes

structure Counts (cache : Cache) (addresses : List UInt64) (outcomes : List Outcome)
    (after : Cache) : Prop where
  length_eq : outcomes.length = addresses.length
  size_eq : after.sets.size = cache.sets.size
  tally_eq : after.tally = cache.tally + (outcomes.map Tally.ofOutcome).sum

section Runs

variable {cache : Cache} {addresses : List UInt64} {run : Run Cache}

theorem WellFormed.counts (hwell : cache.WellFormed)
    (hrun : cache.replay addresses = .ok run) :
    cache.Counts addresses run.outcomes run.after := by
  have hstep : ∀ past outcomes (after : Cache) address (inSet : Access CacheSet),
      cache.Counts past outcomes after →
        cache.Counts (past ++ [address]) (outcomes ++ [inSet.outcome])
          (after.served (after.indexOf address) inSet) := by
    intro past outcomes after address inSet hcounts
    constructor
    · rw [List.length_append, List.length_append, hcounts.length_eq]
      rfl
    · exact Array.size_setIfInBounds.trans hcounts.size_eq
    · rw [Cache.served, Tally.record_eq_add, hcounts.tally_eq, List.map_append,
        List.sum_append, List.map_singleton, List.sum_singleton, add_assoc]
  obtain ⟨run', hrun', -, hcounts⟩ :=
    exists_replay cache.Counts
      (fun past outcomes after address _ inSet _ hafter _ _ =>
        hstep past outcomes after address inSet hafter)
      hwell ⟨rfl, rfl, (add_zero _).symm⟩ addresses
  rw [hrun] at hrun'
  obtain rfl := Except.ok.inj hrun'
  exact hcounts

theorem WellFormed.exists_part (hwell : cache.WellFormed)
    (hrun : cache.replay addresses = .ok run) (inShard : Nat → Bool) :
    ∃ part, cache.replay (cache.shard inShard addresses) = .ok part ∧
      part.outcomes = cache.shardOutcomes inShard addresses run.outcomes ∧
      part.after.AgreesOn inShard run.after := by
  obtain ⟨part, run', hpart, hrun', houtcomes, hagrees⟩ :=
    exists_shard_replay hwell (AgreesOn.refl inShard cache) addresses
  rw [hrun] at hrun'
  obtain rfl := Except.ok.inj hrun'
  exact ⟨part, hpart, houtcomes, hagrees⟩

/-- The counts of all shards, in any order, make up the counts of the run. -/
theorem WellFormed.sum_shardOutcomes (hwell : cache.WellFormed)
    (hrun : cache.replay addresses = .ok run) {κ : Type*} [DecidableEq κ]
    (shardOf : Nat → κ) {order : List κ} (hnodup : order.Nodup)
    (hcovered : ∀ index < cache.sets.size, shardOf index ∈ order) :
    (order.map fun k => ((cache.shardOutcomes (shardOf · = k) addresses run.outcomes).map
      Tally.ofOutcome).sum).sum = (run.outcomes.map Tally.ofOutcome).sum := by
  have hlength := (hwell.counts hrun).length_eq
  have hkeys : ∀ served ∈ addresses.zip run.outcomes,
      shardOf (cache.indexOf served.1) ∈ order :=
    fun served _ => hcovered _ (hwell.indexOf_lt served.1)
  have hparts := sum_map_parts _ (fun served => Tally.ofOutcome served.2) hnodup hkeys
  have hwhole : (addresses.zip run.outcomes).map (fun served => Tally.ofOutcome served.2) =
      run.outcomes.map Tally.ofOutcome := by
    rw [← Function.comp_def Tally.ofOutcome, ← List.map_map,
      List.map_snd_zip (Nat.le_of_eq hlength)]
  rw [← hwhole, ← hparts]
  simp only [shardOutcomes, List.map_map, Function.comp_def]

theorem WellFormed.exists_reordered_replay (hwell : cache.WellFormed)
    (hrun : cache.replay addresses = .ok run) {reordered : List UInt64}
    (hsame : ∀ index, cache.shard (· = index) reordered = cache.shard (· = index) addresses) :
    ∃ run', cache.replay reordered = .ok run' ∧ run'.after = run.after := by
  obtain ⟨run', hrun'⟩ := hwell.exists_run reordered
  have hboth : ∀ index, ∃ part : Run Cache,
      (part.outcomes = cache.shardOutcomes (· = index) addresses run.outcomes ∧
        part.outcomes = cache.shardOutcomes (· = index) reordered run'.outcomes) ∧
      part.after.AgreesOn (· = index) run.after ∧
      part.after.AgreesOn (· = index) run'.after := by
    intro index
    obtain ⟨part, hpart, houtcomes, hagrees⟩ := hwell.exists_part hrun (· = index)
    obtain ⟨part', hpart', houtcomes', hagrees'⟩ := hwell.exists_part hrun' (· = index)
    rw [hsame, hpart] at hpart'
    obtain rfl := Except.ok.inj hpart'
    exact ⟨part, ⟨houtcomes, houtcomes'⟩, hagrees, hagrees'⟩
  choose part houtcomes hagrees hagrees' using hboth
  refine ⟨run', hrun', eq_of_forall_agreesOn ?_ ?_⟩
  · intro index
    exact (hagrees' index).symm.trans (hagrees index)
  · have hcovered : ∀ index < cache.sets.size, id index ∈ List.range cache.sets.size :=
      fun index hindex => List.mem_range.mpr hindex
    rw [(hwell.counts hrun').tally_eq, (hwell.counts hrun).tally_eq,
      ← hwell.sum_shardOutcomes hrun' id List.nodup_range hcovered,
      ← hwell.sum_shardOutcomes hrun id List.nodup_range hcovered]
    congr 3
    funext index
    simp only [id_eq]
    rw [← (houtcomes index).1, (houtcomes index).2]

end Runs

/-- Let the sets of a cache be divided into shards in any way.  Run from the
same fresh cache on its own addresses, every shard has the outcomes and the
sets of the whole run, and the tallies of the shards add up to that of the
whole run in any order.  So addresses of different sets may change places. -/
theorem shards_replay_as_whole (g : Geometry) (hvalid : g.validate = .ok ()) {κ : Type*}
    [DecidableEq κ] (shardOf : Nat → κ) (addresses : List UInt64) :
    ∃ (cache : Cache) (run : Run Cache) (part : κ → Run Cache),
      ofGeometry g = .ok cache ∧ cache.replay addresses = .ok run ∧
      run.outcomes.length = addresses.length ∧
      (∀ k, cache.replay (cache.shard (shardOf · = k) addresses) = .ok (part k) ∧
        (part k).outcomes = cache.shardOutcomes (shardOf · = k) addresses run.outcomes) ∧
      (∀ index < g.sets, ∃ set, run.after.sets[index]? = some set ∧
        (part (shardOf index)).after.sets[index]? = some set) ∧
      (∀ order : List κ, order.Nodup → (∀ index < g.sets, shardOf index ∈ order) →
        (order.map fun k => (part k).after.tally).foldl (· + ·) {} = run.after.tally) ∧
      ∀ reordered, (∀ index,
          cache.shard (· = index) reordered = cache.shard (· = index) addresses) →
        ∃ run', cache.replay reordered = .ok run' ∧ run'.after = run.after := by
  obtain ⟨cache, hcache, hfresh⟩ := exists_ofGeometry hvalid
  have hwell := hfresh.wellFormed hvalid
  obtain ⟨run, hrun⟩ := hwell.exists_run addresses
  choose part hpart houtcomes hagrees using fun k => hwell.exists_part hrun (shardOf · = k)
  have hcounts := hwell.counts hrun
  refine ⟨cache, run, part, hcache, hrun, hcounts.length_eq, fun k => ⟨hpart k, houtcomes k⟩,
    ?_, ?_, fun _ hsame => hwell.exists_reordered_replay hrun hsame⟩
  · intro index hindex
    rw [← hfresh.size_sets, ← hcounts.size_eq] at hindex
    have hset := Array.getElem?_eq_getElem hindex
    refine ⟨_, hset, ?_⟩
    rw [(hagrees (shardOf index)).sets index (decide_eq_true rfl), hset]
  · intro order hnodup hcovered
    rw [← hfresh.size_sets] at hcovered
    calc
      (order.map fun k => (part k).after.tally).foldl (· + ·) {} =
          (order.map fun k => (part k).after.tally).sum := List.sum_eq_foldl.symm
      _ = (order.map fun k => ((cache.shardOutcomes (shardOf · = k) addresses
            run.outcomes).map Tally.ofOutcome).sum).sum := by
        congr 2
        funext k
        rw [(hwell.counts (hpart k)).tally_eq, hfresh.tally_eq, houtcomes k]
        exact zero_add _
      _ = (run.outcomes.map Tally.ofOutcome).sum :=
        hwell.sum_shardOutcomes hrun shardOf hnodup hcovered
      _ = run.after.tally := by
        rw [hcounts.tally_eq, hfresh.tally_eq]
        exact (zero_add _).symm

/-- Four sets of four ways, in one shard of the even and one of the odd sets. -/
theorem even_and_odd_sets_replay_as_whole :
    ∃ (cache : Cache) (run : Run Cache) (part : Nat → Run Cache),
      ofGeometry { ways := 4, sets := 4 } = .ok cache ∧
      cache.replay [0, 64, 256, 0, 128, 64] = .ok run ∧
      (∀ k, cache.replay (cache.shard (· % 2 = k) [0, 64, 256, 0, 128, 64]) = .ok (part k)) ∧
      (part 1).after.tally + (part 0).after.tally = run.after.tally := by
  obtain ⟨cache, run, part, hcache, hrun, -, hpart, -, hmerge, -⟩ :=
    shards_replay_as_whole { ways := 4, sets := 4 } rfl (· % 2) [0, 64, 256, 0, 128, 64]
  refine ⟨cache, run, part, hcache, hrun, fun k => (hpart k).1, ?_⟩
  rw [← hmerge [1, 0] (by decide) (by decide), List.map_cons, List.map_singleton,
    List.foldl_cons, List.foldl_cons, List.foldl_nil]
  exact congrArg (· + _) (zero_add _).symm

end Cache

end PseudoLru
