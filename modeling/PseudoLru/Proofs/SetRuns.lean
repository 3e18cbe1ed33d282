import Mathlib.Tactic
import PseudoLru.Proofs.Sharding

/-!
# The runs of the sets

A run of a cache is made of one run for each of its sets: a set serves the tags
of the addresses that select it, in their order, and nothing else.  So whatever
is proved about the runs of one set holds of every set of a cache, with the
tags that were looked up in it as their history.
-/

namespace PseudoLru.Cache

def tagOf (cache : Cache) (address : UInt64) : UInt64 := (cache.layout.decode address).tag

/-- The tags that are looked up in the set of this number. -/
def tagsOf (cache : Cache) (index : Nat) (addresses : List UInt64) : List UInt64 :=
  (cache.shard (· = index) addresses).map cache.tagOf

theorem tagsOf_append (cache : Cache) (index : Nat) (past rest : List UInt64) :
    cache.tagsOf index (past ++ rest) = cache.tagsOf index past ++ cache.tagsOf index rest := by
  rw [tagsOf, shard, List.filter_append, List.map_append]
  rfl

theorem tagsOf_append_self (cache : Cache) (past : List UInt64) (address : UInt64) :
    cache.tagsOf (cache.indexOf address) (past ++ [address]) =
      cache.tagsOf (cache.indexOf address) past ++ [cache.tagOf address] := by
  rw [tagsOf_append]
  simp [tagsOf, shard]

theorem mem_tagsOf_iff (cache : Cache) (index : Nat) (addresses : List UInt64) (tag : UInt64) :
    tag ∈ cache.tagsOf index addresses ↔
      ∃ address ∈ addresses, cache.indexOf address = index ∧ cache.tagOf address = tag := by
  simp [tagsOf, shard, and_assoc]

/-- A run changes neither the number of sets nor what all sets share. -/
theorem WellFormed.agrees_after {cache : Cache} (hwell : cache.WellFormed)
    {addresses : List UInt64} {run : Run Cache} (hrun : cache.replay addresses = .ok run) :
    cache.AgreesOn (fun _ => false) run.after := by
  obtain ⟨part, hpart, -, hagrees⟩ := hwell.exists_part hrun fun _ => false
  have hnone : cache.shard (fun _ => false) addresses = [] := by simp [shard]
  rw [hnone] at hpart
  obtain rfl := Except.ok.inj hpart
  exact hagrees

theorem WellFormed.exists_set_replay {cache : Cache} (hwell : cache.WellFormed)
    {addresses : List UInt64} {run : Run Cache} (hrun : cache.replay addresses = .ok run)
    {index : Nat} {first : CacheSet} (hfirst : cache.sets[index]? = some first) :
    ∃ inSet : Run CacheSet,
      first.replay cache.encoding cache.geometry.policy (cache.tagsOf index addresses) =
        .ok inSet ∧
      run.after.sets[index]? = some inSet.after ∧
      inSet.outcomes = cache.shardOutcomes (· = index) addresses run.outcomes := by
  induction addresses generalizing cache first run with
  | nil =>
      obtain rfl := Except.ok.inj hrun
      exact ⟨Run.start first, rfl, hfirst, rfl⟩
  | cons address rest ih =>
      obtain ⟨set, inSet, after, hset, hok, haccess, hnext, hrest, rfl⟩ :=
        hwell.exists_of_replay_cons hrun
      by_cases hindex : cache.indexOf address = index
      · -- The first access of the cache is the first access of this set.
        subst hindex
        rw [hset] at hfirst
        obtain rfl := Option.some.inj hfirst
        obtain ⟨tail, htail, hafter, houtcomes⟩ :=
          ih hnext hrest (getElem?_sets_served_self hset)
        have htags : cache.tagsOf (cache.indexOf address) (address :: rest) =
            cache.tagOf address :: cache.tagsOf (cache.indexOf address) rest := by
          simp [tagsOf, shard]
        refine ⟨Run.cons inSet tail, ?_, hafter, ?_⟩
        · rw [htags]
          exact Run.ofRequests_cons_of_ok hok htail
        · rw [Run.cons, Run.cons, shardOutcomes_cons_of_pos (decide_eq_true rfl), houtcomes]
          rfl
      · have hother := decide_eq_false hindex
        rw [← Bool.not_eq_true] at hother
        have hkept : (cache.served (cache.indexOf address) inSet).sets[index]? = some first := by
          rw [getElem?_sets_served_of_ne hindex, hfirst]
        obtain ⟨tail, htail, hafter, houtcomes⟩ := ih hnext hrest hkept
        have htags : cache.tagsOf index (address :: rest) = cache.tagsOf index rest := by
          simp [tagsOf, shard, hindex]
        refine ⟨tail, ?_, hafter, ?_⟩
        · rw [htags]
          exact htail
        · rw [Run.cons, shardOutcomes_cons_of_neg hother, houtcomes]
          rfl

/-- The set that serves an address of a run, and its access. -/
theorem WellFormed.exists_midway {cache : Cache} (hwell : cache.WellFormed)
    {past rest : List UInt64} {address : UInt64} {run : Run Cache}
    (hrun : cache.replay (past ++ address :: rest) = .ok run) :
    ∃ (before : Run Cache) (set : CacheSet) (inSet : Access CacheSet),
      cache.replay past = .ok before ∧
      before.after.sets[cache.indexOf address]? = some set ∧
      set.Accesses cache.encoding cache.geometry.policy (cache.tagOf address) inSet ∧
      run.outcomes[past.length]? = some inSet.outcome := by
  obtain ⟨before, access, hbefore, hserves, houtcome⟩ := Run.exists_midway hrun
  obtain ⟨set, inSet, hset, -, haccess, hok⟩ :=
    (hwell.wellFormed_after hbefore).exists_access address
  have hagrees := hwell.agrees_after hbefore
  rw [hok] at hserves
  obtain rfl := Except.ok.inj hserves
  rw [← hagrees.indexOf_eq] at hset
  rw [← hagrees.encoding, ← hagrees.geometry, ← hagrees.layout] at haccess
  exact ⟨before, set, inSet, hbefore, hset, haccess, houtcome⟩

theorem IsFresh.getElem?_sets {g : Geometry} {cache : Cache} (hfresh : cache.IsFresh g)
    {index : Nat} (hindex : index < g.sets) :
    cache.sets[index]? = some (CacheSet.empty index cache.encoding.ways) := by
  rw [hfresh.sets_eq, Array.getElem?_ofFn, dif_pos hindex, hfresh.ways_eq]

/-- What every access of a set keeps is true of each set of a cache that
started fresh, with its own tags and outcomes as history. -/
theorem IsFresh.invariant_of_set {g : Geometry} (hvalid : g.validate = .ok ()) {cache : Cache}
    (hfresh : cache.IsFresh g) (Inv : List UInt64 → List Outcome → CacheSet → Prop)
    (hstep : ∀ past outcomes (set : CacheSet) tag access,
      set.lines.length = cache.encoding.ways → Inv past outcomes set →
        set.Accesses cache.encoding cache.geometry.policy tag access →
          Inv (past ++ [tag]) (outcomes ++ [access.outcome]) access.after)
    {index : Nat} (hinv : Inv [] [] (CacheSet.empty index cache.encoding.ways))
    {addresses : List UInt64} {run : Run Cache} (hrun : cache.replay addresses = .ok run)
    {set : CacheSet} (hset : run.after.sets[index]? = some set) :
    Inv (cache.tagsOf index addresses)
      (cache.shardOutcomes (· = index) addresses run.outcomes) set := by
  have hwell := hfresh.wellFormed hvalid
  have hindex : index < g.sets := by
    obtain ⟨hlt, -⟩ := Array.getElem?_eq_some_iff.mp hset
    rwa [← (hwell.agrees_after hrun).size, hfresh.size_sets] at hlt
  obtain ⟨inSet, hinSet, hafter, houtcomes⟩ :=
    hwell.exists_set_replay hrun (hfresh.getElem?_sets hindex)
  rw [hset] at hafter
  obtain rfl := Option.some.inj hafter
  rw [← houtcomes]
  exact CacheSet.invariant_of_replay Inv hstep (CacheSet.length_lines_empty index _) hinv hinSet

end PseudoLru.Cache
