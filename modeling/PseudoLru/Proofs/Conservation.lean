import Mathlib.Tactic
import PseudoLru.Proofs.Residency

/-!
# Conservation of blocks

`Transfers` says in terms of blocks what an access reports and what it moves: it
fetches the accessed block if that was absent, and gives up at most one other
block, whose eviction it reports.  So over a run from the fresh cache the
misses of a block outnumber its evictions by one while it is resident, and
equal them while it is not.
-/

namespace PseudoLru.Cache

structure Transfers (before : Cache) (address : UInt64) (access : Access Cache) : Prop where
  setIndex_eq : access.outcome.setIndex = before.indexOf address
  contains_before : before.contains address = .ok access.outcome.isHit
  contains_after : access.after.contains address = .ok true
  kept_on_hit :
    access.outcome.isHit = true →
      access.outcome.evicted? = none ∧
        ∀ index way, access.after.lineAt? index way = before.lineAt? index way
  filled_on_miss :
    access.outcome.isHit = false →
      ∃ line, before.lineAt? (before.indexOf address) access.outcome.way = some line ∧
        ∀ tag, access.outcome.evicted? = some tag ↔ line.valid = true ∧ line.tag = tag
  evicted :
    ∀ tag, access.outcome.evicted? = some tag →
      before.HoldsAt access.outcome.way ⟨tag, access.outcome.setIndex⟩ ∧
        ⟨tag, access.outcome.setIndex⟩ ≠ before.blockOf address ∧
          ¬ access.after.Resident ⟨tag, access.outcome.setIndex⟩
  others :
    ∀ block, block ≠ before.blockOf address → access.outcome.evicts block = false →
      ∀ way, access.after.HoldsAt way block ↔ before.HoldsAt way block
  valid_kept :
    ∀ index way line, before.lineAt? index way = some line → line.valid = true →
      ∃ line', access.after.lineAt? index way = some line' ∧ line'.valid = true

theorem Serves.transfers {before : Cache} {address : UInt64} {access : Access Cache}
    (hserves : before.Serves (before.blockOf address) access.outcome access.after)
    (hbefore : before.WellFormed) (hafter : access.after.WellFormed)
    (hlayout : access.after.layout = before.layout) (hdistinct : before.Distinct) :
    before.Transfers address access := by
  constructor
  · exact hserves.setIndex_eq
  · have hhit : decide (before.Resident (before.blockOf address)) = access.outcome.isHit := by
      rw [Bool.eq_iff_iff, decide_eq_true_iff, hserves.isHit_iff]
    rw [hbefore.contains_eq, hhit]
  · rw [hafter.contains_eq, blockOf_congr hlayout]
    exact congrArg _ (decide_eq_true ⟨_, hserves.holdsAt_way⟩)
  · intro hhit
    exact ⟨hserves.evicted?_of_isHit hhit, hserves.lineAt?_of_isHit hhit⟩
  · intro hmiss
    obtain ⟨line, hline, hevicted⟩ := hserves.evicted?_of_miss hmiss
    refine ⟨line, hline, ?_⟩
    intro tag
    rw [hevicted, Line.resident?]
    cases line.valid <;> simp
  · intro tag htag
    have hevicts : access.outcome.evicts ⟨tag, access.outcome.setIndex⟩ = true := by
      simp [Outcome.evicts, htag]
    obtain ⟨-, -, hheld⟩ := (hserves.evicts_iff _).mp hevicts
    exact ⟨hheld, hserves.ne_of_evicts hevicts, hserves.not_resident_of_evicts hdistinct hevicts⟩
  · intro block hne hkept way
    exact hserves.holdsAt_iff_of_not_evicts hne (ne_true_of_eq_false hkept) way
  · intro index way line hline hvalid
    exact hserves.valid_after hline hvalid

/-! ## Counting -/

/-- How often the block was fetched. -/
def missesOf (cache : Cache) (block : Block) (addresses : List UInt64)
    (outcomes : List Outcome) : Nat :=
  (addresses.zip outcomes).countP fun served =>
    cache.blockOf served.1 = block ∧ served.2.isHit = false

def evictionsOf (block : Block) (outcomes : List Outcome) : Nat :=
  outcomes.countP (·.evicts block)

theorem missesOf_append (cache : Cache) (block : Block) {past : List UInt64}
    {outcomes : List Outcome} (hlength : outcomes.length = past.length) (address : UInt64)
    (outcome : Outcome) :
    cache.missesOf block (past ++ [address]) (outcomes ++ [outcome]) =
      cache.missesOf block past outcomes +
        if cache.blockOf address = block ∧ outcome.isHit = false then 1 else 0 := by
  rw [missesOf, List.zip_append hlength.symm, List.countP_append, missesOf]
  simp [List.countP_singleton]

theorem evictionsOf_append (block : Block) (outcomes : List Outcome) (outcome : Outcome) :
    evictionsOf block (outcomes ++ [outcome]) =
      evictionsOf block outcomes + if outcome.evicts block = true then 1 else 0 := by
  rw [evictionsOf, List.countP_append, List.countP_singleton, evictionsOf]

structure Conserves (start : Cache) (addresses : List UInt64) (outcomes : List Outcome)
    (cache : Cache) : Prop where
  layout_eq : cache.layout = start.layout
  length_eq : outcomes.length = addresses.length
  distinct : cache.Distinct
  misses_eq :
    ∀ block, start.missesOf block addresses outcomes =
      evictionsOf block outcomes + if cache.Resident block then 1 else 0

theorem IsFresh.not_holdsAt {g : Geometry} {cache : Cache} (hfresh : cache.IsFresh g)
    (way : Nat) (block : Block) : ¬ cache.HoldsAt way block := by
  cases hset : cache.sets[block.index]? with
  | none => exact not_holdsAt_of_none hset way
  | some set =>
      rw [holdsAt_iff_of_set hset]
      rw [hfresh.sets_eq, Array.getElem?_ofFn] at hset
      split at hset
      next =>
        obtain rfl := Option.some.inj hset
        exact CacheSet.not_holdsAt_empty _ _ _ _
      next => cases hset

theorem IsFresh.conserves {g : Geometry} {cache : Cache} (hfresh : cache.IsFresh g) :
    cache.Conserves [] [] cache where
  layout_eq := rfl
  length_eq := rfl
  distinct := fun way _ block hway _ => absurd hway (hfresh.not_holdsAt way block)
  misses_eq := by
    intro block
    have habsent : ¬ cache.Resident block := fun ⟨way, hway⟩ => hfresh.not_holdsAt way block hway
    rw [if_neg habsent]
    rfl

theorem Conserves.after {start before after : Cache} {past : List UInt64}
    {outcomes : List Outcome} (hconserves : start.Conserves past outcomes before)
    {address : UInt64} {outcome : Outcome}
    (hserves : before.Serves (before.blockOf address) outcome after)
    (hlayout : after.layout = before.layout) :
    start.Conserves (past ++ [address]) (outcomes ++ [outcome]) after where
  layout_eq := hlayout.trans hconserves.layout_eq
  length_eq := by
    rw [List.length_append, List.length_append, hconserves.length_eq]
    rfl
  distinct := hserves.distinct hconserves.distinct
  misses_eq := by
    intro block
    have hbefore := hconserves.misses_eq block
    have hstep := hserves.resident_balance hconserves.distinct block
    rw [blockOf_congr hconserves.layout_eq] at hstep
    rw [missesOf_append start block hconserves.length_eq, evictionsOf_append]
    omega

theorem IsFresh.exists_conserving_run {g : Geometry} (hvalid : g.validate = .ok ())
    {cache : Cache} (hfresh : cache.IsFresh g) (addresses : List UInt64) :
    ∃ run, cache.replay addresses = .ok run ∧ run.after.WellFormed ∧
      cache.Conserves addresses run.outcomes run.after :=
  exists_replay cache.Conserves
    (fun _ _ _ _ _ _ hwell hbefore hset haccess =>
      hbefore.after (serves_served hwell hset haccess) rfl)
    (hfresh.wellFormed hvalid) hfresh.conserves addresses

/-- Whatever was accessed before, an access hits exactly the resident blocks,
makes its block resident and moves no other block but the one that it reports
as evicted, which was resident and is no longer.  Over every run from the fresh
cache the misses of a block are one more than its evictions if it is resident at
the end, and as many as its evictions otherwise. -/
theorem blocks_conserved (g : Geometry) (hvalid : g.validate = .ok ())
    (addresses : List UInt64) :
    ∃ cache run, ofGeometry g = .ok cache ∧ cache.replay addresses = .ok run ∧
      (∀ address, ∃ access, run.after.access address = .ok access ∧
        run.after.Transfers address access) ∧
      ∀ block, (cache.missesOf block addresses run.outcomes : Int) -
        evictionsOf block run.outcomes = if run.after.Resident block then 1 else 0 := by
  obtain ⟨cache, hcache, hfresh⟩ := exists_ofGeometry hvalid
  obtain ⟨run, hrun, hwell, hconserves⟩ := hfresh.exists_conserving_run hvalid addresses
  refine ⟨cache, run, hcache, hrun, ?_, ?_⟩
  · intro address
    obtain ⟨set, inSet, hset, -, haccess, hok⟩ := hwell.exists_access address
    exact ⟨_, hok, (serves_served hwell hset haccess).transfers hwell
      (hwell.served hset haccess) rfl hconserves.distinct⟩
  · intro block
    have hmisses := hconserves.misses_eq block
    split_ifs at hmisses ⊢ <;> omega

/-- Two sets of two ways; the block of the address zero is evicted and fetched
again. -/
theorem two_way_blocks_conserved :
    ∃ cache run, ofGeometry { ways := 2, sets := 2 } = .ok cache ∧
      cache.replay [0, 128, 64, 256, 0] = .ok run ∧
      (∀ address, ∃ access, run.after.access address = .ok access ∧
        run.after.Transfers address access) ∧
      ∀ block, (cache.missesOf block [0, 128, 64, 256, 0] run.outcomes : Int) -
        evictionsOf block run.outcomes = if run.after.Resident block then 1 else 0 :=
  blocks_conserved { ways := 2, sets := 2 } rfl [0, 128, 64, 256, 0]

end PseudoLru.Cache
