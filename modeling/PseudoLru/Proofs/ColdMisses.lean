import Mathlib.Tactic
import PseudoLru.Proofs.Recency
import PseudoLru.Proofs.Residency

/-!
# Cold misses

Under the invalid-first policy a miss fills the lowest empty way as long as
there is one.  So the tags come to lie in the order of their first accesses,
and none is displaced before one more tag than there are ways was accessed.
Until then an access hits exactly if its tag was accessed before: every miss is
the first access of its block.
-/

namespace PseudoLru

open History

namespace CacheSet

/-- The valid ways come first, and while all tags fit they hold them in the
order of their first accesses. -/
structure FillsInOrder (e : Encoding) (history : List UInt64) (set : CacheSet) : Prop where
  accessed : ∀ way tag, set.HoldsAt way tag → tag ∈ history
  valid_iff :
    ∀ way line, set.lines[way]? = some line →
      (line.valid = true ↔ way < (firstTags history).length)
  holdsAt :
    (firstTags history).length ≤ e.ways →
      ∀ way tag, (firstTags history)[way]? = some tag → set.HoldsAt way tag

theorem fillsInOrder_empty (e : Encoding) (index ways : Nat) :
    (empty index ways).FillsInOrder e [] where
  accessed := fun way tag hheld => absurd hheld (not_holdsAt_empty index ways way tag)
  valid_iff := by
    intro way line hline
    rw [(List.mem_replicate.mp (List.mem_of_getElem? hline)).2]
    simp [Line.empty]
  holdsAt := by simp

section Step

variable {e : Encoding} {history : List UInt64} {set : CacheSet} {tag : UInt64}
  {access : Access CacheSet}

theorem FillsInOrder.exists_holdsAt (hfills : set.FillsInOrder e history)
    (hfit : (firstTags history).length ≤ e.ways) (hmem : tag ∈ history) :
    ∃ way, set.HoldsAt way tag := by
  obtain ⟨way, hway⟩ := List.mem_iff_getElem?.mp ((mem_firstTags_iff tag history).mpr hmem)
  exact ⟨way, hfills.holdsAt hfit way tag hway⟩

theorem FillsInOrder.emptyWay?_eq (hfills : set.FillsInOrder e history) {way : Nat}
    (hempty : set.emptyWay? = some way) : way = (firstTags history).length := by
  obtain ⟨hlt, hinvalid, hbelow⟩ := List.findIdx?_eq_some_iff_getElem.mp hempty
  have hway := hfills.valid_iff way _ (List.getElem?_eq_getElem hlt)
  -- The found way is not valid, and all ways below it are.
  apply Nat.le_antisymm
  · by_contra hgt
    have hlast := hfills.valid_iff (firstTags history).length _
      (List.getElem?_eq_getElem (by omega))
    have hvalid := hbelow (firstTags history).length (by omega)
    simp at hvalid hlast
    rw [hvalid] at hlast
    contradiction
  · by_contra hgt
    simp [hway.mpr (Nat.lt_of_not_le hgt)] at hinvalid

theorem FillsInOrder.ways_le_of_emptyWay? (hfills : set.FillsInOrder e history)
    (hwidth : set.lines.length = e.ways) (hfull : set.emptyWay? = none) :
    e.ways ≤ (firstTags history).length := by
  by_contra hlt
  have hline := List.getElem?_eq_getElem
    (show (firstTags history).length < set.lines.length by omega)
  have hvalid := List.findIdx?_eq_none_iff.mp hfull _ (List.mem_of_getElem? hline)
  rw [Bool.not_eq_false', hfills.valid_iff _ _ hline] at hvalid
  omega

/-- A miss either brings a new tag into the next way, or there were more tags
than ways. -/
theorem FillsInOrder.miss_cases (hfills : set.FillsInOrder e history)
    (hwidth : set.lines.length = e.ways)
    (haccess : set.Accesses e .invalidFirst tag access) (hmiss : access.outcome.isHit = false) :
    (tag ∉ history ∧ access.outcome.way = (firstTags history).length ∧
        access.outcome.evicted? = none) ∨
      e.ways ≤ (firstTags history).length ∧
        e.ways < (firstTags (history ++ [tag])).length := by
  have habsent : ∀ way, ¬ set.HoldsAt way tag := by
    intro way hheld
    rw [haccess.isHit_iff.mpr ⟨way, hheld⟩] at hmiss
    contradiction
  cases haccess with
  | hit => simp [Outcome.isHit] at hmiss
  | @miss way p line hpattern hline hprobe hchosen =>
      rcases hchosen with ⟨-, hempty⟩ | ⟨hpolicy, -⟩
      · left
        have hway := hfills.emptyWay?_eq hempty
        obtain ⟨hlt, -⟩ := List.getElem?_eq_some_iff.mp hline
        refine ⟨?_, hway, ?_⟩
        · intro hmem
          obtain ⟨held, hheld⟩ := hfills.exists_holdsAt (by omega) hmem
          exact habsent held hheld
        · have hinvalid := (hfills.valid_iff way line hline).not.mpr (by omega)
          simp [Outcome.evicted?, Line.resident?, hinvalid]
      · right
        have hfull : set.emptyWay? = none := by
          rcases hpolicy with hpolicy | hfull
          · cases hpolicy
          · exact hfull
        have hle := hfills.ways_le_of_emptyWay? hwidth hfull
        refine ⟨hle, ?_⟩
        by_cases hmem : tag ∈ history
        · rw [firstTags_append_of_mem hmem]
          by_contra hfit
          obtain ⟨held, hheld⟩ := hfills.exists_holdsAt (by omega) hmem
          exact habsent held hheld
        · rw [firstTags_append_of_notMem hmem, List.length_append]
          exact Nat.lt_succ_of_le hle

theorem FillsInOrder.mem_of_isHit (hfills : set.FillsInOrder e history)
    (haccess : set.Accesses e .invalidFirst tag access) (hhit : access.outcome.isHit = true) :
    tag ∈ history :=
  hfills.accessed _ tag (haccess.holdsAt_of_isHit hhit)

theorem FillsInOrder.valid_iff_after (hfills : set.FillsInOrder e history)
    (hwidth : set.lines.length = e.ways)
    (haccess : set.Accesses e .invalidFirst tag access) {way : Nat} {line : Line}
    (hline : access.after.lines[way]? = some line) :
    line.valid = true ↔ way < (firstTags (history ++ [tag])).length := by
  cases hkind : access.outcome.isHit with
  | true =>
      rw [haccess.lines_of_isHit hkind] at hline
      rw [firstTags_append_of_mem (hfills.mem_of_isHit haccess hkind)]
      exact hfills.valid_iff way line hline
  | false =>
      obtain ⟨hlt, -⟩ := List.getElem?_eq_some_iff.mp hline
      rw [haccess.length_lines] at hlt
      rw [haccess.getElem?_lines_after] at hline
      rcases hfills.miss_cases hwidth haccess hkind with ⟨hnew, hway, -⟩ | ⟨hle, hmore⟩
      · rw [firstTags_append_of_notMem hnew, List.length_append, List.length_singleton]
        split at hline
        next hused =>
          obtain rfl := Option.some.inj hline
          simp only [Line.fetched, true_iff]
          omega
        next hother =>
          rw [hfills.valid_iff way line hline]
          omega
      · -- All ways are valid, before and after.
        refine iff_of_true ?_ (by omega)
        split at hline
        next =>
          obtain rfl := Option.some.inj hline
          rfl
        next => exact (hfills.valid_iff way line hline).mpr (by omega)

theorem FillsInOrder.holdsAt_after (hfills : set.FillsInOrder e history)
    (hwidth : set.lines.length = e.ways)
    (haccess : set.Accesses e .invalidFirst tag access)
    (hfit : (firstTags (history ++ [tag])).length ≤ e.ways) {way : Nat} {held : UInt64}
    (hget : (firstTags (history ++ [tag]))[way]? = some held) :
    access.after.HoldsAt way held := by
  cases hkind : access.outcome.isHit with
  | true =>
      rw [firstTags_append_of_mem (hfills.mem_of_isHit haccess hkind)] at hfit hget
      rw [HoldsAt, haccess.lines_of_isHit hkind]
      exact hfills.holdsAt hfit way held hget
  | false =>
      rcases hfills.miss_cases hwidth haccess hkind with ⟨hnew, hway, -⟩ | ⟨-, hmore⟩
      · rw [firstTags_append_of_notMem hnew] at hfit hget
        rw [List.length_append, List.length_singleton] at hfit
        rcases (getElem?_append_singleton_eq_some_iff _ _ _ way).mp hget with hold | ⟨rfl, rfl⟩
        · obtain ⟨hlt, -⟩ := List.getElem?_eq_some_iff.mp hold
          rw [haccess.holdsAt_of_ne (by omega)]
          exact hfills.holdsAt (by omega) way held hold
        · rw [← hway]
          exact haccess.holdsAt_way
      · exact absurd hfit (Nat.not_le_of_lt hmore)

theorem FillsInOrder.after (hfills : set.FillsInOrder e history)
    (hwidth : set.lines.length = e.ways)
    (haccess : set.Accesses e .invalidFirst tag access) :
    access.after.FillsInOrder e (history ++ [tag]) where
  accessed := fun _ _ hheld => haccess.mem_of_holdsAt hfills.accessed hheld
  valid_iff := fun _ _ hline => hfills.valid_iff_after hwidth haccess hline
  holdsAt := fun hfit _ _ hget => hfills.holdsAt_after hwidth haccess hfit hget

theorem FillsInOrder.isHit_iff (hfills : set.FillsInOrder e history)
    (haccess : set.Accesses e .invalidFirst tag access)
    (hfit : (firstTags history).length ≤ e.ways) :
    access.outcome.isHit = true ↔ tag ∈ history := by
  rw [haccess.isHit_iff]
  constructor
  · rintro ⟨way, hheld⟩
    exact hfills.accessed way tag hheld
  · exact hfills.exists_holdsAt hfit

theorem FillsInOrder.lt_of_evicted? (hfills : set.FillsInOrder e history)
    (hwidth : set.lines.length = e.ways)
    (haccess : set.Accesses e .invalidFirst tag access)
    (hevicted : access.outcome.evicted? ≠ none) :
    e.ways < (firstTags (history ++ [tag])).length := by
  cases hkind : access.outcome.isHit with
  | true => exact absurd (haccess.evicted?_of_isHit hkind) hevicted
  | false =>
      rcases hfills.miss_cases hwidth haccess hkind with ⟨-, -, hnone⟩ | ⟨-, hlt⟩
      · exact absurd hnone hevicted
      · exact hlt

end Step

end CacheSet

namespace Cache

theorem mem_map_blockOf_iff (cache : Cache) (addresses : List UInt64) (block : Block) :
    block ∈ addresses.map cache.blockOf ↔ block.tag ∈ cache.tagsOf block.index addresses := by
  rw [mem_tagsOf_iff, List.mem_map]
  apply exists_congr
  intro address
  rw [blockOf, Block.ext_iff]
  tauto

theorem card_blocks_append (cache : Cache) (past : List UInt64) (address : UInt64) :
    ((past ++ [address]).map cache.blockOf).toFinset.card =
      (past.map cache.blockOf).toFinset.card +
        if cache.blockOf address ∈ past.map cache.blockOf then 0 else 1 := by
  have hlast : ((past ++ [address]).map cache.blockOf).toFinset =
      insert (cache.blockOf address) (past.map cache.blockOf).toFinset := by
    rw [List.map_append, List.toFinset_append, Finset.union_comm]
    rfl
  rw [hlast]
  split
  next hmem => rw [Finset.insert_eq_of_mem (List.mem_toFinset.mpr hmem), Nat.add_zero]
  next hnew => rw [Finset.card_insert_of_notMem (mt List.mem_toFinset.mp hnew)]

section Runs

variable {g : Geometry} {cache : Cache} {addresses : List UInt64} {run : Run Cache}

theorem IsFresh.fillsInOrder (hvalid : g.validate = .ok ()) (hfresh : cache.IsFresh g)
    (hpolicy : g.policy = .invalidFirst) (hrun : cache.replay addresses = .ok run)
    {index : Nat} {set : CacheSet} (hset : run.after.sets[index]? = some set) :
    set.FillsInOrder cache.encoding (cache.tagsOf index addresses) := by
  refine hfresh.invariant_of_set hvalid
    (fun past _ before => before.FillsInOrder cache.encoding past) ?_
    (CacheSet.fillsInOrder_empty _ index _) hrun hset
  rw [hfresh.geometry_eq, hpolicy]
  intro past outcomes before tag access hwidth hbefore haccess
  exact hbefore.after hwidth haccess

theorem IsFresh.exists_line_valid_iff (hvalid : g.validate = .ok ()) (hfresh : cache.IsFresh g)
    (hpolicy : g.policy = .invalidFirst) (hrun : cache.replay addresses = .ok run)
    {index way : Nat} (hindex : index < g.sets) (hway : way < g.ways) :
    ∃ line, run.after.lineAt? index way = some line ∧
      (line.valid = true ↔ way < min g.ways (cache.tagsOf index addresses).toFinset.card) := by
  have hwell := hfresh.wellFormed hvalid
  have hagrees := hwell.agrees_after hrun
  have hset := Array.getElem?_eq_getElem
    (show index < run.after.sets.size by rwa [← hagrees.size, hfresh.size_sets])
  have hwidth := (hwell.wellFormed_after hrun).length_lines _ _ hset
  rw [← hagrees.encoding, hfresh.ways_eq] at hwidth
  have hline := List.getElem?_eq_getElem (hwidth ▸ hway)
  refine ⟨_, (lineAt?_of_set hset way).trans hline, ?_⟩
  rw [(hfresh.fillsInOrder hvalid hpolicy hrun hset).valid_iff way _ hline, length_firstTags]
  omega

theorem IsFresh.exists_ordered_midway (hvalid : g.validate = .ok ()) (hfresh : cache.IsFresh g)
    (hpolicy : g.policy = .invalidFirst) {past rest : List UInt64} {address : UInt64}
    (hrun : cache.replay (past ++ address :: rest) = .ok run) :
    ∃ (set : CacheSet) (inSet : Access CacheSet),
      set.FillsInOrder cache.encoding (cache.tagsOf (cache.indexOf address) past) ∧
      set.lines.length = cache.encoding.ways ∧
      set.Accesses cache.encoding .invalidFirst (cache.tagOf address) inSet ∧
      run.outcomes[past.length]? = some inSet.outcome := by
  have hwell := hfresh.wellFormed hvalid
  obtain ⟨before, set, inSet, hbefore, hset, haccess, houtcome⟩ := hwell.exists_midway hrun
  rw [hfresh.geometry_eq, hpolicy] at haccess
  refine ⟨set, inSet, hfresh.fillsInOrder hvalid hpolicy hbefore hset, ?_, haccess, houtcome⟩
  rw [(hwell.agrees_after hbefore).encoding]
  exact (hwell.wellFormed_after hbefore).length_lines _ _ hset

/-- No set is asked for more tags than it has ways. -/
def Fits (cache : Cache) (addresses : List UInt64) : Prop :=
  ∀ index, (firstTags (cache.tagsOf index addresses)).length ≤ cache.encoding.ways

theorem Fits.of_append {past rest : List UInt64} (hfits : cache.Fits (past ++ rest)) :
    cache.Fits past := by
  intro index
  have hprefix := firstTags_prefix (cache.tagsOf index past) (cache.tagsOf index rest)
  rw [← tagsOf_append] at hprefix
  exact hprefix.length_le.trans (hfits index)

theorem IsFresh.misses_eq_card (hvalid : g.validate = .ok ()) (hfresh : cache.IsFresh g)
    (hpolicy : g.policy = .invalidFirst) (hrun : cache.replay addresses = .ok run)
    (hfits : cache.Fits addresses) :
    run.after.tally.misses = (addresses.map cache.blockOf).toFinset.card := by
  have hwell := hfresh.wellFormed hvalid
  refine (hwell.invariant_of_replay
    (fun past _ after => cache.Fits past →
      after.tally.misses = (past.map cache.blockOf).toFinset.card) ?_ ?_ hrun).2 hfits
  · intro _
    rw [hfresh.tally_eq]
    rfl
  · intro past before address set inSet hbefore _ hcount hset haccess hfits
    have hagrees := hwell.agrees_after hbefore
    rw [← hagrees.indexOf_eq] at hset
    rw [← hagrees.encoding, ← hagrees.geometry, hfresh.geometry_eq, hpolicy,
      ← hagrees.layout] at haccess
    have hhit : inSet.outcome.isHit = true ↔ cache.blockOf address ∈ past.map cache.blockOf := by
      rw [mem_map_blockOf_iff]
      exact (hfresh.fillsInOrder hvalid hpolicy hbefore hset).isHit_iff haccess
        (hfits.of_append (cache.indexOf address))
    rw [card_blocks_append, ← hcount hfits.of_append, served, Tally.misses_record]
    simp only [hhit]

/-- Every block lies in the way numbered by the first access of its tag. -/
theorem IsFresh.holdsAt_idxOf (hvalid : g.validate = .ok ()) (hfresh : cache.IsFresh g)
    (hpolicy : g.policy = .invalidFirst) (hrun : cache.replay addresses = .ok run)
    (hfits : cache.Fits addresses) {block : Block} (hmem : block ∈ addresses.map cache.blockOf) :
    run.after.HoldsAt ((firstTags (cache.tagsOf block.index addresses)).idxOf block.tag)
      block := by
  have hwell := hfresh.wellFormed hvalid
  have htag := (cache.mem_map_blockOf_iff addresses block).mp hmem
  obtain ⟨address, -, rfl⟩ := List.mem_map.mp hmem
  have hlt := hwell.indexOf_lt address
  rw [(hwell.agrees_after hrun).size] at hlt
  have hset := Array.getElem?_eq_getElem hlt
  refine (holdsAt_iff_of_set hset _).mpr ?_
  apply (hfresh.fillsInOrder hvalid hpolicy hrun hset).holdsAt (hfits _)
  exact List.getElem?_idxOf ((mem_firstTags_iff _ _).mpr htag)

end Runs

/-- Under the invalid-first policy the valid ways of a set are as many of the
first ones as tags were accessed in it, and an access evicts only when these
are more than the ways.  If no set is asked for more tags than it has ways, the
misses are as many as the blocks, an access misses exactly if it is the first
of its block, and from then on the block lies in the way numbered by the order
of the first accesses in its set. -/
theorem misses_are_first_accesses (g : Geometry) (hvalid : g.validate = .ok ())
    (hpolicy : g.policy = .invalidFirst) (addresses : List UInt64) :
    ∃ cache run, ofGeometry g = .ok cache ∧ cache.replay addresses = .ok run ∧
      (∀ index < g.sets, ∀ way < g.ways, ∃ line, run.after.lineAt? index way = some line ∧
        (line.valid = true ↔ way < min g.ways (cache.tagsOf index addresses).toFinset.card)) ∧
      (∀ past address rest, addresses = past ++ address :: rest →
        ∃ outcome, run.outcomes[past.length]? = some outcome ∧
          (outcome.evicted? ≠ none → g.ways + 1 ≤
            (cache.tagsOf (cache.indexOf address) (past ++ [address])).toFinset.card)) ∧
      ((∀ index, (cache.tagsOf index addresses).toFinset.card ≤ g.ways) →
        run.after.tally.misses = (addresses.map cache.blockOf).toFinset.card ∧
        (∀ past address rest, addresses = past ++ address :: rest →
          ∃ outcome, run.outcomes[past.length]? = some outcome ∧
            (outcome.isHit = false ↔ cache.blockOf address ∉ past.map cache.blockOf)) ∧
        ∀ past rest, addresses = past ++ rest →
          ∃ midway, cache.replay past = .ok midway ∧
            ∀ block ∈ past.map cache.blockOf,
              midway.after.HoldsAt
                ((firstTags (cache.tagsOf block.index addresses)).idxOf block.tag) block) := by
  obtain ⟨cache, hcache, hfresh⟩ := exists_ofGeometry hvalid
  have hwell := hfresh.wellFormed hvalid
  obtain ⟨run, hrun⟩ := hwell.exists_run addresses
  refine ⟨cache, run, hcache, hrun, ?_, ?_, ?_⟩
  · intro index hindex way hway
    exact hfresh.exists_line_valid_iff hvalid hpolicy hrun hindex hway
  · rintro past address rest rfl
    obtain ⟨set, inSet, hfills, hwidth, haccess, houtcome⟩ :=
      hfresh.exists_ordered_midway hvalid hpolicy hrun
    refine ⟨inSet.outcome, houtcome, ?_⟩
    intro hevicted
    rw [← hfresh.ways_eq, tagsOf_append_self, ← length_firstTags]
    exact hfills.lt_of_evicted? hwidth haccess hevicted
  · intro hdistinct
    have hfits : cache.Fits addresses := by
      intro index
      rw [length_firstTags, hfresh.ways_eq]
      exact hdistinct index
    refine ⟨hfresh.misses_eq_card hvalid hpolicy hrun hfits, ?_, ?_⟩
    · rintro past address rest rfl
      obtain ⟨set, inSet, hfills, -, haccess, houtcome⟩ :=
        hfresh.exists_ordered_midway hvalid hpolicy hrun
      refine ⟨inSet.outcome, houtcome, ?_⟩
      rw [← Bool.not_eq_true, hfills.isHit_iff haccess (hfits.of_append _)]
      exact (cache.mem_map_blockOf_iff past (cache.blockOf address)).not.symm
    · rintro past rest rfl
      obtain ⟨midway, hmidway⟩ := hwell.exists_run past
      refine ⟨midway, hmidway, ?_⟩
      intro block hmem
      rw [tagsOf_append, idxOf_firstTags_append ((cache.mem_map_blockOf_iff past block).mp hmem)]
      exact hfresh.holdsAt_idxOf hvalid hpolicy hmidway hfits.of_append hmem

/-- Two sets of four ways and three blocks, of which one is accessed twice. -/
theorem four_accesses_miss_first :
    ∃ cache run,
      ofGeometry { ways := 4, sets := 2, policy := .invalidFirst } = .ok cache ∧
      cache.replay [0, 64, 0, 128] = .ok run ∧ run.after.tally.misses = 3 := by
  obtain ⟨cache, run, hcache, hrun, -, -, hcold⟩ :=
    misses_are_first_accesses { ways := 4, sets := 2, policy := .invalidFirst } rfl rfl
      [0, 64, 0, 128]
  have hfits : ∀ index, (cache.tagsOf index [0, 64, 0, 128]).toFinset.card ≤ 4 := by
    intro index
    calc
      (cache.tagsOf index [0, 64, 0, 128]).toFinset.card ≤
          (cache.tagsOf index [0, 64, 0, 128]).length := List.toFinset_card_le _
      _ ≤ 4 := by
        rw [tagsOf, List.length_map]
        exact List.length_filter_le _ _
  obtain rfl := Except.ok.inj hcache
  exact ⟨_, run, rfl, hrun, (hcold hfits).1⟩

end Cache

end PseudoLru
