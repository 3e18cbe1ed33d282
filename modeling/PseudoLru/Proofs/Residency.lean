import Mathlib.Tactic
import PseudoLru.Proofs.SetRuns

/-!
# Resident blocks

The tag and the set number of an address name the block that a cache fetches
for it.  An access of a block changes one line of one set: afterwards the line
of the way it uses holds the block, and all other lines are as before.  On a
hit that line held the block already, so nothing changes; on a miss it gives up
the block that it held, if it was valid.

No block is held twice.  So a block that is given up is gone, and every block
has been fetched once more than it was evicted while it is resident, and as
often as it was evicted while it is not.
-/

namespace PseudoLru

/-- A tag together with the number of the set in which it is looked up. -/
@[ext] structure Block where
  tag : UInt64
  index : Nat
  deriving DecidableEq, Repr

namespace Outcome

/-- Did the access displace the block? -/
def evicts (outcome : Outcome) (block : Block) : Bool :=
  outcome.evicted? = some block.tag ∧ outcome.setIndex = block.index

end Outcome

namespace Cache

def blockOf (cache : Cache) (address : UInt64) : Block :=
  ⟨cache.tagOf address, cache.indexOf address⟩

theorem blockOf_congr {cache other : Cache} (hlayout : cache.layout = other.layout) :
    cache.blockOf = other.blockOf := by
  funext address
  rw [blockOf, blockOf, tagOf, tagOf, indexOf, indexOf, hlayout]

def lineAt? (cache : Cache) (index way : Nat) : Option Line :=
  cache.sets[index]?.bind fun set => set.lines[way]?

def HoldsAt (cache : Cache) (way : Nat) (block : Block) : Prop :=
  cache.lineAt? block.index way = some (Line.fetched block.tag)

def Resident (cache : Cache) (block : Block) : Prop := ∃ way, cache.HoldsAt way block

/-- No block is held by two ways. -/
def Distinct (cache : Cache) : Prop :=
  ∀ way other block, cache.HoldsAt way block → cache.HoldsAt other block → way = other

theorem lineAt?_of_set {cache : Cache} {index : Nat} {set : CacheSet}
    (hset : cache.sets[index]? = some set) (way : Nat) :
    cache.lineAt? index way = set.lines[way]? := by
  rw [lineAt?, hset, Option.bind_some]

theorem holdsAt_iff_of_set {cache : Cache} {block : Block} {set : CacheSet}
    (hset : cache.sets[block.index]? = some set) (way : Nat) :
    cache.HoldsAt way block ↔ set.HoldsAt way block.tag := by
  rw [HoldsAt, lineAt?_of_set hset, CacheSet.HoldsAt]

theorem resident_iff_of_set {cache : Cache} {block : Block} {set : CacheSet}
    (hset : cache.sets[block.index]? = some set) :
    cache.Resident block ↔ (set.probe block.tag).isSome = true := by
  rw [CacheSet.probe_isSome_iff]
  exact exists_congr (holdsAt_iff_of_set hset)

theorem not_holdsAt_of_none {cache : Cache} {block : Block}
    (hnone : cache.sets[block.index]? = none) (way : Nat) : ¬ cache.HoldsAt way block := by
  simp [HoldsAt, lineAt?, hnone]

instance (cache : Cache) (block : Block) : Decidable (cache.Resident block) :=
  decidable_of_iff
    ((cache.sets[block.index]?.any fun set => (set.probe block.tag).isSome) = true) (by
      cases hset : cache.sets[block.index]? with
      | none => simpa [Resident] using not_holdsAt_of_none hset
      | some set => rw [resident_iff_of_set hset, Option.any_some])

theorem WellFormed.contains_eq {cache : Cache} (hwell : cache.WellFormed) (address : UInt64) :
    cache.contains address = .ok (decide (cache.Resident (cache.blockOf address))) := by
  obtain ⟨set, hset⟩ : ∃ set, cache.sets[(cache.blockOf address).index]? = some set :=
    ⟨_, Array.getElem?_eq_getElem (hwell.indexOf_lt address)⟩
  have hprobe : (set.probe (cache.blockOf address).tag).isSome =
      decide (cache.Resident (cache.blockOf address)) := by
    rw [Bool.eq_iff_iff, decide_eq_true_iff, resident_iff_of_set hset]
  have hselected : cache.sets[(cache.layout.decode address).index.toNat]? = some set := hset
  rw [← hprobe, contains, hselected]
  rfl

/-! ## One access -/

/-- What an access of `block` does to the lines of a cache. -/
structure Serves (before : Cache) (block : Block) (outcome : Outcome) (after : Cache) :
    Prop where
  setIndex_eq : outcome.setIndex = block.index
  isHit_iff : outcome.isHit = true ↔ before.Resident block
  holdsAt_of_isHit : outcome.isHit = true → before.HoldsAt outcome.way block
  evicted?_of_isHit : outcome.isHit = true → outcome.evicted? = none
  evicted?_of_miss :
    outcome.isHit = false →
      ∃ line, before.lineAt? block.index outcome.way = some line ∧
        outcome.evicted? = line.resident?
  lineAt?_after :
    ∀ index way, after.lineAt? index way =
      if index = block.index ∧ way = outcome.way then some (Line.fetched block.tag)
      else before.lineAt? index way

theorem serves_served {cache : Cache} (hwell : cache.WellFormed) {address : UInt64}
    {set : CacheSet} {inSet : Access CacheSet}
    (hset : cache.sets[cache.indexOf address]? = some set)
    (haccess : set.Accesses cache.encoding cache.geometry.policy (cache.tagOf address) inSet) :
    cache.Serves (cache.blockOf address) inSet.outcome
      (cache.served (cache.indexOf address) inSet) := by
  have hblock : cache.sets[(cache.blockOf address).index]? = some set := hset
  have hholds := holdsAt_iff_of_set hblock
  constructor
  · exact haccess.setIndex_eq.trans (hwell.index_eq _ _ hset)
  · exact haccess.isHit_iff.trans (exists_congr hholds).symm
  · intro hhit
    exact (hholds _).mpr (haccess.holdsAt_of_isHit hhit)
  · exact haccess.evicted?_of_isHit
  · intro hmiss
    obtain ⟨line, hline, hevicted⟩ := haccess.exists_evicted?_of_miss hmiss
    exact ⟨line, (lineAt?_of_set hset _).trans hline, hevicted⟩
  · intro index way
    by_cases hindex : cache.indexOf address = index
    · subst hindex
      rw [lineAt?_of_set (getElem?_sets_served_self hset), lineAt?_of_set hset,
        haccess.getElem?_lines_after]
      simp [blockOf]
    · rw [lineAt?, getElem?_sets_served_of_ne hindex, if_neg (fun h => hindex h.1.symm), lineAt?]

section Serves

variable {before after : Cache} {block : Block} {outcome : Outcome}

theorem Serves.holdsAt_way (hserves : before.Serves block outcome after) :
    after.HoldsAt outcome.way block := by
  rw [HoldsAt, hserves.lineAt?_after, if_pos ⟨rfl, rfl⟩]

theorem Serves.lineAt?_of_isHit (hserves : before.Serves block outcome after)
    (hhit : outcome.isHit = true) (index way : Nat) :
    after.lineAt? index way = before.lineAt? index way := by
  rw [hserves.lineAt?_after]
  split
  next heq =>
    obtain ⟨rfl, rfl⟩ := heq
    exact (hserves.holdsAt_of_isHit hhit).symm
  next => rfl

theorem Serves.holdsAt_iff_of_ne (hserves : before.Serves block outcome after) {way : Nat}
    {other : Block} (hline : ¬ (other.index = block.index ∧ way = outcome.way)) :
    after.HoldsAt way other ↔ before.HoldsAt way other := by
  rw [HoldsAt, hserves.lineAt?_after, if_neg hline, HoldsAt]

/-- The line of an access holds no other block afterwards. -/
theorem Serves.eq_of_holdsAt (hserves : before.Serves block outcome after) {other : Block}
    (hindex : other.index = block.index) (hheld : after.HoldsAt outcome.way other) :
    other = block := by
  rw [HoldsAt, hserves.lineAt?_after, if_pos ⟨hindex, rfl⟩, Option.some.injEq] at hheld
  have htag : block.tag = other.tag := congrArg Line.tag hheld
  cases other
  cases block
  simp_all

theorem Serves.way_eq_of_holdsAt (hserves : before.Serves block outcome after)
    (hdistinct : before.Distinct) {way : Nat} (hheld : after.HoldsAt way block) :
    way = outcome.way := by
  by_contra hway
  -- Another way would have held the block before, so the access would have hit there.
  rw [hserves.holdsAt_iff_of_ne fun hline => hway hline.2] at hheld
  have hhit := hserves.isHit_iff.mpr ⟨way, hheld⟩
  exact hway (hdistinct way outcome.way block hheld (hserves.holdsAt_of_isHit hhit))

theorem Serves.distinct (hserves : before.Serves block outcome after)
    (hdistinct : before.Distinct) : after.Distinct := by
  intro way other held hway hother
  by_cases hheld : held = block
  · subst held
    rw [hserves.way_eq_of_holdsAt hdistinct hway, hserves.way_eq_of_holdsAt hdistinct hother]
  · have hkept : ∀ way', after.HoldsAt way' held → before.HoldsAt way' held := by
      intro way' hway'
      apply (hserves.holdsAt_iff_of_ne _).mp hway'
      rintro ⟨hindex, rfl⟩
      exact hheld (hserves.eq_of_holdsAt hindex hway')
    exact hdistinct way other held (hkept way hway) (hkept other hother)

theorem Serves.evicts_iff (hserves : before.Serves block outcome after) (other : Block) :
    outcome.evicts other = true ↔
      outcome.isHit = false ∧ other.index = block.index ∧ before.HoldsAt outcome.way other := by
  unfold Outcome.evicts
  rw [decide_eq_true_iff, hserves.setIndex_eq, eq_comm (a := block.index)]
  cases hkind : outcome.isHit with
  | true => simp [hserves.evicted?_of_isHit hkind]
  | false =>
      obtain ⟨line, hline, hevicted⟩ := hserves.evicted?_of_miss hkind
      rw [hevicted, ← line.holds_iff_resident?, Line.holds_iff_eq_fetched]
      constructor
      · rintro ⟨rfl, hindex⟩
        exact ⟨rfl, hindex, by rw [HoldsAt, hindex, hline]⟩
      · rintro ⟨-, hindex, hheld⟩
        rw [HoldsAt, hindex, hline, Option.some.injEq] at hheld
        exact ⟨hheld, hindex⟩

theorem Serves.ne_of_evicts (hserves : before.Serves block outcome after) {other : Block}
    (hevicts : outcome.evicts other = true) : other ≠ block := by
  rintro rfl
  obtain ⟨hmiss, -, hheld⟩ := (hserves.evicts_iff other).mp hevicts
  rw [hserves.isHit_iff.mpr ⟨_, hheld⟩] at hmiss
  contradiction

theorem Serves.not_resident_of_evicts (hserves : before.Serves block outcome after)
    (hdistinct : before.Distinct) {other : Block} (hevicts : outcome.evicts other = true) :
    ¬ after.Resident other := by
  rintro ⟨way, hway⟩
  obtain ⟨-, hindex, hheld⟩ := (hserves.evicts_iff other).mp hevicts
  have hne : way ≠ outcome.way := by
    rintro rfl
    exact hserves.ne_of_evicts hevicts (hserves.eq_of_holdsAt hindex hway)
  rw [hserves.holdsAt_iff_of_ne fun hline => hne hline.2] at hway
  exact hne (hdistinct way outcome.way other hway hheld)

/-- Blocks that are neither fetched nor evicted stay where they are. -/
theorem Serves.holdsAt_iff_of_not_evicts (hserves : before.Serves block outcome after)
    {other : Block} (hother : other ≠ block) (hkept : outcome.evicts other ≠ true) (way : Nat) :
    after.HoldsAt way other ↔ before.HoldsAt way other := by
  by_cases hline : other.index = block.index ∧ way = outcome.way
  · obtain ⟨hindex, rfl⟩ := hline
    constructor
    · intro hafter
      exact absurd (hserves.eq_of_holdsAt hindex hafter) hother
    · intro hbefore
      cases hkind : outcome.isHit with
      | false => exact absurd ((hserves.evicts_iff other).mpr ⟨hkind, hindex, hbefore⟩) hkept
      | true => rwa [HoldsAt, hserves.lineAt?_of_isHit hkind]
  · exact hserves.holdsAt_iff_of_ne hline

theorem Serves.valid_after (hserves : before.Serves block outcome after) {index way : Nat}
    {line : Line} (hline : before.lineAt? index way = some line) (hvalid : line.valid = true) :
    ∃ line', after.lineAt? index way = some line' ∧ line'.valid = true := by
  rw [hserves.lineAt?_after]
  split
  next => exact ⟨_, rfl, rfl⟩
  next => exact ⟨line, hline, hvalid⟩

/-- A block becomes resident by a miss of its own and ceases to be by an
eviction. -/
theorem Serves.resident_balance (hserves : before.Serves block outcome after)
    (hdistinct : before.Distinct) (other : Block) :
    (if block = other ∧ outcome.isHit = false then 1 else 0) +
        (if before.Resident other then 1 else 0) =
      (if outcome.evicts other = true then 1 else 0) + if after.Resident other then 1 else 0 := by
  by_cases hother : other = block
  · subst other
    have hafter : after.Resident block := ⟨_, hserves.holdsAt_way⟩
    have hkept : ¬ outcome.evicts block = true := fun hevicts => hserves.ne_of_evicts hevicts rfl
    have hbefore := hserves.isHit_iff
    cases hkind : outcome.isHit <;> simp_all
  · have hne : block ≠ other := Ne.symm hother
    by_cases hevicts : outcome.evicts other = true
    · have hafter := hserves.not_resident_of_evicts hdistinct hevicts
      have hbefore : before.Resident other :=
        ⟨_, ((hserves.evicts_iff other).mp hevicts).2.2⟩
      simp [hne, hevicts, hafter, hbefore]
    · have hsame : after.Resident other ↔ before.Resident other :=
        exists_congr (hserves.holdsAt_iff_of_not_evicts hother hevicts)
      simp [hne, hevicts, hsame]

end Serves

end Cache

end PseudoLru
