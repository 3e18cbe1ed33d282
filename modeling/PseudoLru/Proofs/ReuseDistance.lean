import Mathlib.Tactic
import PseudoLru.Proofs.Recency
import PseudoLru.Proofs.SetAccess

/-!
# Recently accessed tags stay

A tag is displaced only if all bits above its way point toward it.  A bit that
points toward a way was last set by an access in the other half of its node,
and the tag of this access is still held there: a later access of that way
would have set the bit again.  Nodes at different heights have disjoint other
halves, so a tag is displaced only after as many distinct tags as the tree has
levels were accessed since, and by an access of one more.

Hence the most recent distinct tags are held, one more of them than the tree
has levels, under both policies.
-/

namespace PseudoLru.CacheSet

open History

/-- The tag `guard` in the other half of the node above `way` was accessed
after `tag`. -/
def GuardedAt (set : CacheSet) (history : List UInt64) (way : Nat) (tag : UInt64)
    (height other : Nat) (guard : UInt64) : Prop :=
  other / 2 ^ (height + 1) = way / 2 ^ (height + 1) ∧
    other / 2 ^ height ≠ way / 2 ^ height ∧
      set.HoldsAt other guard ∧ guard ∈ since tag history

structure Protects (e : Encoding) (history : List UInt64) (set : CacheSet) : Prop where
  distinct : set.Distinct
  accessed : ∀ way tag, set.HoldsAt way tag → tag ∈ history
  guarded :
    ∀ way tag height, set.HoldsAt way tag → height < e.levels →
      Word.testBit set.state (e.bitOver way height) = way.testBit height →
        ∃ other guard, set.GuardedAt history way tag height other guard
  forgotten :
    ∀ tag ∈ history, (∀ way, ¬ set.HoldsAt way tag) → e.levels < distance tag history

theorem protects_empty (e : Encoding) (index : Nat) :
    (empty index e.ways).Protects e [] where
  distinct := fun way _ tag hway _ => absurd hway (not_holdsAt_empty index e.ways way tag)
  accessed := fun way tag hway => absurd hway (not_holdsAt_empty index e.ways way tag)
  guarded := fun way tag _ hway => absurd hway (not_holdsAt_empty index e.ways way tag)
  forgotten := by simp

theorem height_eq_of_guardedAt {set : CacheSet} {history : List UInt64} {way : Nat}
    {tag guard : UInt64} {height height' other : Nat}
    (h : set.GuardedAt history way tag height other guard)
    (h' : set.GuardedAt history way tag height' other guard) : height = height' := by
  by_contra hne
  rcases Nat.lt_or_gt_of_ne hne with hlt | hgt
  · exact h'.2.1 (Encoding.div_two_pow_eq_of_le hlt h.1)
  · exact h.2.1 (Encoding.div_two_pow_eq_of_le hgt h'.1)

/-- If all bits above a held tag point toward it, as many other held tags as
the tree has levels were accessed since. -/
theorem Protects.exists_guards {e : Encoding} {history : List UInt64} {set : CacheSet}
    (hprotects : set.Protects e history) {way : Nat} {tag : UInt64}
    (hheld : set.HoldsAt way tag)
    (htoward : ∀ height < e.levels,
      Word.testBit set.state (e.bitOver way height) = way.testBit height) :
    ∃ guards : Finset UInt64, guards.card = e.levels ∧
      guards ⊆ (since tag history).toFinset ∧
        ∀ guard ∈ guards, ∃ other, set.HoldsAt other guard := by
  have hguarded : ∀ height : Fin e.levels,
      ∃ other guard, set.GuardedAt history way tag height other guard := by
    intro height
    exact hprotects.guarded way tag height hheld height.isLt (htoward height height.isLt)
  choose other guard hguard using hguarded
  have hinjective : Function.Injective guard := by
    intro height height' heq
    have hway : other height = other height' := by
      apply hprotects.distinct _ _ _ (hguard height).2.2.1
      rw [heq]
      exact (hguard height').2.2.1
    apply Fin.ext
    apply height_eq_of_guardedAt (hguard height)
    rw [heq, hway]
    exact hguard height'
  refine ⟨Finset.univ.image guard, ?_, ?_, ?_⟩
  · rw [Finset.card_image_of_injective _ hinjective, Finset.card_univ, Fintype.card_fin]
  · intro tag' htag'
    obtain ⟨height, -, rfl⟩ := Finset.mem_image.mp htag'
    exact List.mem_toFinset.mpr (hguard height).2.2.2
  · intro tag' htag'
    obtain ⟨height, -, rfl⟩ := Finset.mem_image.mp htag'
    exact ⟨other height, (hguard height).2.2.1⟩

section Step

variable {e : Encoding} {policy : VictimPolicy} {history : List UInt64} {set : CacheSet}
  {tag : UInt64} {access : Access CacheSet}

theorem Protects.ne_tag_of_holdsAt_of_ne (hprotects : set.Protects e history)
    (haccess : set.Accesses e policy tag access) {way : Nat} {held : UInt64}
    (hway : way ≠ access.outcome.way) (hheld : set.HoldsAt way held) : tag ≠ held := by
  rintro rfl
  exact hway (haccess.way_eq_of_holdsAt hprotects.distinct hheld)

theorem Protects.guarded_after (hprotects : set.Protects e history)
    (hwidth : set.lines.length = e.ways) (haccess : set.Accesses e policy tag access)
    {way : Nat} {held : UInt64} {height : Nat} (hheld : access.after.HoldsAt way held)
    (hheight : height < e.levels)
    (htoward : Word.testBit access.after.state (e.bitOver way height) = way.testBit height) :
    ∃ other guard,
      access.after.GuardedAt (history ++ [tag]) way held height other guard := by
  have hway : way < e.ways := by
    rw [← hwidth, ← haccess.length_lines]
    exact lt_of_holdsAt hheld
  rw [Encoding.testBit_bitOver_touch haccess.touch hway hheight] at htoward
  by_cases hused : way = access.outcome.way
  · -- The bits above the way of the access point away from it.
    subst way
    simp at htoward
  · rw [haccess.holdsAt_of_ne hused] at hheld
    have hne : tag ≠ held := hprotects.ne_tag_of_holdsAt_of_ne haccess hused hheld
    have hsince := since_append_of_ne hne history
    by_cases hnode : access.outcome.way / 2 ^ (height + 1) = way / 2 ^ (height + 1)
    · -- The access set this bit, so it was in the other half.
      rw [if_pos hnode] at htoward
      refine ⟨access.outcome.way, tag, hnode, ?_, haccess.holdsAt_way, ?_⟩
      · rw [ne_eq, ← Encoding.testBit_eq_iff_of_div_eq hnode, ← htoward]
        simp
      · rw [hsince]
        exact List.mem_append_right _ List.mem_cons_self
    · rw [if_neg hnode] at htoward
      obtain ⟨other, guard, hother, hhalf, hguard, hmem⟩ :=
        hprotects.guarded way held height hheld hheight htoward
      have hkept : other ≠ access.outcome.way := by
        rintro rfl
        exact hnode hother
      refine ⟨other, guard, hother, hhalf, ?_, ?_⟩
      · rwa [haccess.holdsAt_of_ne hkept]
      · rw [hsince]
        exact List.mem_append_left _ hmem

theorem Protects.forgotten_after (hprotects : set.Protects e history)
    (haccess : set.Accesses e policy tag access) {lost : UInt64}
    (hmem : lost ∈ history ++ [tag]) (hlost : ∀ way, ¬ access.after.HoldsAt way lost) :
    e.levels < distance lost (history ++ [tag]) := by
  have hne : tag ≠ lost := by
    rintro rfl
    exact hlost _ haccess.holdsAt_way
  have hold : lost ∈ history := by
    rcases List.mem_append.mp hmem with hold | hnew
    · exact hold
    · exact absurd (List.mem_singleton.mp hnew).symm hne
  by_cases hbefore : ∃ way, set.HoldsAt way lost
  · -- The access displaces the tag, so it fills the victim.
    obtain ⟨way, hheld⟩ := hbefore
    have hused : way = access.outcome.way := by
      by_contra hused
      exact hlost way ((haccess.holdsAt_of_ne hused lost).mpr hheld)
    subst way
    obtain ⟨hvictim, habsent⟩ := haccess.displaced hheld (Ne.symm hne)
    have htoward : ∀ height < e.levels,
        Word.testBit set.state (e.bitOver access.outcome.way height) =
          access.outcome.way.testBit height := by
      intro height hheight
      rw [hvictim, e.testBit_bitOver_victim set.state hheight]
    obtain ⟨guards, hcard, hsubset, hheldGuards⟩ := hprotects.exists_guards hheld htoward
    have hnotGuard : tag ∉ guards := by
      intro hguard
      obtain ⟨other, hother⟩ := hheldGuards tag hguard
      exact habsent other hother
    calc
      e.levels < (insert tag guards).card := by
        rw [Finset.card_insert_of_notMem hnotGuard, hcard]
        exact Nat.lt_succ_self _
      _ ≤ (insert tag (since lost history).toFinset).card :=
        Finset.card_le_card (Finset.insert_subset_insert tag hsubset)
      _ = distance lost (history ++ [tag]) := (distance_append_of_ne hne history).symm
  · have hfar := hprotects.forgotten lost hold (not_exists.mp hbefore)
    exact Nat.lt_of_lt_of_le hfar (distance_le_append_of_ne hne history)

theorem Protects.after (hprotects : set.Protects e history)
    (hwidth : set.lines.length = e.ways) (haccess : set.Accesses e policy tag access) :
    access.after.Protects e (history ++ [tag]) where
  distinct := haccess.distinct hprotects.distinct
  accessed := fun _ _ hheld => haccess.mem_of_holdsAt hprotects.accessed hheld
  guarded := fun _ _ _ hheld hheight htoward =>
    hprotects.guarded_after hwidth haccess hheld hheight htoward
  forgotten := fun _ hmem hlost => hprotects.forgotten_after haccess hmem hlost

theorem Protects.holdsAt_of_distance_le (hprotects : set.Protects e history)
    (hmem : tag ∈ history) (hdistance : distance tag history ≤ e.levels) :
    ∃ way, set.HoldsAt way tag := by
  by_contra hnone
  have hfar := hprotects.forgotten tag hmem (not_exists.mp hnone)
  omega

theorem Protects.distance_lt_of_holdsAt (hprotects : set.Protects e history)
    (hwidth : set.lines.length = e.ways) (hsmall : e.ways ≤ 2) {way : Nat}
    (hheld : set.HoldsAt way tag) : distance tag history < e.ways := by
  by_contra hge
  have hlevels := e.levels_add_one_of_ways_le_two hsmall
  have hmem := hprotects.accessed way tag hheld
  have hlength : ((recentTags history).take e.ways).length = e.ways := by
    obtain ⟨older, hrecent⟩ := exists_recentTags_eq hmem
    rw [List.length_take, hrecent, List.length_append, List.length_reverse,
      ← List.card_toFinset, ← distance]
    omega
  have hnot : tag ∉ ((recentTags history).take e.ways).toFinset := by
    rw [List.mem_toFinset, mem_take_recentTags_iff]
    rintro ⟨-, hlt⟩
    exact hge hlt
  have hall : ∀ held ∈ insert tag ((recentTags history).take e.ways).toFinset,
      ∃ way, set.HoldsAt way held := by
    intro held hin
    rcases Finset.mem_insert.mp hin with rfl | hrecent
    · exact ⟨way, hheld⟩
    · rw [List.mem_toFinset, mem_take_recentTags_iff] at hrecent
      exact hprotects.holdsAt_of_distance_le hrecent.1 (by omega)
  have hcard := card_le_length_of_holdsAt hall
  rw [Finset.card_insert_of_notMem hnot, List.toFinset_card_of_nodup
    ((nodup_recentTags history).sublist (List.take_sublist _ _)), hlength, hwidth] at hcard
  omega

end Step

/-- Under both policies the most recent distinct tags are held, one more of
them than the tree has levels, so an access hits if no more tags than levels
were accessed since the last one of its tag.  A set of one or two ways holds
exactly its most recent tags. -/
theorem recentTags_held (e : Encoding) (policy : VictimPolicy) (index : Nat)
    (history : List UInt64) :
    ∃ run, (empty index e.ways).replay e policy history = .ok run ∧
      (∀ tag ∈ (recentTags history).take (e.levels + 1),
        (run.after.probe tag).isSome = true) ∧
      (∀ earlier tag between, history = earlier ++ tag :: between → tag ∉ between →
        between.toFinset.card ≤ e.levels →
          ∃ access, run.after.access e policy tag = .ok access ∧
            access.outcome.isHit = true) ∧
      (e.ways ≤ 2 → ∀ tag, (run.after.probe tag).isSome = true ↔
        tag ∈ (recentTags history).take e.ways) := by
  obtain ⟨run, hrun, hwidth, hprotects⟩ :=
    exists_replay e policy (fun past _ set => set.Protects e past)
      (fun _ _ _ _ _ hwidth hset haccess => hset.after hwidth haccess)
      (length_lines_empty index e.ways) (protects_empty e index) history
  refine ⟨run, hrun, ?_, ?_, ?_⟩
  · intro tag hrecent
    obtain ⟨hmem, hlt⟩ := (mem_take_recentTags_iff tag history _).mp hrecent
    rw [probe_isSome_iff]
    exact hprotects.holdsAt_of_distance_le hmem (Nat.le_of_lt_succ hlt)
  · rintro earlier tag between rfl hbetween hcard
    obtain ⟨access, hok, haccess⟩ := exists_access hwidth policy tag
    refine ⟨access, hok, haccess.isHit_iff.mpr ?_⟩
    apply hprotects.holdsAt_of_distance_le (by simp)
    rwa [distance, since_append_cons hbetween]
  · intro hsmall tag
    rw [probe_isSome_iff, mem_take_recentTags_iff]
    constructor
    · rintro ⟨way, hheld⟩
      exact ⟨hprotects.accessed way tag hheld,
        hprotects.distance_lt_of_holdsAt hwidth hsmall hheld⟩
    · rintro ⟨hmem, hlt⟩
      rw [← e.levels_add_one_of_ways_le_two hsmall] at hlt
      exact hprotects.holdsAt_of_distance_le hmem (Nat.le_of_lt_succ hlt)

end PseudoLru.CacheSet
