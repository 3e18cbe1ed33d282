import Mathlib.Tactic
import PseudoLru.Proofs.SetAccess

/-!
# How long an old line can survive

Tags that were not accessed before are accessed one after the other, under the
tree policy.  A hit then uses a way for the first time, since the ways used so
far hold tags of the sequence; a miss uses the victim.  In one half of a node
every use is a first use of its way, or the first use of that half at all, or
it answers a use of the other half that turned the bit.  So the uses of one
half are at most its ways and the uses of the other half together.

If a way was never used, its own leaf has no uses, and going up from it one
level doubles the number of uses and adds the ways of the other half.  At the
root this bounds the length of the sequence.
-/

namespace PseudoLru

namespace Encoding

/-- The uses of ways under the same node at `height`. -/
def usesBeside (used : List Nat) (way height : Nat) : Nat :=
  used.countP fun other => other / 2 ^ height = way / 2 ^ height

/-- The uses of ways in the other half of the node above. -/
def usesAcross (used : List Nat) (way height : Nat) : Nat :=
  used.countP fun other =>
    other / 2 ^ (height + 1) = way / 2 ^ (height + 1) ∧ other / 2 ^ height ≠ way / 2 ^ height

/-- The number of used ways under the same node at `height`. -/
def waysBeside (used : List Nat) (way height : Nat) : Nat :=
  (used.toFinset.filter fun other => other / 2 ^ height = way / 2 ^ height).card

theorem usesBeside_append (used : List Nat) (last way height : Nat) :
    usesBeside (used ++ [last]) way height =
      usesBeside used way height + if last / 2 ^ height = way / 2 ^ height then 1 else 0 := by
  simp [usesBeside, List.countP_append, List.countP_singleton]

theorem usesAcross_append (used : List Nat) (last way height : Nat) :
    usesAcross (used ++ [last]) way height =
      usesAcross used way height +
        if last / 2 ^ (height + 1) = way / 2 ^ (height + 1) ∧
          last / 2 ^ height ≠ way / 2 ^ height then 1 else 0 := by
  simp [usesAcross, List.countP_append, List.countP_singleton]

theorem waysBeside_le_append (used : List Nat) (last way height : Nat) :
    waysBeside used way height ≤ waysBeside (used ++ [last]) way height := by
  apply Finset.card_le_card
  apply Finset.filter_subset_filter
  rw [List.toFinset_append]
  exact Finset.subset_union_left

theorem waysBeside_append_of_notMem {used : List Nat} {last way height : Nat}
    (hnew : last ∉ used) (hbeside : last / 2 ^ height = way / 2 ^ height) :
    waysBeside (used ++ [last]) way height = waysBeside used way height + 1 := by
  have hinsert : (used ++ [last]).toFinset = insert last used.toFinset := by
    rw [List.toFinset_append]
    simp
  unfold waysBeside
  rw [hinsert, Finset.filter_insert, if_pos hbeside, Finset.card_insert_of_notMem]
  simp [hnew]

theorem waysBeside_pos {used : List Nat} {last way height : Nat} (hmem : last ∈ used)
    (hbeside : last / 2 ^ height = way / 2 ^ height) : 0 < waysBeside used way height := by
  apply Finset.card_pos.mpr
  exact ⟨last, by simp [hmem, hbeside]⟩

theorem waysBeside_le (used : List Nat) (way height : Nat) :
    waysBeside used way height ≤ 2 ^ height := by
  have hpos := Nat.two_pow_pos height
  rw [← Finset.card_range (2 ^ height)]
  apply Finset.card_le_card_of_injOn (· % 2 ^ height)
  · intro other _
    exact Finset.mem_coe.mpr (Finset.mem_range.mpr (Nat.mod_lt other hpos))
  · intro first hfirst second hsecond heq
    have hmod : first % 2 ^ height = second % 2 ^ height := heq
    have hdivFirst := (Finset.mem_filter.mp (Finset.mem_coe.mp hfirst)).2
    have hdivSecond := (Finset.mem_filter.mp (Finset.mem_coe.mp hsecond)).2
    calc
      first = 2 ^ height * (first / 2 ^ height) + first % 2 ^ height :=
        (Nat.div_add_mod first _).symm
      _ = 2 ^ height * (second / 2 ^ height) + second % 2 ^ height := by
        rw [hdivFirst, hdivSecond, hmod]
      _ = second := Nat.div_add_mod second _

theorem usesBeside_succ (used : List Nat) (way height : Nat) :
    usesBeside used way (height + 1) =
      usesBeside used way height + usesAcross used way height := by
  induction used using List.reverseRecOn with
  | nil => rfl
  | append_singleton used last ih =>
      have hup : last / 2 ^ height = way / 2 ^ height →
          last / 2 ^ (height + 1) = way / 2 ^ (height + 1) :=
        div_two_pow_eq_of_le (Nat.le_succ height)
      rw [usesBeside_append, usesBeside_append, usesAcross_append, ih]
      split_ifs <;> simp_all <;> omega

theorem exists_sibling (block : Nat) : ∃ other, other / 2 = block / 2 ∧ other ≠ block := by
  rcases Nat.mod_two_eq_zero_or_one block with heven | hodd
  · exact ⟨block + 1, by omega, by omega⟩
  · exact ⟨block - 1, by omega, by omega⟩

theorem exists_way_across (e : Encoding) {way height : Nat} (hway : way < e.ways)
    (hheight : height < e.levels) :
    ∃ other < e.ways, other / 2 ^ (height + 1) = way / 2 ^ (height + 1) ∧
      other / 2 ^ height ≠ way / 2 ^ height := by
  have hlt : way / 2 ^ (height + 1) < 2 ^ (e.levels - (height + 1)) :=
    e.div_two_pow_lt hway hheight
  have hways : e.ways = 2 ^ (e.levels - (height + 1)) * 2 * 2 ^ height := by
    rw [ways_eq_two_pow, ← Nat.pow_succ, ← Nat.pow_add]
    congr 1
    omega
  rw [div_two_pow_succ] at hlt
  obtain ⟨block, hblock, hne⟩ := exists_sibling (way / 2 ^ height)
  have hdiv : block * 2 ^ height / 2 ^ height = block :=
    Nat.mul_div_cancel _ (Nat.two_pow_pos height)
  rw [← hblock] at hlt
  refine ⟨block * 2 ^ height, ?_, ?_, ?_⟩
  · rw [hways]
    apply Nat.mul_lt_mul_of_pos_right _ (Nat.two_pow_pos height)
    exact (Nat.div_lt_iff_lt_mul (by decide)).mp hlt
  · rw [div_two_pow_succ, div_two_pow_succ, hdiv, hblock]
  · rwa [hdiv]

theorem usesBeside_of_across {way other height : Nat} (used : List Nat)
    (hnode : other / 2 ^ (height + 1) = way / 2 ^ (height + 1))
    (hhalf : other / 2 ^ height ≠ way / 2 ^ height) :
    usesBeside used other height = usesAcross used way height := by
  unfold usesBeside usesAcross
  apply List.countP_congr
  intro used' _
  rw [div_two_pow_succ, div_two_pow_succ] at hnode
  rw [div_two_pow_succ, div_two_pow_succ, decide_eq_true_iff, decide_eq_true_iff]
  omega

/-- In each half of a node the uses are at most its used ways and the uses of
the other half together; one less if the bit points to a half already used. -/
def Balanced (e : Encoding) (used : List Nat) (state : UInt64) : Prop :=
  ∀ way < e.ways, ∀ height < e.levels,
    usesBeside used way height = 0 ∨
      (usesBeside used way height +
          if Word.testBit state (e.bitOver way height) = way.testBit height then 1 else 0) ≤
        waysBeside used way height + usesAcross used way height

theorem balanced_nil (e : Encoding) (state : UInt64) : e.Balanced [] state := by
  intro way _ height _
  left
  rfl

theorem Balanced.after_touch {e : Encoding} {used : List Nat} {state after : UInt64}
    {last : Nat} (hbalanced : e.Balanced used state) (htouch : e.touch state last = .ok after)
    (huse : last ∉ used ∨ last = e.victim state) : e.Balanced (used ++ [last]) after := by
  intro way hway height hheight
  have hgrow := waysBeside_le_append used last way height
  rw [testBit_bitOver_touch htouch hway hheight, usesBeside_append, usesAcross_append]
  by_cases hnode : last / 2 ^ (height + 1) = way / 2 ^ (height + 1)
  · have hbit := testBit_eq_iff_of_div_eq hnode
    by_cases hbeside : last / 2 ^ height = way / 2 ^ height
    · -- The bit points away now, and the use is accounted for by its way or by the old bit.
      right
      have haway : (!last.testBit height) ≠ way.testBit height := by
        rw [hbit.mpr hbeside]
        simp
      have hacross : ¬ (last / 2 ^ (height + 1) = way / 2 ^ (height + 1) ∧
          last / 2 ^ height ≠ way / 2 ^ height) := fun hacross => hacross.2 hbeside
      rw [if_pos hbeside, if_pos hnode, if_neg haway, if_neg hacross]
      rcases hbalanced way hway height hheight with hzero | hle
      · have hpos : 0 < waysBeside (used ++ [last]) way height :=
          waysBeside_pos (List.mem_append_right _ List.mem_cons_self) hbeside
        omega
      · rcases huse with hnew | hvictim
        · have hone := waysBeside_append_of_notMem hnew hbeside
          omega
        · have hposition : e.bitOver last height = e.bitOver way height :=
            (e.bitOver_eq_iff (way_lt_of_touch htouch) hway hheight hheight).mpr ⟨rfl, hnode⟩
          have htoward :
              Word.testBit state (e.bitOver way height) = way.testBit height := by
            rw [← hposition, ← hbit.mpr hbeside, hvictim,
              e.testBit_bitOver_victim state hheight]
          rw [if_pos htoward] at hle
          omega
    · -- The use across turns the bit toward the way and pays for one use beside it.
      have hacross : last / 2 ^ (height + 1) = way / 2 ^ (height + 1) ∧
          last / 2 ^ height ≠ way / 2 ^ height := ⟨hnode, hbeside⟩
      rw [if_neg hbeside, if_pos hnode, if_pos hacross]
      rcases hbalanced way hway height hheight with hzero | hle
      · left
        omega
      · right
        split_ifs at hle ⊢ <;> omega
  · have hout : ¬ last / 2 ^ height = way / 2 ^ height := by
      intro hbeside
      exact hnode (div_two_pow_eq_of_le (Nat.le_succ height) hbeside)
    have hacross : ¬ (last / 2 ^ (height + 1) = way / 2 ^ (height + 1) ∧
        last / 2 ^ height ≠ way / 2 ^ height) := fun hacross => hnode hacross.1
    rw [if_neg hout, if_neg hnode, if_neg hacross]
    rcases hbalanced way hway height hheight with hzero | hle
    · left
      omega
    · right
      omega

/-- While a way was not used, few uses fit under the nodes above it. -/
theorem Balanced.two_mul_usesBeside_le {e : Encoding} {used : List Nat} {state : UInt64}
    (hbalanced : e.Balanced used state) {way : Nat} (hway : way < e.ways)
    (hstale : way ∉ used) {height : Nat} (hheight : height ≤ e.levels) :
    2 * usesBeside used way height ≤ height * 2 ^ height := by
  induction height with
  | zero =>
      have hnone : usesBeside used way 0 = 0 := by
        unfold usesBeside
        rw [List.countP_eq_zero]
        intro other hother
        rw [decide_eq_true_iff, Nat.pow_zero, Nat.div_one, Nat.div_one]
        rintro rfl
        exact hstale hother
      omega
  | succ height ih =>
      have hbelow := ih (Nat.le_of_succ_le hheight)
      obtain ⟨other, hother, hnode, hhalf⟩ := e.exists_way_across hway hheight
      have hacross := usesBeside_of_across used hnode hhalf
      have hback := usesBeside_of_across used hnode.symm (Ne.symm hhalf)
      have hways := waysBeside_le used other height
      have hother' : usesAcross used way height ≤
          2 ^ height + usesBeside used way height := by
        rcases hbalanced other hother height hheight with hzero | hle
        · omega
        · omega
      calc
        2 * usesBeside used way (height + 1) =
            2 * usesBeside used way height + 2 * usesAcross used way height := by
          rw [usesBeside_succ, Nat.mul_add]
        _ ≤ 2 * (2 * usesBeside used way height) + 2 * 2 ^ height := by omega
        _ ≤ 2 * (height * 2 ^ height) + 2 * 2 ^ height := by omega
        _ = (height + 1) * 2 ^ (height + 1) := by ring

theorem Balanced.mem_of_long {e : Encoding} {used : List Nat} {state : UInt64}
    (hbalanced : e.Balanced used state) (hused : ∀ way ∈ used, way < e.ways)
    (hlong : e.ways / 2 * e.levels + 1 ≤ used.length) {way : Nat} (hway : way < e.ways) :
    way ∈ used := by
  by_contra hstale
  have hbound := hbalanced.two_mul_usesBeside_le hway hstale (Nat.le_refl e.levels)
  have hall : usesBeside used way e.levels = used.length := by
    unfold usesBeside
    rw [List.countP_eq_length]
    intro other hother
    rw [decide_eq_true_iff, ← ways_eq_two_pow, Nat.div_eq_of_lt (hused other hother),
      Nat.div_eq_of_lt hway]
  have heven : e.levels * 2 ^ e.levels = 2 * (e.ways / 2 * e.levels) := by
    rw [ways_eq_two_pow]
    cases e.levels with
    | zero => rfl
    | succ levels =>
        rw [Nat.pow_succ, Nat.mul_div_cancel _ (by decide)]
        ring
  rw [hall, heven] at hbound
  omega

end Encoding

namespace CacheSet

structure Renews (e : Encoding) (tags : List UInt64) (used : List Nat) (set : CacheSet) :
    Prop where
  length_eq : used.length = tags.length
  way_lt : ∀ way ∈ used, way < e.ways
  holdsAt : ∀ way ∈ used, ∃ tag ∈ tags, set.HoldsAt way tag
  balanced : e.Balanced used set.state

theorem renews_nil (e : Encoding) (set : CacheSet) : set.Renews e [] [] where
  length_eq := rfl
  way_lt := by simp
  holdsAt := by simp
  balanced := e.balanced_nil set.state

theorem Renews.after {e : Encoding} {tags : List UInt64} {used : List Nat} {set : CacheSet}
    {tag : UInt64} {access : Access CacheSet} (hrenews : set.Renews e tags used)
    (haccess : set.Accesses e .tree tag access) (hnew : tag ∉ tags) :
    access.after.Renews e (tags ++ [tag]) (used ++ [access.outcome.way]) where
  length_eq := by
    rw [List.length_append, List.length_append, hrenews.length_eq]
    rfl
  way_lt := by
    intro way hway
    rcases List.mem_append.mp hway with hold | hlast
    · exact hrenews.way_lt way hold
    · rw [List.mem_singleton.mp hlast]
      exact haccess.way_lt
  holdsAt := by
    intro way hway
    by_cases hlast : way = access.outcome.way
    · subst way
      exact ⟨tag, List.mem_append_right _ List.mem_cons_self, haccess.holdsAt_way⟩
    · have hold : way ∈ used := by
        rcases List.mem_append.mp hway with hold | hmem
        · exact hold
        · exact absurd (List.mem_singleton.mp hmem) hlast
      obtain ⟨held, hheld, hholds⟩ := hrenews.holdsAt way hold
      exact ⟨held, List.mem_append_left _ hheld, (haccess.holdsAt_of_ne hlast held).mpr hholds⟩
  balanced := by
    apply hrenews.balanced.after_touch haccess.touch
    cases haccess with
    | hit _ hprobe =>
        left
        intro hused
        obtain ⟨held, hheld, hholds⟩ := hrenews.holdsAt _ hused
        rw [holdsAt_unique hholds (holdsAt_of_probe hprobe)] at hheld
        exact hnew hheld
    | miss _ _ _ hfills =>
        right
        rcases hfills with ⟨hpolicy, _⟩ | ⟨_, hvictim⟩
        · cases hpolicy
        · exact hvictim

theorem exists_renewing_replay {e : Encoding} {set : CacheSet}
    (hwidth : set.lines.length = e.ways) {tags : List UInt64} (hdistinct : tags.Nodup) :
    ∃ run, set.replay e .tree tags = .ok run ∧ run.after.lines.length = e.ways ∧
      run.after.Renews e tags (run.outcomes.map (·.way)) := by
  obtain ⟨run, hrun, hlength, hrenews⟩ :=
    exists_replay e .tree
      (fun past outcomes set =>
        past.Nodup → set.Renews e past (outcomes.map (·.way)))
      (fun past outcomes _ tag access _ hset haccess hnodup => by
        rw [List.nodup_append] at hnodup
        rw [List.map_append, List.map_singleton]
        apply (hset hnodup.1).after haccess
        intro hmem
        exact hnodup.2.2 tag hmem tag List.mem_cons_self rfl)
      hwidth (fun _ => renews_nil e set) tags
  exact ⟨run, hrun, hlength, hrenews hdistinct⟩

/-- Whatever a set was used for before, after one more than
`ways / 2 * levels` accesses of distinct tags under the tree policy every way
is valid and holds one of these tags. -/
theorem all_ways_renewed (e : Encoding) (index : Nat) (earlier tags : List UInt64)
    (hdistinct : tags.Nodup) (hlong : e.ways / 2 * e.levels + 1 ≤ tags.length) :
    ∃ reached final, (empty index e.ways).replay e .tree earlier = .ok reached ∧
      reached.after.replay e .tree tags = .ok final ∧
      final.after.lines.length = e.ways ∧
      ∀ line ∈ final.after.lines, line.valid = true ∧ line.tag ∈ tags := by
  obtain ⟨reached, hreached, hwidth, -⟩ :=
    exists_replay e .tree (fun _ _ _ => True) (fun _ _ _ _ _ _ _ _ => trivial)
      (length_lines_empty index e.ways) trivial earlier
  obtain ⟨final, hfinal, hlength, hrenews⟩ := exists_renewing_replay hwidth hdistinct
  refine ⟨reached, final, hreached, hfinal, hlength, ?_⟩
  intro line hline
  obtain ⟨way, hway, hget⟩ := List.mem_iff_getElem.mp hline
  have hused : way ∈ final.outcomes.map (·.way) := by
    apply hrenews.balanced.mem_of_long hrenews.way_lt
    · rwa [hrenews.length_eq]
    · rwa [← hlength]
  obtain ⟨tag, htag, hholds⟩ := hrenews.holdsAt way hused
  unfold HoldsAt at hholds
  rw [List.getElem?_eq_getElem hway, hget, Option.some.injEq] at hholds
  rw [hholds]
  exact ⟨rfl, htag⟩

/-- A set of four ways that held the tags 1, 2 and 3 in three of its ways. -/
theorem four_ways_renewed :
    let e := Encoding.ofLevels 2 (by decide)
    ∃ reached final, (empty 0 e.ways).replay e .tree [1, 2, 3, 1] = .ok reached ∧
      reached.after.replay e .tree [2, 10, 1, 11, 12] = .ok final ∧
      final.after.lines.length = e.ways ∧
      ∀ line ∈ final.after.lines, line.valid = true ∧ line.tag ∈ [2, 10, 1, 11, 12] :=
  all_ways_renewed (Encoding.ofLevels 2 (by decide)) 0 [1, 2, 3, 1] [2, 10, 1, 11, 12]
    (by decide) (by decide)

end CacheSet

end PseudoLru
