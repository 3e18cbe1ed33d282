import Mathlib.Tactic
import PseudoLru.Proofs.ColdMisses
import PseudoLru.Proofs.MissOrder
import PseudoLru.Proofs.Soundness

/-!
# The states a set can reach

The bit of a node is fixed by the last use under the node alone.  So a
reference to every way, each once, forgets the state before, and the order of
the references decides every bit: the ways of one half of the root come before
those of the other, the half toward which the bit shall not point comes last,
and within each half the order is found in the same way.  The references in the
later half do not disturb the bits that the earlier half has set up.

A set that is full holds a tag in every way, so these references can be made by
hits.  Hence no state that the tree can have is out of reach.
-/

namespace PseudoLru

namespace Encoding

theorem bitOver_congr (e : Encoding) {way other height : Nat} (hheight : height < e.levels)
    (hnode : way / 2 ^ (height + 1) = other / 2 ^ (height + 1)) :
    e.bitOver way height = e.bitOver other height := by
  rw [bitOver, bitOver, (e.ways_add_div_eq_iff way other hheight).mpr hnode]

/-! ## References one after the other -/

/-- The last of the used ways under the node above `way`. -/
def lastUseBeside? (used : List Nat) (way height : Nat) : Option Nat :=
  used.reverse.find? fun other => other / 2 ^ (height + 1) = way / 2 ^ (height + 1)

theorem lastUseBeside?_append (first last : List Nat) (way height : Nat) :
    lastUseBeside? (first ++ last) way height =
      (lastUseBeside? last way height).or (lastUseBeside? first way height) := by
  rw [lastUseBeside?, List.reverse_append, List.find?_append]
  rfl

theorem lastUseBeside?_singleton (used way height : Nat) :
    lastUseBeside? [used] way height =
      if used / 2 ^ (height + 1) = way / 2 ^ (height + 1) then some used else none := by
  simp [lastUseBeside?, List.find?_singleton]

theorem exists_lastUseBeside? {used : List Nat} {way height other : Nat} (hother : other ∈ used)
    (hbeside : other / 2 ^ (height + 1) = way / 2 ^ (height + 1)) :
    ∃ last ∈ used, lastUseBeside? used way height = some last := by
  have hsome : (lastUseBeside? used way height).isSome = true :=
    List.find?_isSome.mpr ⟨other, List.mem_reverse.mpr hother, decide_eq_true hbeside⟩
  obtain ⟨last, hlast⟩ := Option.isSome_iff_exists.mp hsome
  exact ⟨last, List.mem_reverse.mp (List.mem_of_find?_eq_some hlast), hlast⟩

theorem lastUseBeside?_eq_none {used : List Nat} {way height : Nat}
    (hother : ∀ other ∈ used, other / 2 ^ (height + 1) ≠ way / 2 ^ (height + 1)) :
    lastUseBeside? used way height = none := by
  simpa [lastUseBeside?] using hother

variable {e : Encoding} {state after : UInt64} {used : List Nat}

theorem exists_touches (e : Encoding) (state : UInt64) (hused : ∀ way ∈ used, way < e.ways) :
    ∃ after, used.foldlM e.touch state = .ok after := by
  induction used generalizing state with
  | nil => exact ⟨state, rfl⟩
  | cons way rest ih =>
      obtain ⟨p, hpattern⟩ := exists_getElem?_patterns (hused way List.mem_cons_self)
      have htouch := touch_of_getElem?_patterns hpattern state
      obtain ⟨after, hafter⟩ := ih (p.touch state) fun other hother =>
        hused other (List.mem_cons_of_mem way hother)
      refine ⟨after, ?_⟩
      rw [List.foldlM_cons, htouch]
      exact hafter

theorem exists_touch_of_touches {way : Nat}
    (htouches : (way :: used).foldlM e.touch state = .ok after) :
    ∃ next, e.touch state way = .ok next ∧ used.foldlM e.touch next = .ok after := by
  rwa [List.foldlM_cons, bind_eq_ok_iff] at htouches

/-- After references to some ways a bit is as the last of them under its node
has set it. -/
theorem testBit_bitOver_touches (htouches : used.foldlM e.touch state = .ok after)
    {way height : Nat} (hway : way < e.ways) (hheight : height < e.levels) :
    Word.testBit after (e.bitOver way height) =
      (lastUseBeside? used way height).elim (Word.testBit state (e.bitOver way height))
        fun other => !other.testBit height := by
  induction used generalizing state with
  | nil =>
      obtain rfl := Except.ok.inj htouches
      rfl
  | cons last rest ih =>
      obtain ⟨next, htouch, hrest⟩ := exists_touch_of_touches htouches
      rw [ih hrest, testBit_bitOver_touch htouch hway hheight, ← List.singleton_append,
        lastUseBeside?_append, lastUseBeside?_singleton]
      cases lastUseBeside? rest way height with
      | some other => rfl
      | none => split <;> rfl

theorem testBit_touches_of_le (htouches : used.foldlM e.touch state = .ok after) {i : Nat}
    (hi : e.ways - 1 ≤ i) : Word.testBit after i = Word.testBit state i := by
  induction used generalizing state with
  | nil =>
      obtain rfl := Except.ok.inj htouches
      rfl
  | cons way rest ih =>
      obtain ⟨next, htouch, hrest⟩ := exists_touch_of_touches htouches
      rw [ih hrest, testBit_touch_of_le htouch hi]

/-! ## An order for every state -/

/-- The ways under a node, in an order in which references to them leave the
bits of `target` at the node and below it. -/
def touchOrder (e : Encoding) (target : UInt64) : (height block : Nat) → List Nat
  | 0, block => [block]
  | height + 1, block =>
      let bit := Word.testBit target (e.bitOver (block * 2 ^ (height + 1)) height)
      e.touchOrder target height (2 * block + bit.toNat) ++
        e.touchOrder target height (2 * block + (!bit).toNat)

variable (e) (target : UInt64)

theorem mem_touchOrder_iff (height block way : Nat) :
    way ∈ e.touchOrder target height block ↔ way / 2 ^ height = block := by
  induction height generalizing block with
  | zero => simp [touchOrder]
  | succ height ih =>
      rw [touchOrder, List.mem_append, ih, ih, div_two_pow_succ]
      cases Word.testBit target (e.bitOver (block * 2 ^ (height + 1)) height) <;>
        simp only [Bool.not_true, Bool.not_false, Bool.toNat_true, Bool.toNat_false] <;> omega

theorem nodup_touchOrder (height block : Nat) : (e.touchOrder target height block).Nodup := by
  induction height generalizing block with
  | zero => simp [touchOrder]
  | succ height ih =>
      rw [touchOrder]
      refine List.nodup_append.mpr ⟨ih _, ih _, ?_⟩
      rintro way hfirst _ hlast rfl
      rw [mem_touchOrder_iff] at hfirst hlast
      cases hbit : Word.testBit target (e.bitOver (block * 2 ^ (height + 1)) height) <;>
        simp [hbit] at hfirst hlast <;> omega

theorem touchOrder_perm : (e.touchOrder target e.levels 0).Perm (List.range e.ways) := by
  apply (List.perm_ext_iff_of_nodup (e.nodup_touchOrder target _ _) List.nodup_range).mpr
  intro way
  rw [mem_touchOrder_iff, List.mem_range, ← ways_eq_two_pow,
    Nat.div_eq_zero_iff_lt e.ways_pos]

theorem exists_last_in_touchOrder {height block way : Nat}
    (hbeside : block / 2 = way / 2 ^ (height + 1)) :
    ∃ other, other / 2 ^ height = block ∧
      lastUseBeside? (e.touchOrder target height block) way height = some other := by
  have hdiv : block * 2 ^ height / 2 ^ height = block :=
    Nat.mul_div_cancel _ (Nat.two_pow_pos height)
  have hnode : block * 2 ^ height / 2 ^ (height + 1) = way / 2 ^ (height + 1) := by
    rw [div_two_pow_succ, hdiv, hbeside]
  obtain ⟨other, hother, hlast⟩ :=
    exists_lastUseBeside? ((e.mem_touchOrder_iff target height block _).mpr hdiv) hnode
  exact ⟨other, (e.mem_touchOrder_iff target height block other).mp hother, hlast⟩

theorem lastUseBeside?_touchOrder_eq_none {height block way depth : Nat} (hdepth : depth < height)
    (hoff : way / 2 ^ height ≠ block) :
    lastUseBeside? (e.touchOrder target height block) way depth = none := by
  apply lastUseBeside?_eq_none
  intro other hother hbeside
  rw [mem_touchOrder_iff] at hother
  rw [← hother] at hoff
  exact hoff (div_two_pow_eq_of_le hdepth hbeside).symm

/-- In this order the last reference beside a way sets the bit of the node
above it to that of the target. -/
theorem exists_last_touchOrder {height block way depth : Nat} (hheight : height ≤ e.levels)
    (hway : way / 2 ^ height = block) (hdepth : depth < height) :
    ∃ other, lastUseBeside? (e.touchOrder target height block) way depth = some other ∧
      (!other.testBit depth) = Word.testBit target (e.bitOver way depth) := by
  induction height generalizing block with
  | zero => omega
  | succ height ih =>
      have hbelow : height ≤ e.levels := Nat.le_of_succ_le hheight
      have hposition : e.bitOver (block * 2 ^ (height + 1)) height = e.bitOver way height := by
        apply e.bitOver_congr hheight
        rw [hway, Nat.mul_div_cancel _ (Nat.two_pow_pos _)]
      rw [touchOrder, hposition, lastUseBeside?_append]
      generalize hbit : Word.testBit target (e.bitOver way height) = bit
      rcases Nat.eq_or_lt_of_le (Nat.le_of_lt_succ hdepth) with rfl | hdepth
      · -- Every way of the later half lies beside `way`, so one of them comes last.
        have hlater : (2 * block + (!bit).toNat) / 2 = way / 2 ^ (depth + 1) := by
          rw [hway, Nat.add_comm, Nat.add_mul_div_left _ _ (by decide)]
          cases bit <;> simp
        obtain ⟨other, hother, hlast⟩ := e.exists_last_in_touchOrder target hlater
        refine ⟨other, by rw [hlast, Option.some_or], ?_⟩
        rw [hbit, Nat.testBit_eq_decide_div_mod_eq, hother]
        cases bit <;> simp
      · rw [div_two_pow_succ] at hway
        by_cases hlater : way / 2 ^ height = 2 * block + (!bit).toNat
        · obtain ⟨other, hother, hset⟩ := ih hbelow hlater hdepth
          exact ⟨other, by rw [hother, Option.some_or], hset⟩
        · have hearlier : way / 2 ^ height = 2 * block + bit.toNat := by
            cases bit <;> simp at hlater ⊢ <;> omega
          obtain ⟨other, hother, hset⟩ := ih hbelow hearlier hdepth
          refine ⟨other, ?_, hset⟩
          rw [e.lastUseBeside?_touchOrder_eq_none target hdepth hlater, Option.none_or, hother]

variable {e target}

theorem exists_order (hstate : state.toNat < 2 ^ (e.ways - 1))
    (htarget : target.toNat < 2 ^ (e.ways - 1)) :
    ∃ order : List Nat, order.Perm (List.range e.ways) ∧
      order.foldlM e.touch state = .ok target := by
  have hperm := e.touchOrder_perm target
  obtain ⟨after, hafter⟩ := e.exists_touches state fun way hway =>
    List.mem_range.mp (hperm.mem_iff.mp hway)
  refine ⟨_, hperm, hafter.trans (congrArg Except.ok ?_)⟩
  apply e.eq_of_testBit_bitOver
  · intro way hway height hheight
    obtain ⟨other, hother, hset⟩ := e.exists_last_touchOrder target (Nat.le_refl e.levels)
      (Nat.div_eq_of_lt (hway.trans_eq e.ways_eq_two_pow)) hheight
    rw [testBit_bitOver_touches hafter hway hheight, hother]
    exact hset
  · intro i hi
    have hzero : ∀ word : UInt64, word.toNat < 2 ^ (e.ways - 1) → Word.testBit word i = false :=
      fun word hword => Nat.testBit_lt_two_pow
        (hword.trans_le (Nat.pow_le_pow_right (by decide) hi))
    rw [testBit_touches_of_le hafter hi, hzero state hstate, hzero target htarget]

end Encoding

namespace CacheSet

variable {e : Encoding} {set : CacheSet}

/-! ## References by hits -/

theorem probe_of_holdsAt (hdistinct : set.Distinct) {way : Nat} {tag : UInt64}
    (hheld : set.HoldsAt way tag) : set.probe tag = some way := by
  obtain ⟨found, hfound⟩ :=
    Option.isSome_iff_exists.mp ((set.probe_isSome_iff tag).mpr ⟨way, hheld⟩)
  rw [hfound, hdistinct found way tag (holdsAt_of_probe hfound) hheld]

theorem exists_hit (policy : VictimPolicy) (hdistinct : set.Distinct) {way : Nat} {tag : UInt64}
    (hheld : set.HoldsAt way tag) {after : UInt64} (htouch : e.touch set.state way = .ok after) :
    ∃ access, set.access e policy tag = .ok access ∧ access.outcome.isHit = true ∧
      access.after = { set with state := after } := by
  obtain ⟨p, hpattern, rfl⟩ := Encoding.exists_pattern_of_touch htouch
  have haccess : set.Accesses e policy tag _ :=
    .hit hpattern (probe_of_holdsAt hdistinct hheld)
  exact ⟨_, access_of_accesses haccess, rfl, rfl⟩

/-- Tags held by the ways of a list hit one after the other and refer to these
ways. -/
theorem exists_hits (policy : VictimPolicy) (hdistinct : set.Distinct) {order : List Nat}
    {tags : List UInt64} (hheld : List.Forall₂ set.HoldsAt order tags) {state after : UInt64}
    (htouches : order.foldlM e.touch state = .ok after) :
    ∃ run, CacheSet.replay { set with state } e policy tags = .ok run ∧
      (∀ outcome ∈ run.outcomes, outcome.isHit = true) ∧
      run.after = { set with state := after } := by
  induction hheld generalizing state with
  | nil =>
      obtain rfl := Except.ok.inj htouches
      exact ⟨Run.start _, rfl, by simp [Run.start], rfl⟩
  | cons hway _ ih =>
      obtain ⟨next, htouch, hrest⟩ := Encoding.exists_touch_of_touches htouches
      have hdistinct' : CacheSet.Distinct { set with state } := hdistinct
      obtain ⟨access, haccess, hhit, hnext⟩ := exists_hit policy hdistinct' hway htouch
      obtain ⟨run, hrun, hhits, hafter⟩ := ih hrest
      refine ⟨Run.cons access run, Run.ofRequests_cons_of_ok haccess ?_, ?_, hafter⟩
      · rw [hnext]
        exact hrun
      · simpa [Run.cons, hhit] using hhits

/-- The tag in the line of a way. -/
def tagAt (set : CacheSet) (way : Nat) : UInt64 := (set.lines[way]?.map (·.tag)).getD 0

theorem map_tagAt_range (set : CacheSet) :
    (List.range set.lines.length).map set.tagAt = set.lines.map (·.tag) := by
  apply List.ext_getElem (by simp)
  intro way hway _
  have hlt : way < set.lines.length := by simpa using hway
  simp [tagAt, hlt]

theorem holdsAt_tagAt (hfull : ∀ line ∈ set.lines, line.valid = true) {way : Nat}
    (hway : way < set.lines.length) : set.HoldsAt way (set.tagAt way) := by
  have hvalid := hfull _ (List.getElem_mem hway)
  rw [HoldsAt, tagAt, List.getElem?_eq_getElem hway, Option.map_some, Option.getD_some]
  congr 1
  generalize set.lines[way] = line at hvalid ⊢
  cases line
  simp_all [Line.fetched]

/-- A full set is brought into any state by one hit on each of its tags. -/
theorem exists_hits_of_full (policy : VictimPolicy) (hdistinct : set.Distinct)
    (hwidth : set.lines.length = e.ways) (hfull : ∀ line ∈ set.lines, line.valid = true)
    (hstate : set.state.toNat < 2 ^ (e.ways - 1)) {target : UInt64}
    (htarget : target.toNat < 2 ^ (e.ways - 1)) :
    ∃ hits run, hits.Perm (set.lines.map (·.tag)) ∧ set.replay e policy hits = .ok run ∧
      (∀ outcome ∈ run.outcomes, outcome.isHit = true) ∧
      run.after = { set with state := target } := by
  obtain ⟨order, hperm, htouches⟩ := Encoding.exists_order hstate htarget
  have hheld : List.Forall₂ set.HoldsAt order (order.map set.tagAt) := by
    rw [List.forall₂_map_right_iff, List.forall₂_same]
    intro way hway
    apply holdsAt_tagAt hfull
    rw [hwidth]
    exact List.mem_range.mp (hperm.mem_iff.mp hway)
  obtain ⟨run, hrun, hhits, hafter⟩ := exists_hits policy hdistinct hheld htouches
  refine ⟨_, run, ?_, hrun, hhits, hafter⟩
  rw [← map_tagAt_range, hwidth]
  exact hperm.map set.tagAt

/-! ## Reached sets -/

theorem exists_reached (e : Encoding) (policy : VictimPolicy) (index : Nat)
    (tags : List UInt64) :
    ∃ run, (empty index e.ways).replay e policy tags = .ok run ∧
      run.after.lines.length = e.ways ∧ run.after.Distinct ∧
      run.after.state.toNat < 2 ^ (e.ways - 1) := by
  obtain ⟨run, hrun, hwidth, hdistinct, hrecords⟩ :=
    exists_replay e policy
      (fun _ outcomes set => set.Distinct ∧ e.Records (outcomes.map (·.way)) set.state)
      (fun _ _ _ _ access _ hset haccess => by
        rw [List.map_append, List.map_singleton]
        exact ⟨haccess.distinct hset.1, hset.2.after_touch haccess.touch⟩)
      (length_lines_empty index e.ways) ⟨(protects_empty e index).distinct, e.records_zero⟩ tags
  exact ⟨run, hrun, hwidth, hdistinct, hrecords.toNat_lt⟩

/-- As many distinct tags as there are ways fill an empty set. -/
theorem exists_filling_replay (e : Encoding) (policy : VictimPolicy) (index : Nat)
    {tags : List UInt64} (hdistinct : tags.Nodup) (hlength : tags.length = e.ways) :
    ∃ run, (empty index e.ways).replay e policy tags = .ok run ∧
      ∀ line ∈ run.after.lines, line.valid = true := by
  cases policy with
  | tree =>
      obtain ⟨run, hrun, hspaced⟩ := exists_spaced_replay e index tags
      obtain ⟨made, hmade, hwidth, -⟩ := exists_reached e .tree index tags
      rw [hrun] at hmade
      obtain rfl := Except.ok.inj hmade
      have hfar : SpacedBy e.ways tags := by
        intro i j tag hlt hi hj
        rw [List.nodup_iff_getElem?_ne_getElem?] at hdistinct
        obtain ⟨hbound, -⟩ := List.getElem?_eq_some_iff.mp hj
        exact absurd (hi.trans hj.symm) (hdistinct i j hlt hbound)
      have hperm := (hspaced hfar).2.perm_lines hwidth hlength.ge
      refine ⟨run, hrun, ?_⟩
      intro line hline
      obtain ⟨tag, -, rfl⟩ := List.mem_map.mp (hperm.mem_iff.mp hline)
      rfl
  | invalidFirst =>
      obtain ⟨run, hrun, hwidth, hfills⟩ :=
        exists_replay e .invalidFirst (fun past _ set => set.FillsInOrder e past)
          (fun _ _ _ _ _ hwidth hset haccess => hset.after hwidth haccess)
          (length_lines_empty index e.ways) (fillsInOrder_empty e index e.ways) tags
      refine ⟨run, hrun, ?_⟩
      intro line hline
      obtain ⟨way, hway, hget⟩ := List.mem_iff_getElem.mp hline
      rw [hfills.valid_iff way line (List.getElem?_eq_some_iff.mpr ⟨hway, hget⟩),
        History.length_firstTags, List.toFinset_card_of_nodup hdistinct, hlength, ← hwidth]
      exact hway

theorem exists_distinct_words {count : Nat} (hcount : count ≤ UInt64.size) :
    ∃ tags : List UInt64, tags.Nodup ∧ tags.length = count := by
  refine ⟨(List.range count).map UInt64.ofNat, ?_, by simp⟩
  rw [List.nodup_map_iff_inj_on List.nodup_range]
  intro i hi j hj heq
  have hvalue := congrArg UInt64.toNat heq
  rwa [UInt64.toNat_ofNat_of_lt' ((List.mem_range.mp hi).trans_le hcount),
    UInt64.toNat_ofNat_of_lt' ((List.mem_range.mp hj).trans_le hcount)] at hvalue

theorem exists_reaching_replay (e : Encoding) (policy : VictimPolicy) (index : Nat)
    {target : UInt64} (htarget : target.toNat < 2 ^ (e.ways - 1)) :
    ∃ tags run, (empty index e.ways).replay e policy tags = .ok run ∧
      run.after.state = target := by
  have hsize : e.ways ≤ UInt64.size := e.ways_le.trans (by decide)
  obtain ⟨filling, hnodup, hlength⟩ := exists_distinct_words hsize
  obtain ⟨full, hfull, hvalid⟩ := exists_filling_replay e policy index hnodup hlength
  obtain ⟨made, hmade, hwidth, hdistinct, hstate⟩ := exists_reached e policy index filling
  rw [hfull] at hmade
  obtain rfl := Except.ok.inj hmade
  obtain ⟨hits, run, -, hrun, -, hafter⟩ :=
    exists_hits_of_full policy hdistinct hwidth hvalid hstate htarget
  refine ⟨filling ++ hits, Run.append full run, Run.ofRequests_append_of_ok hfull hrun, ?_⟩
  rw [Run.append, hafter]

/-- Under both policies the states that an empty set of `ways` ways can reach
are the numbers below `2 ^ (ways - 1)`, all of them.  One reference to each way,
in a suitable order, leads from every state to every other, so any reached set
that is full is brought into any state by one hit on each of its tags. -/
theorem states_reached_exactly (e : Encoding) (policy : VictimPolicy) (index : Nat) :
    (∀ value : Nat, (∃ tags run, (empty index e.ways).replay e policy tags = .ok run ∧
        run.after.state.toNat = value) ↔ value < 2 ^ (e.ways - 1)) ∧
      (∀ state target : UInt64, state.toNat < 2 ^ (e.ways - 1) →
        target.toNat < 2 ^ (e.ways - 1) →
          ∃ order : List Nat, order.Perm (List.range e.ways) ∧
            order.foldlM e.touch state = .ok target) ∧
      ∀ tags, ∃ run, (empty index e.ways).replay e policy tags = .ok run ∧
        ((∀ line ∈ run.after.lines, line.valid = true) →
          ∀ target : UInt64, target.toNat < 2 ^ (e.ways - 1) →
            ∃ hits final, hits.length = e.ways ∧ hits.Perm (run.after.lines.map (·.tag)) ∧
              run.after.replay e policy hits = .ok final ∧
              (∀ outcome ∈ final.outcomes, outcome.isHit = true) ∧
              final.after.lines = run.after.lines ∧ final.after.state = target) := by
  refine ⟨?_, fun _ _ hstate htarget => Encoding.exists_order hstate htarget, ?_⟩
  · intro value
    constructor
    · rintro ⟨tags, run, hrun, rfl⟩
      obtain ⟨made, hmade, -, -, hlt⟩ := exists_reached e policy index tags
      rw [hrun] at hmade
      obtain rfl := Except.ok.inj hmade
      exact hlt
    · intro hvalue
      have hways := e.ways_le
      have hsize : 2 ^ (e.ways - 1) ≤ 2 ^ 64 := Nat.pow_le_pow_right (by decide) (by omega)
      have hword : (UInt64.ofNat value).toNat = value :=
        UInt64.toNat_ofNat_of_lt' (hvalue.trans_le hsize)
      rw [← hword] at hvalue
      obtain ⟨tags, run, hrun, hstate⟩ := exists_reaching_replay e policy index hvalue
      exact ⟨tags, run, hrun, by rw [hstate, hword]⟩
  · intro tags
    obtain ⟨run, hrun, hwidth, hdistinct, hstate⟩ := exists_reached e policy index tags
    refine ⟨run, hrun, ?_⟩
    intro hfull target htarget
    obtain ⟨hits, final, hperm, hfinal, hhits, hafter⟩ :=
      exists_hits_of_full policy hdistinct hwidth hfull hstate htarget
    refine ⟨hits, final, ?_, hperm, hfinal, hhits, by rw [hafter], by rw [hafter]⟩
    rw [hperm.length_eq, List.length_map, hwidth]

end CacheSet

end PseudoLru
