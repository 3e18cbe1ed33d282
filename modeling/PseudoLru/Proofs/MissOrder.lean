import Mathlib.Tactic
import PseudoLru.Proofs.MissRotation
import PseudoLru.Proofs.SetAccess

/-!
# Misses replace in order

While every access of a set misses under the tree policy, the ways take turns.
So a tag stays for as many misses as there are ways and is then displaced: the
set is a queue, first in, first out, whatever state it was in and whatever it
held at the start.

Tags that come back only when they have been displaced miss again.  So a
sequence in which equal tags are farther apart than the set has ways never
hits, and the queue never ends.
-/

namespace PseudoLru

/-- Equal tags are more than `width` places apart. -/
def SpacedBy (width : Nat) (tags : List UInt64) : Prop :=
  ∀ i j tag, i < j → tags[i]? = some tag → tags[j]? = some tag → i + width < j

namespace CacheSet

/-- What `tags`, which all missed, did to a set. -/
structure Rotates (e : Encoding) (start : CacheSet) (tags : List UInt64)
    (outcomes : List Outcome) (set : CacheSet) : Prop where
  length_eq : outcomes.length = tags.length
  turn_after :
    ∀ count way, e.Turn set.state count way → e.Turn start.state (tags.length + count) way
  turn :
    ∀ k outcome, outcomes[k]? = some outcome → e.Turn start.state k outcome.way
  held :
    ∀ k outcome tag, outcomes[k]? = some outcome → tags[k]? = some tag →
      tags.length ≤ k + e.ways → set.HoldsAt outcome.way tag
  kept :
    ∀ way, (∀ outcome ∈ outcomes, outcome.way ≠ way) → set.lines[way]? = start.lines[way]?
  evicted :
    ∀ k outcome, outcomes[k]? = some outcome →
      outcome.evicted? =
        if e.ways ≤ k then tags[k - e.ways]? else start.lines[outcome.way]?.bind Line.resident?

theorem rotates_start (e : Encoding) (start : CacheSet) : start.Rotates e [] [] start where
  length_eq := rfl
  turn_after := by simp
  turn := by simp
  held := by simp
  kept := by simp
  evicted := by simp

section Step

variable {e : Encoding} {start set : CacheSet} {tags : List UInt64} {outcomes : List Outcome}
  {tag : UInt64} {access : Access CacheSet}

theorem Rotates.turn_next (hrotates : start.Rotates e tags outcomes set)
    (haccess : set.Accesses e .tree tag access) (hmiss : access.outcome.isHit = false) :
    e.Turn start.state tags.length access.outcome.way := by
  rw [haccess.way_eq_victim hmiss]
  exact hrotates.turn_after 0 _ (e.turn_victim set.state)

/-- What a miss displaces was brought in as many misses ago as there are ways,
or was there at the start. -/
theorem Rotates.evicted_next (hrotates : start.Rotates e tags outcomes set)
    (haccess : set.Accesses e .tree tag access) (hmiss : access.outcome.isHit = false) :
    access.outcome.evicted? =
      if e.ways ≤ tags.length then tags[tags.length - e.ways]?
      else start.lines[access.outcome.way]?.bind Line.resident? := by
  have hturn := hrotates.turn_next haccess hmiss
  have hpos := e.ways_pos
  obtain ⟨line, hline, hevicted⟩ := haccess.exists_evicted?_of_miss hmiss
  split
  next hle =>
    -- The way had its last turn one round ago and still holds what that miss brought in.
    have hlt : tags.length - e.ways < tags.length := by omega
    have htag := List.getElem?_eq_getElem hlt
    obtain ⟨previous, hprevious⟩ : ∃ previous, outcomes[tags.length - e.ways]? = some previous :=
      ⟨_, List.getElem?_eq_getElem (by rwa [hrotates.length_eq])⟩
    have hheld := hrotates.held _ _ _ hprevious htag (by omega)
    have hway : previous.way = access.outcome.way :=
      (hrotates.turn _ _ hprevious).eq_of_add_ways hturn (Nat.sub_add_cancel hle)
    rw [hway, HoldsAt, hline, Option.some.injEq] at hheld
    rw [hevicted, htag, hheld]
    rfl
  next hgt =>
    -- In the first round no way comes twice, so this one is as it was at the start.
    have hkept : set.lines[access.outcome.way]? = start.lines[access.outcome.way]? := by
      apply hrotates.kept
      intro outcome houtcome
      obtain ⟨k, hk⟩ := List.mem_iff_getElem?.mp houtcome
      obtain ⟨hlt, -⟩ := List.getElem?_eq_some_iff.mp hk
      rw [hrotates.length_eq] at hlt
      exact (hrotates.turn k outcome hk).ne_of_lt hturn hlt (by omega)
    rw [← hkept, hline, Option.bind_some, hevicted]

theorem Rotates.after (hrotates : start.Rotates e tags outcomes set)
    (haccess : set.Accesses e .tree tag access) (hmiss : access.outcome.isHit = false) :
    start.Rotates e (tags ++ [tag]) (outcomes ++ [access.outcome]) access.after := by
  have hnext := hrotates.turn_next haccess hmiss
  have hevicted := hrotates.evicted_next haccess hmiss
  have hlength := hrotates.length_eq
  constructor
  · rw [List.length_append, List.length_append, hlength]
    rfl
  · intro count way hturn
    have htouch := haccess.touch
    rw [haccess.way_eq_victim hmiss] at htouch
    have hlater := hrotates.turn_after (count + 1) way (hturn.of_touch_victim htouch)
    rwa [List.length_append, List.length_singleton, Nat.add_assoc, Nat.add_comm 1]
  · intro k outcome hk
    rcases (getElem?_append_singleton_eq_some_iff _ _ _ k).mp hk with hold | ⟨rfl, rfl⟩
    · exact hrotates.turn k outcome hold
    · rwa [hlength]
  · intro k outcome held hk htag hrecent
    rw [List.length_append, List.length_singleton] at hrecent
    rcases (getElem?_append_singleton_eq_some_iff _ _ _ k).mp hk with hold | ⟨rfl, rfl⟩
    · obtain ⟨hlt, -⟩ := List.getElem?_eq_some_iff.mp hold
      rw [hlength] at hlt
      rw [List.getElem?_append_left hlt] at htag
      have hne : outcome.way ≠ access.outcome.way :=
        (hrotates.turn k outcome hold).ne_of_lt hnext hlt (by omega)
      rw [haccess.holdsAt_of_ne hne]
      exact hrotates.held k outcome held hold htag (by omega)
    · rw [hlength, List.getElem?_concat_length, Option.some.injEq] at htag
      rw [← htag]
      exact haccess.holdsAt_way
  · intro way hunused
    have hne : way ≠ access.outcome.way :=
      Ne.symm (hunused _ (List.mem_append_right _ List.mem_cons_self))
    rw [haccess.getElem?_lines_after, if_neg hne]
    exact hrotates.kept way fun outcome hmem => hunused outcome (List.mem_append_left _ hmem)
  · intro k outcome hk
    rcases (getElem?_append_singleton_eq_some_iff _ _ _ k).mp hk with hold | ⟨rfl, rfl⟩
    · obtain ⟨hlt, -⟩ := List.getElem?_eq_some_iff.mp hold
      rw [hlength] at hlt
      have hpos := e.ways_pos
      rw [hrotates.evicted k outcome hold, List.getElem?_append_left (by omega)]
    · have hpos := e.ways_pos
      rw [hlength, hevicted]
      split
      next hle => rw [List.getElem?_append_left (by omega)]
      next => rfl

end Step

section Window

variable {e : Encoding} {start set : CacheSet} {tags : List UInt64} {outcomes : List Outcome}

theorem Rotates.turn_ways (hrotates : start.Rotates e tags outcomes set) (k way : Nat)
    (hk : (outcomes.map (·.way))[k]? = some way) : e.Turn start.state k way := by
  rw [List.getElem?_map, Option.map_eq_some_iff] at hk
  obtain ⟨outcome, houtcome, rfl⟩ := hk
  exact hrotates.turn _ outcome houtcome

theorem Rotates.nodup_window (hrotates : start.Rotates e tags outcomes set) (first : Nat) :
    (((outcomes.map (·.way)).drop first).take e.ways).Nodup :=
  Encoding.Turn.nodup first (Encoding.Turn.of_window hrotates.turn_ways first)
    (List.length_take_le _ _)

/-- As many misses in a row as there are ways fill every way once. -/
theorem Rotates.perm_window (hrotates : start.Rotates e tags outcomes set) {first : Nat}
    (hlong : first + e.ways ≤ tags.length) :
    (((outcomes.map (·.way)).drop first).take e.ways).Perm (List.range e.ways) := by
  apply Encoding.Turn.perm_window hrotates.turn_ways
  rwa [List.length_map, hrotates.length_eq]

theorem Rotates.perm_last (hrotates : start.Rotates e tags outcomes set)
    (hlong : e.ways ≤ tags.length) :
    ((outcomes.map (·.way)).drop (tags.length - e.ways)).Perm (List.range e.ways) := by
  have hwindow := hrotates.perm_window (Nat.le_of_eq (Nat.sub_add_cancel hlong))
  rwa [List.take_of_length_le] at hwindow
  rw [List.length_drop, List.length_map, hrotates.length_eq]
  omega

theorem Rotates.exists_recent (hrotates : start.Rotates e tags outcomes set) {way : Nat}
    (hused : ∃ outcome ∈ outcomes, outcome.way = way) :
    ∃ k outcome, outcomes[k]? = some outcome ∧ outcome.way = way ∧
      tags.length ≤ k + e.ways := by
  obtain ⟨used, hmem, rfl⟩ := hused
  obtain ⟨last, hlast⟩ := List.mem_iff_getElem?.mp hmem
  rcases Nat.le_total tags.length e.ways with hshort | hlong
  · exact ⟨last, used, hlast, rfl, by omega⟩
  · have hway := (hrotates.perm_last hlong).mem_iff.mpr
      (List.mem_range.mpr (hrotates.turn last used hlast).way_lt)
    obtain ⟨k, hk⟩ := List.mem_iff_getElem?.mp hway
    rw [List.getElem?_drop, List.getElem?_map, Option.map_eq_some_iff] at hk
    obtain ⟨outcome, houtcome, heq⟩ := hk
    exact ⟨_, outcome, houtcome, heq, by omega⟩

/-- A held tag was brought in by one of the last misses or was there at the
start. -/
theorem Rotates.recent_or_start (hrotates : start.Rotates e tags outcomes set) {way : Nat}
    {tag : UInt64} (hheld : set.HoldsAt way tag) :
    (∃ k, tags[k]? = some tag ∧ tags.length ≤ k + e.ways) ∨ start.HoldsAt way tag := by
  by_cases hused : ∃ outcome ∈ outcomes, outcome.way = way
  · left
    obtain ⟨k, outcome, houtcome, rfl, hrecent⟩ := hrotates.exists_recent hused
    obtain ⟨hlt, -⟩ := List.getElem?_eq_some_iff.mp houtcome
    rw [hrotates.length_eq] at hlt
    have htag := List.getElem?_eq_getElem hlt
    have hlast := hrotates.held k outcome _ houtcome htag hrecent
    exact ⟨k, holdsAt_unique hlast hheld ▸ htag, hrecent⟩
  · right
    rw [HoldsAt, ← hrotates.kept way fun outcome hmem heq => hused ⟨outcome, hmem, heq⟩]
    exact hheld

/-- After as many misses as there are ways the set holds the last tags and
nothing else. -/
theorem Rotates.perm_lines (hrotates : start.Rotates e tags outcomes set)
    (hwidth : set.lines.length = e.ways) (hlong : e.ways ≤ tags.length) :
    set.lines.Perm ((tags.drop (tags.length - e.ways)).map Line.fetched) := by
  have hlines : (List.range e.ways).map (fun way => set.lines[way]?) = set.lines.map some := by
    apply List.ext_getElem (by simp [hwidth])
    intro way hway _
    rw [List.length_map, List.length_range, ← hwidth] at hway
    simp [hway]
  have htags : ((outcomes.map (·.way)).drop (tags.length - e.ways)).map
      (fun way => set.lines[way]?) =
        ((tags.drop (tags.length - e.ways)).map Line.fetched).map some := by
    apply List.ext_getElem (by simp [hrotates.length_eq])
    intro k hk _
    have hlt : k < outcomes.length - (tags.length - e.ways) := by simpa using hk
    have hlength := hrotates.length_eq
    have houtcome := List.getElem?_eq_getElem
      (show tags.length - e.ways + k < outcomes.length by omega)
    have htag := List.getElem?_eq_getElem
      (show tags.length - e.ways + k < tags.length by omega)
    have hheld := hrotates.held _ _ _ houtcome htag (by omega)
    simp only [List.getElem_map, List.getElem_drop]
    exact hheld
  rw [← List.map_perm_map_iff (Option.some_injective Line), ← hlines, ← htags]
  exact ((hrotates.perm_last hlong).map _).symm

/-- From then on every miss fills the way of an earlier one and displaces its
tag. -/
theorem Rotates.exists_replaced (hrotates : start.Rotates e tags outcomes set) {k : Nat}
    (hle : e.ways ≤ k) (hlt : k < tags.length) :
    ∃ outcome previous, outcomes[k]? = some outcome ∧ outcomes[k - e.ways]? = some previous ∧
      outcome.way = previous.way ∧
        ∃ tag, tags[k - e.ways]? = some tag ∧ outcome.evicted? = some tag := by
  have hlength := hrotates.length_eq
  have houtcome := List.getElem?_eq_getElem (show k < outcomes.length by omega)
  have hprevious := List.getElem?_eq_getElem (show k - e.ways < outcomes.length by omega)
  have htag := List.getElem?_eq_getElem (show k - e.ways < tags.length by omega)
  refine ⟨_, _, houtcome, hprevious, ?_, _, htag, ?_⟩
  · exact ((hrotates.turn _ _ hprevious).eq_of_add_ways (hrotates.turn k _ houtcome)
      (Nat.sub_add_cancel hle)).symm
  · rw [hrotates.evicted k _ houtcome, if_pos hle, htag]

end Window

theorem exists_rotating_replay {e : Encoding} {set : CacheSet}
    (hwidth : set.lines.length = e.ways) (tags : List UInt64) :
    ∃ run, set.replay e .tree tags = .ok run ∧ run.after.lines.length = e.ways ∧
      ((∀ outcome ∈ run.outcomes, outcome.isHit = false) →
        set.Rotates e tags run.outcomes run.after) :=
  exists_replay e .tree
    (fun past outcomes after =>
      (∀ outcome ∈ outcomes, outcome.isHit = false) → set.Rotates e past outcomes after)
    (fun _ _ _ _ access _ hbefore haccess hmisses =>
      (hbefore fun outcome hmem => hmisses outcome (List.mem_append_left _ hmem)).after haccess
        (hmisses access.outcome (List.mem_append_right _ List.mem_cons_self)))
    hwidth (fun _ => rotates_start e set) tags

theorem SpacedBy.of_append {width : Nat} {tags : List UInt64} {last : UInt64}
    (hspaced : SpacedBy width (tags ++ [last])) : SpacedBy width tags := by
  intro i j tag hlt hi hj
  have hmem := getElem?_append_singleton_eq_some_iff tags last tag
  exact hspaced i j tag hlt ((hmem i).mpr (Or.inl hi)) ((hmem j).mpr (Or.inl hj))

/-- In an empty set nothing but the last misses is held, so a tag that is
spaced from them misses again. -/
theorem Rotates.miss_of_spaced {e : Encoding} {index : Nat} {tags : List UInt64}
    {outcomes : List Outcome} {set : CacheSet} {tag : UInt64} {access : Access CacheSet}
    (hrotates : (empty index e.ways).Rotates e tags outcomes set)
    (haccess : set.Accesses e .tree tag access) (hspaced : SpacedBy e.ways (tags ++ [tag])) :
    access.outcome.isHit = false := by
  rw [← Bool.not_eq_true]
  intro hhit
  rcases hrotates.recent_or_start (haccess.holdsAt_of_isHit hhit) with ⟨k, hk, hrecent⟩ | hstart
  · obtain ⟨hlt, -⟩ := List.getElem?_eq_some_iff.mp hk
    have hmem := getElem?_append_singleton_eq_some_iff tags tag tag
    have hfar := hspaced k tags.length tag hlt ((hmem k).mpr (Or.inl hk))
      ((hmem _).mpr (Or.inr ⟨rfl, rfl⟩))
    omega
  · exact not_holdsAt_empty index e.ways _ tag hstart

theorem bind_resident?_lines_empty (index ways way : Nat) :
    (empty index ways).lines[way]?.bind Line.resident? = none := by
  rw [empty, List.getElem?_replicate]
  split <;> rfl

theorem exists_spaced_replay (e : Encoding) (index : Nat) (tags : List UInt64) :
    ∃ run, (empty index e.ways).replay e .tree tags = .ok run ∧
      (SpacedBy e.ways tags → (∀ outcome ∈ run.outcomes, outcome.isHit = false) ∧
        (empty index e.ways).Rotates e tags run.outcomes run.after) := by
  obtain ⟨run, hrun, -, hrotates⟩ :=
    exists_replay e .tree
      (fun past outcomes after => SpacedBy e.ways past →
        (∀ outcome ∈ outcomes, outcome.isHit = false) ∧
          (empty index e.ways).Rotates e past outcomes after)
      (fun past outcomes set tag access _ hbefore haccess hspaced => by
        obtain ⟨hmisses, hrotates⟩ := hbefore (SpacedBy.of_append hspaced)
        have hmiss := hrotates.miss_of_spaced haccess hspaced
        refine ⟨?_, hrotates.after haccess hmiss⟩
        intro outcome hmem
        rcases List.mem_append.mp hmem with hold | hlast
        · exact hmisses outcome hold
        · rwa [List.mem_singleton.mp hlast])
      (length_lines_empty index e.ways) (fun _ => ⟨by simp, rotates_start e _⟩) tags
  exact ⟨run, hrun, hrotates⟩

/-- Whatever a set was used for before, while all accesses miss under the tree
policy, each way is filled once in any row of as many misses as there are ways,
and every later miss fills the way and displaces the tag of the miss that many
before.  After such a row the set holds its tags and nothing else.  From the
empty set, tags of which equal ones are farther apart than that miss every time
and displace nothing until the set is full. -/
theorem misses_replace_in_order (e : Encoding) (index : Nat) (earlier tags : List UInt64) :
    (∃ reached run, (empty index e.ways).replay e .tree earlier = .ok reached ∧
      reached.after.replay e .tree tags = .ok run ∧
      ((∀ outcome ∈ run.outcomes, outcome.isHit = false) →
        ((run.outcomes.map (·.way)).take e.ways).Nodup ∧
        (∀ first, first + e.ways ≤ tags.length →
          (((run.outcomes.map (·.way)).drop first).take e.ways).Perm (List.range e.ways)) ∧
        (∀ k, e.ways ≤ k → k < tags.length →
          ∃ outcome previous, run.outcomes[k]? = some outcome ∧
            run.outcomes[k - e.ways]? = some previous ∧ outcome.way = previous.way ∧
            ∃ tag, tags[k - e.ways]? = some tag ∧ outcome.evicted? = some tag) ∧
        (e.ways ≤ tags.length → run.after.lines.Perm
          ((tags.drop (tags.length - e.ways)).map Line.fetched)))) ∧
    ∃ run, (empty index e.ways).replay e .tree tags = .ok run ∧
      (SpacedBy e.ways tags → ∀ k < tags.length,
        ∃ outcome, run.outcomes[k]? = some outcome ∧ outcome.isHit = false ∧
          outcome.evicted? = if e.ways ≤ k then tags[k - e.ways]? else none) := by
  constructor
  · obtain ⟨reached, hreached, hwidth, -⟩ :=
      exists_replay e .tree (fun _ _ _ => True) (fun _ _ _ _ _ _ _ _ => trivial)
        (length_lines_empty index e.ways) trivial earlier
    obtain ⟨run, hrun, hafter, hrotating⟩ := exists_rotating_replay hwidth tags
    refine ⟨reached, run, hreached, hrun, ?_⟩
    intro hmisses
    have hrotates := hrotating hmisses
    exact ⟨hrotates.nodup_window 0, fun _ => hrotates.perm_window,
      fun _ => hrotates.exists_replaced, hrotates.perm_lines hafter⟩
  · obtain ⟨run, hrun, hspaced⟩ := exists_spaced_replay e index tags
    refine ⟨run, hrun, ?_⟩
    intro hfar k hlt
    obtain ⟨hmisses, hrotates⟩ := hspaced hfar
    rw [← hrotates.length_eq] at hlt
    have houtcome := List.getElem?_eq_getElem hlt
    refine ⟨_, houtcome, hmisses _ (List.mem_of_getElem? houtcome), ?_⟩
    rw [hrotates.evicted k _ houtcome, bind_resident?_lines_empty]

/-- A set of two ways that held other tags before; its last access hit. -/
theorem two_way_misses_replace_in_order :
    ∃ reached run,
      (empty 0 2).replay (Encoding.ofLevels 1 (by decide)) .tree [1, 2, 1] = .ok reached ∧
      reached.after.replay (Encoding.ofLevels 1 (by decide)) .tree [3, 4, 5] = .ok run ∧
      (∀ outcome ∈ run.outcomes, outcome.isHit = false) ∧
      run.after.lines.Perm ([4, 5].map Line.fetched) := by
  obtain ⟨⟨reached, run, hreached, hrun, hreplaced⟩, -⟩ :=
    misses_replace_in_order (Encoding.ofLevels 1 (by decide)) 0 [1, 2, 1] [3, 4, 5]
  have hkinds :
      (((empty 0 2).replay (Encoding.ofLevels 1 (by decide)) .tree [1, 2, 1]).bind fun reached =>
        (reached.after.replay (Encoding.ofLevels 1 (by decide)) .tree [3, 4, 5]).map fun run =>
          run.outcomes.map (·.isHit)) = .ok [false, false, false] := by
    rfl
  have hmisses : ∀ outcome ∈ run.outcomes, outcome.isHit = false := by
    change (empty 0 2).replay _ .tree [1, 2, 1] = _ at hreached
    rw [hreached, Except.bind, hrun, Except.map, Except.ok.injEq] at hkinds
    intro outcome houtcome
    have hkind := List.mem_map_of_mem (f := (·.isHit)) houtcome
    rw [hkinds] at hkind
    simpa using hkind
  obtain ⟨-, -, -, hlast⟩ := hreplaced hmisses
  exact ⟨reached, run, hreached, hrun, hmisses, hlast (by decide)⟩

end CacheSet

end PseudoLru
