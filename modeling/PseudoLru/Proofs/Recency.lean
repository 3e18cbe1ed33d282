import Mathlib.Tactic
import Mathlib.Data.List.DropRight

/-!
# Recency in a list of accesses

The accesses since the last one of a tag are the part of the list behind it.
Listing the distinct tags with the most recent one first puts a tag behind
exactly those that were accessed since, so its place in this list is its reuse
distance: the number of distinct tags accessed since.

Listing them with the first accessed one first gives every tag a place that
later accesses do not change: a new tag comes at the end.
-/

namespace PseudoLru.History

/-- The accesses after the last one of `tag`. -/
def since (tag : UInt64) (history : List UInt64) : List UInt64 :=
  history.rtakeWhile (· ≠ tag)

/-- How many distinct tags were accessed since `tag`. -/
def distance (tag : UInt64) (history : List UInt64) : Nat :=
  (since tag history).toFinset.card

/-- The distinct tags, the most recently accessed one first. -/
def recentTags (history : List UInt64) : List UInt64 := history.dedup.reverse

@[simp] theorem since_append_self (tag : UInt64) (history : List UInt64) :
    since tag (history ++ [tag]) = [] := by
  rw [since, List.rtakeWhile_concat]
  simp

theorem since_append_of_ne {tag last : UInt64} (hne : last ≠ tag) (history : List UInt64) :
    since tag (history ++ [last]) = since tag history ++ [last] := by
  rw [since, List.rtakeWhile_concat]
  simp [hne, since]

theorem since_append_cons {tag : UInt64} {between : List UInt64} (hbetween : tag ∉ between)
    (earlier : List UInt64) : since tag (earlier ++ tag :: between) = between := by
  induction between using List.reverseRecOn with
  | nil => exact since_append_self tag earlier
  | append_singleton between last ih =>
      rw [List.mem_append, List.mem_singleton, not_or] at hbetween
      rw [← List.cons_append, ← List.append_assoc,
        since_append_of_ne (Ne.symm hbetween.2), ih hbetween.1]

theorem exists_eq_append_since {tag : UInt64} {history : List UInt64} (htag : tag ∈ history) :
    ∃ earlier, history = earlier ++ tag :: since tag history ∧ tag ∉ since tag history := by
  induction history using List.reverseRecOn with
  | nil => simp at htag
  | append_singleton history last ih =>
      by_cases hlast : last = tag
      · subst last
        refine ⟨history, ?_, ?_⟩ <;> simp
      · have hmem : tag ∈ history := by
          rcases List.mem_append.mp htag with hmem | hmem
          · exact hmem
          · exact absurd (List.mem_singleton.mp hmem).symm hlast
        obtain ⟨earlier, hsplit, hnot⟩ := ih hmem
        rw [since_append_of_ne hlast]
        refine ⟨earlier, ?_, ?_⟩
        · rw [← List.cons_append, ← List.append_assoc, ← hsplit]
        · simp [hnot, Ne.symm hlast]

theorem distance_append_of_ne {tag last : UInt64} (hne : last ≠ tag) (history : List UInt64) :
    distance tag (history ++ [last]) = (insert last (since tag history).toFinset).card := by
  rw [distance, since_append_of_ne hne, List.toFinset_append]
  simp [Finset.union_comm]

theorem distance_le_append_of_ne {tag last : UInt64} (hne : last ≠ tag)
    (history : List UInt64) : distance tag history ≤ distance tag (history ++ [last]) := by
  rw [distance_append_of_ne hne]
  exact Finset.card_le_card (Finset.subset_insert _ _)

theorem distance_append_cons_le (tag : UInt64) (earlier between : List UInt64) :
    distance tag (earlier ++ tag :: between) ≤ between.length := by
  induction between using List.reverseRecOn with
  | nil => simp [distance]
  | append_singleton between last ih =>
      rw [← List.cons_append, ← List.append_assoc]
      by_cases hlast : last = tag
      · subst last
        rw [distance, since_append_self]
        exact Nat.zero_le _
      · rw [distance_append_of_ne hlast]
        calc
          (insert last (since tag (earlier ++ tag :: between)).toFinset).card ≤
              distance tag (earlier ++ tag :: between) + 1 := Finset.card_insert_le _ _
          _ ≤ (between ++ [last]).length := by
            rw [List.length_append, List.length_singleton]
            omega

theorem nodup_recentTags (history : List UInt64) : (recentTags history).Nodup :=
  List.nodup_reverse.mpr (List.nodup_dedup history)

theorem exists_recentTags_eq {tag : UInt64} {history : List UInt64} (htag : tag ∈ history) :
    ∃ older,
      recentTags history = (since tag history).dedup.reverse ++ tag :: older := by
  obtain ⟨earlier, hsplit, hnot⟩ := exists_eq_append_since htag
  obtain ⟨older, holder⟩ := List.suffix_union_right earlier (tag :: since tag history).dedup
  refine ⟨older.reverse, ?_⟩
  calc
    recentTags history = (earlier ++ tag :: since tag history).dedup.reverse := by
      rw [recentTags, ← hsplit]
    _ = (older ++ tag :: (since tag history).dedup).reverse := by
      rw [List.dedup_append, ← holder, List.dedup_cons_of_notMem hnot]
    _ = (since tag history).dedup.reverse ++ tag :: older.reverse := by
      rw [List.reverse_append, List.reverse_cons, List.append_assoc, List.singleton_append]

theorem mem_take_recentTags_iff (tag : UInt64) (history : List UInt64) (count : Nat) :
    tag ∈ (recentTags history).take count ↔ tag ∈ history ∧ distance tag history < count := by
  have hmem : tag ∈ recentTags history ↔ tag ∈ history := by
    rw [recentTags, List.mem_reverse, List.mem_dedup]
  by_cases htag : tag ∈ history
  · obtain ⟨older, hrecent⟩ := exists_recentTags_eq htag
    have hlength : (since tag history).dedup.reverse.length = distance tag history := by
      rw [List.length_reverse, distance, List.card_toFinset]
    have hnodup := nodup_recentTags history
    rw [hrecent] at hnodup ⊢
    rw [List.nodup_append] at hnodup
    have hnot : tag ∉ (since tag history).dedup.reverse := by
      intro hfront
      exact hnodup.2.2 tag hfront tag List.mem_cons_self rfl
    rw [List.take_append, List.mem_append, hlength]
    constructor
    · rintro (hfront | hback)
      · exact absurd (List.mem_of_mem_take hfront) hnot
      · refine ⟨htag, ?_⟩
        by_contra hge
        rw [show count - distance tag history = 0 by omega] at hback
        simp at hback
    · rintro ⟨-, hlt⟩
      right
      rw [show count - distance tag history = count - distance tag history - 1 + 1 by omega]
      exact List.mem_cons_self
  · constructor
    · intro htake
      exact absurd (hmem.mp (List.mem_of_mem_take htake)) htag
    · rintro ⟨hin, -⟩
      exact absurd hin htag

/-! ## First accesses -/

/-- The distinct tags, the first accessed one first. -/
def firstTags (history : List UInt64) : List UInt64 := history.reverse.dedup.reverse

@[simp] theorem firstTags_nil : firstTags [] = [] := rfl

@[simp] theorem mem_firstTags_iff (tag : UInt64) (history : List UInt64) :
    tag ∈ firstTags history ↔ tag ∈ history := by
  rw [firstTags, List.mem_reverse, List.mem_dedup, List.mem_reverse]

theorem length_firstTags (history : List UInt64) :
    (firstTags history).length = history.toFinset.card := by
  rw [firstTags, List.length_reverse, ← List.card_toFinset, List.toFinset_reverse]

theorem firstTags_append_of_mem {last : UInt64} {history : List UInt64} (hmem : last ∈ history) :
    firstTags (history ++ [last]) = firstTags history := by
  rw [firstTags, List.reverse_concat, List.dedup_cons_of_mem (List.mem_reverse.mpr hmem),
    firstTags]

theorem firstTags_append_of_notMem {last : UInt64} {history : List UInt64}
    (hnew : last ∉ history) :
    firstTags (history ++ [last]) = firstTags history ++ [last] := by
  rw [firstTags, List.reverse_concat,
    List.dedup_cons_of_notMem (mt List.mem_reverse.mp hnew), List.reverse_cons, firstTags]

theorem firstTags_prefix (past rest : List UInt64) :
    firstTags past <+: firstTags (past ++ rest) := by
  induction rest using List.reverseRecOn with
  | nil => rw [List.append_nil]
  | append_singleton rest last ih =>
      rw [← List.append_assoc]
      by_cases hmem : last ∈ past ++ rest
      · rwa [firstTags_append_of_mem hmem]
      · rw [firstTags_append_of_notMem hmem]
        exact ih.trans (List.prefix_append _ _)

theorem idxOf_firstTags_append {tag : UInt64} {past : List UInt64} (hmem : tag ∈ past)
    (rest : List UInt64) :
    (firstTags (past ++ rest)).idxOf tag = (firstTags past).idxOf tag := by
  obtain ⟨later, hlater⟩ := firstTags_prefix past rest
  rw [← hlater, List.idxOf_append_of_mem ((mem_firstTags_iff tag past).mpr hmem)]

end PseudoLru.History
