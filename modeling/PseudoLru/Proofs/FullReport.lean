import PseudoLru.Proofs.Numerals
import PseudoLru.Proofs.Sharding

/-!
# What the full report tells

The report of a cache with its sets can be taken apart again.  A number goes on
as long as there are digits, a way begins with a space, and a set ends with its
line, so it is known from the text alone where each of them ends.  Caches that
differ in a counter, a state or a way have different reports, even if together
these are written with the same characters.
-/

namespace PseudoLru

namespace Text

/-! ## Texts that can be taken apart -/

/-- What is written can be separated from a text of the given kind behind it:
the two together tell the one and the other. -/
def Separable {α : Type*} (write : α → List Char) (Follows : List Char → Prop) : Prop :=
  ∀ ⦃x y : α⦄ ⦃rest rest' : List Char⦄, Follows rest → Follows rest' →
    write x ++ rest = write y ++ rest' → x = y ∧ rest = rest'

/-- The text does not go on with a digit. -/
def EndsNumeral (base : Nat) (text : List Char) : Prop :=
  text.takeWhile (fun c => (digit? base c).isSome) = []

theorem endsNumeral_append {base : Nat} {mark : List Char} {c : Char} (hmark : mark.head? = some c)
    (hc : digit? base c = none) (text : List Char) : EndsNumeral base (mark ++ text) := by
  obtain ⟨tail, rfl⟩ := List.head?_eq_some_iff.mp hmark
  simp [EndsNumeral, hc]

theorem separable_toDigits {base : Nat} (hbase : 1 < base) (hle : base ≤ 16) :
    Separable (Nat.toDigits base) (EndsNumeral base) := by
  have htake : ∀ n rest, EndsNumeral base rest →
      (Nat.toDigits base n ++ rest).takeWhile (fun c => (digit? base c).isSome) =
        Nat.toDigits base n := by
    intro n rest hrest
    rw [List.takeWhile_append_of_pos (isSome_digit?_of_mem_toDigits hbase hle n), hrest,
      List.append_nil]
  intro m n rest rest' hrest hrest' heq
  have hsame : Nat.toDigits base m = Nat.toDigits base n := by
    rw [← htake m rest hrest, heq, htake n rest' hrest']
  rw [hsame] at heq
  exact ⟨toDigits_injective hbase hle hsame, List.append_cancel_left heq⟩

theorem toDigits_append_mark_inj {base : Nat} (hbase : 1 < base) (hle : base ≤ 16)
    {mark : List Char} {c : Char} (hmark : mark.head? = some c) (hc : digit? base c = none)
    {m n : Nat} {rest rest' : List Char}
    (heq : Nat.toDigits base m ++ (mark ++ rest) = Nat.toDigits base n ++ (mark ++ rest')) :
    m = n ∧ rest = rest' := by
  have hends := endsNumeral_append hmark hc
  obtain ⟨hvalue, hrest⟩ := separable_toDigits hbase hle (hends rest) (hends rest') heq
  exact ⟨hvalue, List.append_cancel_left hrest⟩

/-- A list can be separated if its items can be separated from each other, and
no item looks like the end of the list. -/
theorem Separable.flatMap {α : Type*} {write : α → List Char} {Follows Ends : List Char → Prop}
    (hwrite : Separable write Follows) (hnext : ∀ x rest, Follows (write x ++ rest))
    (hends : ∀ rest, Ends rest → Follows rest) (hstop : ∀ x rest, ¬ Ends (write x ++ rest)) :
    Separable (List.flatMap write) Ends := by
  have hfollows : ∀ xs rest, Ends rest → Follows (List.flatMap write xs ++ rest) := by
    intro xs rest hrest
    cases xs with
    | nil => exact hends rest hrest
    | cons x xs =>
        rw [List.flatMap_cons, List.append_assoc]
        exact hnext x _
  intro xs ys rest rest' hrest hrest' heq
  induction xs generalizing ys with
  | nil =>
      cases ys with
      | nil => exact ⟨rfl, heq⟩
      | cons y ys =>
          rw [List.flatMap_nil, List.nil_append, List.flatMap_cons, List.append_assoc] at heq
          rw [heq] at hrest
          exact absurd hrest (hstop y _)
  | cons x xs ih =>
      rw [List.flatMap_cons, List.append_assoc] at heq
      cases ys with
      | nil =>
          rw [List.flatMap_nil, List.nil_append] at heq
          rw [← heq] at hrest'
          exact absurd hrest' (hstop x _)
      | cons y ys =>
          rw [List.flatMap_cons, List.append_assoc] at heq
          obtain ⟨rfl, htail⟩ := hwrite (hfollows xs rest hrest) (hfollows ys rest' hrest') heq
          obtain ⟨rfl, hend⟩ := ih htail
          exact ⟨rfl, hend⟩

end Text

open Text

namespace Line

theorem eq_iff (line other : Line) :
    line = other ↔ line.valid = other.valid ∧ line.tag = other.tag := by
  cases line
  cases other
  simp

def written (line : Line) : List Char :=
  " v:".toList ++ (Nat.toDigits 10 line.valid.toNat ++
    (" tag:".toList ++ Nat.toDigits 16 line.tag.toNat))

theorem toList_render (line : Line) : line.render.toList = line.written := by
  unfold render written hex
  simp only [toString, String.toList_append, String.toList_ofList, Nat.toList_repr,
    List.append_assoc]

theorem separable_written : Separable written (EndsNumeral 16) := by
  intro line other rest rest' hrest hrest' heq
  unfold written at heq
  simp only [List.append_assoc] at heq
  obtain ⟨hvalid, heq⟩ := toDigits_append_mark_inj (c := ' ') (by decide) (by decide) (by simp)
    (by decide) (List.append_cancel_left heq)
  obtain ⟨htag, rfl⟩ := separable_toDigits (by decide) (by decide) hrest hrest' heq
  have hvalid : line.valid = other.valid := by
    rw [Bool.eq_iff_iff, ← Bool.toNat_eq_one, hvalid, Bool.toNat_eq_one]
  exact ⟨(eq_iff line other).mpr ⟨hvalid, UInt64.toNat.inj htag⟩, rfl⟩

end Line

namespace CacheSet

/-- What the line of a set is written from: its state and its ways. -/
def contents (set : CacheSet) : UInt64 × List Line := (set.state, set.lines)

def written (contents : UInt64 × List Line) : List Char :=
  "state:".toList ++ (Nat.toDigits 10 contents.1.toNat ++
    (" ".toList ++ (contents.2.flatMap Line.written ++ "\n".toList)))

theorem toList_render (set : CacheSet) : (set.render ++ "\n").toList = written set.contents := by
  unfold render written contents
  simp only [toString, String.toList_append, String.toList_join, Nat.toList_repr,
    List.flatMap_map, List.append_assoc, Line.toList_render]

theorem contents_eq_iff (set other : CacheSet) :
    set.contents = other.contents ↔
      set.lines.length = other.lines.length ∧ set.state = other.state ∧
        List.Forall₂ (fun line line' => line.valid = line'.valid ∧ line.tag = line'.tag)
          set.lines other.lines := by
  simp only [← Line.eq_iff, contents, Prod.mk.injEq]
  rw [List.forall₂_eq_eq_eq]
  constructor
  · rintro ⟨hstate, hlines⟩
    exact ⟨congrArg List.length hlines, hstate, hlines⟩
  · rintro ⟨-, hstate, hlines⟩
    exact ⟨hstate, hlines⟩

theorem separable_ways :
    Separable (List.flatMap Line.written) (fun text => text.head? = some '\n') := by
  apply Line.separable_written.flatMap
  · intro line rest
    unfold Line.written
    rw [List.append_assoc]
    exact endsNumeral_append (c := ' ') (by simp) (by decide) _
  · intro rest hrest
    rw [← List.append_nil rest]
    exact endsNumeral_append hrest (by decide) []
  · intro line rest hend
    unfold Line.written at hend
    simp at hend

theorem separable_written : Separable written (fun _ => True) := by
  intro first second rest rest' _ _ heq
  unfold written at heq
  simp only [List.append_assoc] at heq
  obtain ⟨hstate, heq⟩ := toDigits_append_mark_inj (c := ' ') (by decide) (by decide) (by simp)
    (by decide) (List.append_cancel_left heq)
  obtain ⟨hlines, heq⟩ := separable_ways (by simp) (by simp) heq
  exact ⟨Prod.ext (UInt64.toNat.inj hstate) hlines, List.append_cancel_left heq⟩

end CacheSet

/-- The hit rate needs no reading: it follows from the counters. -/
theorem Tally.separable_render :
    Separable (fun tally : Tally => tally.render.toList) (fun _ => True) := by
  have hrender : ∀ tally : Tally, tally.render.toList =
      "Hit: ".toList ++ (Nat.toDigits 10 tally.hits ++
        (" Miss: ".toList ++ (Nat.toDigits 10 tally.misses ++
          (" (".toList ++ (tally.hitPercent.toList ++ "% hit rate)".toList))))) := by
    intro tally
    unfold Tally.render
    simp only [toString, String.toList_append, Nat.toList_repr, List.append_assoc]
  intro tally other rest rest' _ _ heq
  have hread := heq
  simp only [hrender, List.append_assoc] at hread
  obtain ⟨hhits, hread⟩ := toDigits_append_mark_inj (c := ' ') (by decide) (by decide) (by simp)
    (by decide) (List.append_cancel_left hread)
  obtain ⟨hmisses, -⟩ := toDigits_append_mark_inj (c := ' ') (by decide) (by decide) (by simp)
    (by decide) hread
  obtain rfl : tally = other := Tally.ext hhits hmisses
  exact ⟨rfl, List.append_cancel_left heq⟩

namespace Cache

theorem separable_sets : Separable (List.flatMap CacheSet.written) (fun text => text = []) := by
  apply CacheSet.separable_written.flatMap
  · exact fun _ _ => trivial
  · exact fun _ _ => trivial
  · intro contents rest hend
    unfold CacheSet.written at hend
    simp at hend

theorem toList_render_of_dumpSets {cache : Cache} (hdump : cache.dumpSets = true) :
    cache.render.toList = "\n==Summary==\n\t".toList ++ (cache.tally.render.toList ++
      ("\n".toList ++ (cache.sets.toList.map CacheSet.contents).flatMap CacheSet.written)) := by
  unfold render
  simp only [hdump, if_true, toString, String.toList_append, String.toList_join,
    List.flatMap_map, List.append_assoc, ← CacheSet.toList_render]

theorem render_eq_iff {cache other : Cache} (hcache : cache.dumpSets = true)
    (hother : other.dumpSets = true) :
    cache.render = other.render ↔ cache.tally = other.tally ∧
      cache.sets.toList.map CacheSet.contents = other.sets.toList.map CacheSet.contents := by
  rw [← String.toList_inj, toList_render_of_dumpSets hcache, toList_render_of_dumpSets hother]
  constructor
  · intro heq
    obtain ⟨htally, heq⟩ := Tally.separable_render trivial trivial (List.append_cancel_left heq)
    have hsets := List.append_cancel_left heq
    exact ⟨htally, (separable_sets rfl rfl (congrArg (· ++ []) hsets)).1⟩
  · rintro ⟨htally, hsets⟩
    rw [htally, hsets]

/-- Two full reports are the same exactly if the caches have the same counters
and as many sets, and the sets one after the other have as many ways, the same
state and, way by way, the same flag and tag. -/
theorem full_report_loses_nothing {cache other : Cache} (hcache : cache.dumpSets = true)
    (hother : other.dumpSets = true) :
    cache.render = other.render ↔
      cache.tally.hits = other.tally.hits ∧ cache.tally.misses = other.tally.misses ∧
      cache.sets.size = other.sets.size ∧
      List.Forall₂
        (fun set set' : CacheSet =>
          set.lines.length = set'.lines.length ∧ set.state = set'.state ∧
          List.Forall₂ (fun line line' : Line => line.valid = line'.valid ∧ line.tag = line'.tag)
            set.lines set'.lines)
        cache.sets.toList other.sets.toList := by
  have hsets : cache.sets.toList.map CacheSet.contents = other.sets.toList.map CacheSet.contents ↔
      List.Forall₂ (fun set set' : CacheSet => set.contents = set'.contents)
        cache.sets.toList other.sets.toList := by
    rw [← List.forall₂_eq_eq_eq, List.forall₂_map_left_iff, List.forall₂_map_right_iff]
  rw [render_eq_iff hcache hother, Tally.ext_iff, and_assoc, hsets]
  simp only [CacheSet.contents_eq_iff]
  constructor
  · rintro ⟨hhits, hmisses, hforall⟩
    exact ⟨hhits, hmisses, hforall.length_eq, hforall⟩
  · rintro ⟨hhits, hmisses, -, hforall⟩
    exact ⟨hhits, hmisses, hforall⟩

/-- One set of two ways and two sets of one way hold the same ways.  The reports
tell how they are grouped. -/
theorem grouping_of_ways_reported :
    ∃ cache other : Cache, ofGeometry { ways := 2, sets := 1 } = .ok cache ∧
      ofGeometry { ways := 1, sets := 2 } = .ok other ∧
      ({ cache with dumpSets := true } : Cache).render ≠
        ({ other with dumpSets := true } : Cache).render := by
  obtain ⟨cache, hcache, hfresh⟩ := exists_ofGeometry (g := { ways := 2, sets := 1 }) rfl
  obtain ⟨other, hother, hfresh'⟩ := exists_ofGeometry (g := { ways := 1, sets := 2 }) rfl
  refine ⟨cache, other, hcache, hother, ?_⟩
  rw [Ne, full_report_loses_nothing rfl rfl]
  rintro ⟨-, -, hsize, -⟩
  rw [hfresh.size_sets, hfresh'.size_sets] at hsize
  contradiction

end Cache

end PseudoLru
