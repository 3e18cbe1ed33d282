import Mathlib.Tactic
import PseudoLru.Proofs.CacheRuns
import PseudoLru.Proofs.StateHistory

/-!
# Full sets

A full set has no empty way to prefer, so both policies fill the victim of the
tree and serve an access in the same way.  An access leaves a full set full.
So a run on a full set does not depend on the policy, even if the policy
changes from one access to the next, and a run on a cache whose sets are all
full depends on it neither.
-/

namespace PseudoLru

namespace CacheSet

/-- All ways are valid, and tags and state are as accesses leave them. -/
structure Full (e : Encoding) (set : CacheSet) : Prop where
  length_lines : set.lines.length = e.ways
  valid : ∀ line ∈ set.lines, line.valid = true
  distinct : set.Distinct
  state_lt : set.state.toNat < 2 ^ (e.ways - 1)

/-- A run in which every access comes with its own policy. -/
def replayUnder (set : CacheSet) (e : Encoding) (requests : List (VictimPolicy × UInt64)) :
    Except OutOfRange (Run CacheSet) :=
  Run.ofRequests (fun set request => set.access e request.1 request.2) set requests

section Full

variable {e : Encoding} {set : CacheSet} {policy : VictimPolicy} {tag : UInt64}
  {access : Access CacheSet}

theorem Full.replacement_eq (hfull : set.Full e) (policy : VictimPolicy) :
    set.replacement e policy = set.replacement e .tree := by
  have hnone : set.emptyWay? = none := by
    simpa [emptyWay?] using hfull.valid
  cases policy <;> simp [replacement, hnone]

theorem Full.access_eq (hfull : set.Full e) (policy other : VictimPolicy) (tag : UInt64) :
    set.access e policy tag = set.access e other tag := by
  simp only [CacheSet.access, miss, hfull.replacement_eq policy, hfull.replacement_eq other]

theorem Full.after (hfull : set.Full e) (haccess : set.Accesses e policy tag access) :
    access.after.Full e where
  length_lines := haccess.length_lines.trans hfull.length_lines
  valid := by
    intro line hline
    obtain ⟨way, hway⟩ := List.mem_iff_getElem?.mp hline
    rw [haccess.getElem?_lines_after] at hway
    split at hway
    · simp [← Option.some.inj hway, Line.fetched]
    · exact hfull.valid line (List.mem_of_getElem? hway)
  distinct := haccess.distinct hfull.distinct
  state_lt := by
    apply Nat.lt_pow_two_of_testBit
    intro i hi
    have hzero := Nat.testBit_lt_two_pow
      (hfull.state_lt.trans_le (Nat.pow_le_pow_right (by decide) hi))
    exact (Encoding.testBit_touch_of_le haccess.touch hi).trans hzero

theorem Full.exists_evicted (hfull : set.Full e) (haccess : set.Accesses e policy tag access)
    (hmiss : access.outcome.isHit = false) : ∃ old, access.outcome.evicted? = some old := by
  obtain ⟨line, hline, hevicted⟩ := haccess.exists_evicted?_of_miss hmiss
  have hvalid := hfull.valid line (List.mem_of_getElem? hline)
  exact ⟨line.tag, by simp [hevicted, Line.resident?, hvalid]⟩

/-- One run serves the requests under their own policies and under any fixed
one. -/
theorem Full.exists_replayUnder (hfull : set.Full e)
    (requests : List (VictimPolicy × UInt64)) :
    ∃ run, set.replayUnder e requests = .ok run ∧ run.after.Full e ∧
      (∀ policy, set.replay e policy (requests.map (·.2)) = .ok run) ∧
      ∀ outcome ∈ run.outcomes, outcome.isHit = false → ∃ old, outcome.evicted? = some old := by
  induction requests generalizing set with
  | nil => exact ⟨Run.start set, rfl, hfull, fun _ => rfl, by simp [Run.start]⟩
  | cons request rest ih =>
      obtain ⟨access, hok, haccess⟩ := exists_access hfull.length_lines request.1 request.2
      obtain ⟨run, hrun, hlast, hfixed, hevicts⟩ := ih (hfull.after haccess)
      refine ⟨Run.cons access run, Run.ofRequests_cons_of_ok hok hrun, hlast, ?_, ?_⟩
      · intro policy
        rw [hfull.access_eq request.1 policy] at hok
        exact Run.ofRequests_cons_of_ok hok (hfixed policy)
      · simpa [Run.cons] using ⟨hfull.exists_evicted haccess, hevicts⟩

end Full

end CacheSet

namespace Cache

structure Full (cache : Cache) : Prop where
  wellFormed : cache.WellFormed
  full : ∀ (index : Nat) (set : CacheSet), cache.sets[index]? = some set →
    set.Full cache.encoding

def withPolicy (cache : Cache) (policy : VictimPolicy) : Cache :=
  { cache with geometry := { cache.geometry with policy } }

@[simp] theorem withPolicy_withPolicy (cache : Cache) (policy other : VictimPolicy) :
    (cache.withPolicy policy).withPolicy other = cache.withPolicy other := rfl

/-- A run in which every access comes with its own policy. -/
def replayUnder (cache : Cache) (requests : List (VictimPolicy × UInt64)) :
    Except OutOfRange (Run Cache) :=
  Run.ofRequests (fun cache request => (cache.withPolicy request.1).access request.2) cache
    requests

section Full

variable {cache : Cache}

theorem Full.withPolicy (hfull : cache.Full) (policy : VictimPolicy) :
    (cache.withPolicy policy).Full where
  wellFormed := ⟨hfull.wellFormed.size_eq, hfull.wellFormed.length_lines,
    hfull.wellFormed.index_eq⟩
  full := hfull.full

/-- Up to the policy itself, an access does the same under all policies. -/
theorem Full.exists_access (hfull : cache.Full) (address : UInt64) :
    ∃ (inSet : Access CacheSet) (next : Cache), next.Full ∧
      (inSet.outcome.isHit = false → ∃ old, inSet.outcome.evicted? = some old) ∧
      ∀ policy, (cache.withPolicy policy).access address =
        .ok ⟨inSet.outcome, inSet.event, next.withPolicy policy⟩ := by
  obtain ⟨set, inSet, hset, hok, haccess, -⟩ := hfull.wellFormed.exists_access address
  have hfullSet := hfull.full _ set hset
  have hevicts := hfullSet.exists_evicted haccess
  refine ⟨inSet, cache.served (cache.indexOf address) inSet, ?_, hevicts, ?_⟩
  · exact ⟨hfull.wellFormed.served hset haccess,
      forall_sets_served hfull.full (hfullSet.after haccess) hset⟩
  · intro policy
    have hsame : (cache.withPolicy policy).sets[(cache.withPolicy policy).indexOf address]? =
        some set := hset
    apply access_of_set hsame
    rw [← hok]
    exact hfullSet.access_eq _ _ _

theorem Full.exists_replayUnder (hfull : cache.Full)
    (requests : List (VictimPolicy × UInt64)) :
    ∃ run, cache.replayUnder requests = .ok run ∧ run.after.Full ∧
      (∀ policy, (cache.withPolicy policy).replay (requests.map (·.2)) =
        .ok { run with after := run.after.withPolicy policy }) ∧
      ∀ outcome ∈ run.outcomes, outcome.isHit = false → ∃ old, outcome.evicted? = some old := by
  induction requests generalizing cache with
  | nil => exact ⟨Run.start cache, rfl, hfull, fun _ => rfl, by simp [Run.start]⟩
  | cons request rest ih =>
      obtain ⟨inSet, next, hnext, hevicts, hserves⟩ := hfull.exists_access request.2
      obtain ⟨run, hrun, hlast, hfixed, hrest⟩ := ih (hnext.withPolicy request.1)
      refine ⟨_, Run.ofRequests_cons_of_ok (hserves request.1) hrun, hlast, ?_, ?_⟩
      · intro policy
        have htail := hfixed policy
        rw [withPolicy_withPolicy] at htail
        exact Run.ofRequests_cons_of_ok (hserves policy) htail
      · simpa [Run.cons] using ⟨hevicts, hrest⟩

end Full

end Cache

/-- On a full set the two policies, and any alternation between them, make the
same run: the same outcomes and the same set in the end.  Every miss displaces
a line, and the set is full after every access.  The same is true of caches
whose sets are all full. -/
theorem policies_coincide_when_full :
    (∀ (e : Encoding) (set : CacheSet) (requests : List (VictimPolicy × UInt64)), set.Full e →
      ∃ run, set.replayUnder e requests = .ok run ∧
        (∀ policy, set.replay e policy (requests.map (·.2)) = .ok run) ∧
        (∀ outcome ∈ run.outcomes,
          outcome.isHit = false → ∃ old, outcome.evicted? = some old) ∧
        ∀ past rest, requests = past ++ rest →
          ∃ midway, set.replayUnder e past = .ok midway ∧ midway.after.Full e) ∧
    ∀ (cache : Cache) (requests : List (VictimPolicy × UInt64)), cache.Full →
      ∃ run, cache.replayUnder requests = .ok run ∧
        (∀ policy, (cache.withPolicy policy).replay (requests.map (·.2)) =
          .ok { run with after := run.after.withPolicy policy }) ∧
        (∀ outcome ∈ run.outcomes,
          outcome.isHit = false → ∃ old, outcome.evicted? = some old) ∧
        ∀ past rest, requests = past ++ rest →
          ∃ midway, cache.replayUnder past = .ok midway ∧ midway.after.Full := by
  constructor
  · intro e set requests hfull
    obtain ⟨run, hrun, -, hfixed, hevicts⟩ := hfull.exists_replayUnder requests
    refine ⟨run, hrun, hfixed, hevicts, ?_⟩
    intro past _ _
    obtain ⟨midway, hmidway, hlast, -⟩ := hfull.exists_replayUnder past
    exact ⟨midway, hmidway, hlast⟩
  · intro cache requests hfull
    obtain ⟨run, hrun, -, hfixed, hevicts⟩ := hfull.exists_replayUnder requests
    refine ⟨run, hrun, hfixed, hevicts, ?_⟩
    intro past _ _
    obtain ⟨midway, hmidway, hlast, -⟩ := hfull.exists_replayUnder past
    exact ⟨midway, hmidway, hlast⟩

theorem CacheSet.full_pair : (CacheSet.mk 0 [.fetched 5, .fetched 9] 1).Full
    (Encoding.ofLevels 1 (by decide)) where
  length_lines := rfl
  valid := by simp [Line.fetched]
  distinct := by
    have hnodup : [Line.fetched 5, Line.fetched 9].Nodup := by decide
    intro way other tag hway hother
    exact (List.getElem?_inj (lt_of_holdsAt hway) hnodup).mp (hway.trans hother.symm)
  state_lt := by decide

theorem Cache.full_single {set : CacheSet} (hset : set.index = 0) {e : Encoding}
    (hfull : set.Full e) : (Cache.mk { ways := e.ways, sets := 1, offsetBits := 0 } e
      ⟨0, 0, by decide⟩ #[set] {} false).Full := by
  have hone : ∀ (index : Nat) (other : CacheSet), #[set][index]? = some other →
      index = 0 ∧ other = set := by
    intro index other hother
    cases index <;> simp_all
  constructor
  · constructor
    · rfl
    · intro index other hother
      rw [(hone index other hother).2]
      exact hfull.length_lines
    · intro index other hother
      rw [(hone index other hother).1, (hone index other hother).2, hset]
  · intro index other hother
    rw [(hone index other hother).2]
    exact hfull

/-- A hit and two misses of a full set of two ways, by itself and as the only
set of a cache. -/
theorem full_pair_coincides :
    (∃ run, (CacheSet.mk 0 [.fetched 5, .fetched 9] 1).replayUnder
        (Encoding.ofLevels 1 (by decide)) [(.tree, 5), (.invalidFirst, 7), (.tree, 9)] = .ok run ∧
      (CacheSet.mk 0 [.fetched 5, .fetched 9] 1).replay (Encoding.ofLevels 1 (by decide))
        .invalidFirst [5, 7, 9] = .ok run) ∧
    ∃ run, (Cache.mk { ways := 2, sets := 1, offsetBits := 0 } (Encoding.ofLevels 1 (by decide))
        ⟨0, 0, by decide⟩ #[⟨0, [.fetched 5, .fetched 9], 1⟩] {} false).replayUnder
          [(.tree, 5), (.invalidFirst, 7), (.tree, 9)] = .ok run ∧
      ∀ outcome ∈ run.outcomes, outcome.isHit = false → ∃ old, outcome.evicted? = some old := by
  obtain ⟨run, hrun, hfixed, -⟩ := policies_coincide_when_full.1 _ _
    [(.tree, 5), (.invalidFirst, 7), (.tree, 9)] CacheSet.full_pair
  obtain ⟨inCache, hinCache, -, hevicts, -⟩ := policies_coincide_when_full.2 _
    [(.tree, 5), (.invalidFirst, 7), (.tree, 9)] (Cache.full_single rfl CacheSet.full_pair)
  exact ⟨⟨run, hrun, hfixed .invalidFirst⟩, inCache, hinCache, hevicts⟩

end PseudoLru
