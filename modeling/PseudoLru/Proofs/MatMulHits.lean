import Mathlib.Tactic
import PseudoLru.Proofs.MatMulStream
import PseudoLru.Proofs.ReuseDistance
import PseudoLru.Proofs.Soundness
import PseudoLru.Simulator

/-!
# Hits of the matrix-multiply workload

Every step of an inner product refers to the result element twice, after a
reference to the same element and at most two others.  A tag stays in its set
while no more distinct tags than the tree has levels are looked up there, so
with two levels or more both references hit, and the second one hits in any
case.  This holds for all sizes, bases and layouts, since it does not matter
which sets and tags the references in between have.
-/

namespace PseudoLru

open History

namespace Cache

/-! ## Repeated addresses -/

/-- Every set protects what was looked up in it most recently. -/
def Guards (cache : Cache) : Prop :=
  ∀ (index : Nat) (set : CacheSet), cache.sets[index]? = some set →
    ∃ history, set.Protects cache.encoding history

section Runs

variable {cache : Cache} {addresses : List UInt64} {run : Run Cache}

theorem IsFresh.guards {g : Geometry} (hfresh : cache.IsFresh g) : cache.Guards := by
  intro index set hset
  obtain ⟨hlt, -⟩ := Array.getElem?_eq_some_iff.mp hset
  rw [hfresh.size_sets] at hlt
  rw [hfresh.getElem?_sets hlt] at hset
  obtain rfl := Option.some.inj hset
  exact ⟨[], CacheSet.protects_empty _ index⟩

theorem WellFormed.exists_protects_after (hwell : cache.WellFormed) (hguards : cache.Guards)
    (hrun : cache.replay addresses = .ok run) {index : Nat} {set : CacheSet}
    (hset : run.after.sets[index]? = some set) :
    ∃ history, set.Protects cache.encoding (history ++ cache.tagsOf index addresses) := by
  have hlt : index < cache.sets.size := by
    obtain ⟨hlt, -⟩ := Array.getElem?_eq_some_iff.mp hset
    rwa [(hwell.agrees_after hrun).size]
  have hfirst := Array.getElem?_eq_getElem hlt
  obtain ⟨history, hprotects⟩ := hguards index _ hfirst
  obtain ⟨inSet, hinSet, hafter, -⟩ := hwell.exists_set_replay hrun hfirst
  rw [hset] at hafter
  obtain rfl := Option.some.inj hafter
  refine ⟨history, CacheSet.invariant_of_replay
    (fun past _ set => set.Protects cache.encoding (history ++ past)) ?_
    (hwell.length_lines _ _ hfirst) ?_ hinSet⟩
  · intro past outcomes set tag access hwidth hset haccess
    rw [← List.append_assoc]
    exact hset.after hwidth haccess
  · rwa [List.append_nil]

theorem WellFormed.guards_after (hwell : cache.WellFormed) (hguards : cache.Guards)
    (hrun : cache.replay addresses = .ok run) : run.after.Guards := by
  intro index set hset
  rw [← (hwell.agrees_after hrun).encoding]
  obtain ⟨history, hprotects⟩ := hwell.exists_protects_after hguards hrun hset
  exact ⟨_, hprotects⟩

/-- An access hits if its address was accessed before, with no more accesses in
between than the tree has levels. -/
theorem WellFormed.hit_of_repeated (hwell : cache.WellFormed) (hguards : cache.Guards)
    {past between rest : List UInt64} {address : UInt64}
    (hrun : cache.replay (past ++ address :: between ++ address :: rest) = .ok run)
    (hclose : between.length ≤ cache.encoding.levels) :
    ∃ outcome, run.outcomes[past.length + 1 + between.length]? = some outcome ∧
      outcome.isHit = true := by
  obtain ⟨before, set, inSet, hbefore, hset, haccess, houtcome⟩ := hwell.exists_midway hrun
  obtain ⟨history, hprotects⟩ := hwell.exists_protects_after hguards hbefore hset
  have htags : cache.tagsOf (cache.indexOf address) (past ++ address :: between) =
      cache.tagsOf (cache.indexOf address) past ++
        cache.tagOf address :: cache.tagsOf (cache.indexOf address) between := by
    rw [List.append_cons, tagsOf_append, tagsOf_append_self, List.append_assoc]
    rfl
  rw [htags, ← List.append_assoc] at hprotects
  refine ⟨inSet.outcome, ?_, haccess.isHit_iff.mpr (hprotects.holdsAt_of_distance_le ?_ ?_)⟩
  · rw [← houtcome, List.length_append, List.length_cons]
    congr 1
    omega
  · simp
  · calc
      distance (cache.tagOf address) _ ≤
          (cache.tagsOf (cache.indexOf address) between).length := distance_append_cons_le _ _ _
      _ ≤ between.length := by
        rw [tagsOf, List.length_map]
        exact List.length_filter_le _ _
      _ ≤ cache.encoding.levels := hclose

end Runs

end Cache

/-! ## Positions of the references -/

theorem card_le_countP {α : Type} {p : α → Bool} {l : List α} {positions : Finset Nat}
    (hpositions : ∀ k ∈ positions, ∃ a, l[k]? = some a ∧ p a = true) :
    positions.card ≤ l.countP p := by
  induction l using List.reverseRecOn generalizing positions with
  | nil =>
      have hnone : positions = ∅ := by
        rw [Finset.eq_empty_iff_forall_notMem]
        intro k hk
        simpa using hpositions k hk
      simp [hnone]
  | append_singleton l last ih =>
      have hearlier : (positions.erase l.length).card ≤ l.countP p := by
        apply ih
        intro k hk
        obtain ⟨hne, hmem⟩ := Finset.mem_erase.mp hk
        obtain ⟨a, hget, ha⟩ := hpositions k hmem
        rcases (getElem?_append_singleton_eq_some_iff l last a k).mp hget with hold | ⟨heq, -⟩
        · exact ⟨a, hold, ha⟩
        · exact absurd heq hne
      rw [List.countP_append]
      by_cases hlast : l.length ∈ positions
      · obtain ⟨a, hget, ha⟩ := hpositions _ hlast
        have hsame : last = a := by simpa using hget
        rw [← Finset.card_erase_add_one hlast, hsame, List.countP_singleton, if_pos ha]
        exact Nat.succ_le_succ hearlier
      · rw [Finset.erase_eq_of_notMem hlast] at hearlier
        exact hearlier.trans (Nat.le_add_right _ _)

theorem eq_and_eq_of_mul_add_eq {width a b r s : Nat} (hr : r < width) (hs : s < width)
    (heq : a * width + r = b * width + s) : a = b ∧ r = s := by
  have hdiv := congrArg (· / width) heq
  have hmod := congrArg (· % width) heq
  simp only [Nat.mul_comm _ width, Nat.mul_add_mod, Nat.mod_eq_of_lt hr, Nat.mod_eq_of_lt hs,
    Nat.mul_add_div (Nat.zero_lt_of_lt hr), Nat.div_eq_of_lt hr, Nat.div_eq_of_lt hs,
    Nat.add_zero] at hdiv hmod
  exact ⟨hdiv, hmod⟩

namespace MatMul

/-- Where the last reference before a step of the inner product stands. -/
def stepStart (m : MatMul) (i j x : Nat) : Nat := (i * m.size + j) * m.elementLength + 4 * x

theorem exists_cons_flatMap_eq (m : MatMul) (i j x : Nat) :
    ∃ past, m.element m.resultBase i j :: (List.range x).flatMap (m.stepAddresses i j) =
      past ++ [m.element m.resultBase i j] ∧ past.length = 4 * x := by
  induction x with
  | zero => exact ⟨[], rfl, rfl⟩
  | succ x ih =>
      obtain ⟨past, hpast, hlength⟩ := ih
      refine ⟨past ++ [m.element m.resultBase i j, m.element m.leftBase i x,
        m.element m.rightBase x j, m.element m.resultBase i j], ?_, ?_⟩
      · rw [List.range_succ, List.flatMap_append, ← List.cons_append, hpast]
        simp [stepAddresses]
      · rw [List.length_append, hlength]
        rfl

theorem exists_elementAddresses_eq (m : MatMul) (i j : Nat) {x : Nat} (hx : x < m.size) :
    ∃ past rest, m.elementAddresses i j =
      past ++ m.element m.resultBase i j :: m.stepAddresses i j x ++ rest ∧
        past.length = 4 * x := by
  obtain ⟨rest, hsteps, -⟩ := exists_flatMap_range_eq (m.length_stepAddresses i j) hx
  obtain ⟨past, hpast, hlength⟩ := m.exists_cons_flatMap_eq i j x
  refine ⟨past, rest, ?_, hlength⟩
  rw [elementAddresses, hsteps, List.append_assoc, ← List.cons_append, hpast]
  simp

/-- A step of an inner product, after the last reference to its element. -/
theorem exists_addresses_eq (m : MatMul) {i j x : Nat} (hi : i < m.size) (hj : j < m.size)
    (hx : x < m.size) :
    ∃ past rest, m.addresses =
      past ++ m.element m.resultBase i j :: m.stepAddresses i j x ++ rest ∧
        past.length = m.stepStart i j x := by
  have hwidth : ∀ i, ((List.range m.size).flatMap fun j => m.elementAddresses i j).length =
      m.size * m.elementLength := by
    intro i
    simp [List.length_flatMap]
  obtain ⟨rows, hrows, hrowsLength⟩ := exists_flatMap_range_eq hwidth hi
  obtain ⟨cells, hcells, hcellsLength⟩ :=
    exists_flatMap_range_eq (m.length_elementAddresses i) hj
  obtain ⟨past, rest, hsteps, hlength⟩ := m.exists_elementAddresses_eq i j hx
  refine ⟨((List.range i).flatMap fun i => (List.range m.size).flatMap (m.elementAddresses i)) ++
    ((List.range j).flatMap (m.elementAddresses i) ++ past), rest ++ cells ++ rows, ?_, ?_⟩
  · rw [addresses, hrows, hcells, hsteps]
    simp
  · rw [List.length_append, List.length_append, hrowsLength, hcellsLength, hlength, stepStart]
    ring

theorem getElem?_addresses_of_step (m : MatMul) {i j x : Nat} (hi : i < m.size) (hj : j < m.size)
    (hx : x < m.size) :
    m.addresses[m.stepStart i j x + 3]? = some (m.element m.resultBase i j) ∧
      m.addresses[m.stepStart i j x + 4]? = some (m.element m.resultBase i j) := by
  obtain ⟨past, rest, haddresses, hlength⟩ := m.exists_addresses_eq hi hj hx
  rw [haddresses, ← hlength]
  simp [stepAddresses]

theorem injective_stepStart {m : MatMul} {i j x k i' j' x' k' : Nat} (hj : j < m.size)
    (hx : x < m.size) (hk : k < 4) (hj' : j' < m.size) (hx' : x' < m.size) (hk' : k' < 4)
    (heq : m.stepStart i j x + 1 + k = m.stepStart i' j' x' + 1 + k') :
    i = i' ∧ j = j' ∧ x = x' ∧ k = k' := by
  unfold stepStart at heq
  have hcell : (i * m.size + j) * m.elementLength + (x * 4 + k) =
      (i' * m.size + j') * m.elementLength + (x' * 4 + k') := by omega
  obtain ⟨hcell, hstep⟩ :=
    eq_and_eq_of_mul_add_eq (by unfold elementLength; omega) (by unfold elementLength; omega) hcell
  obtain ⟨hi, hj⟩ := eq_and_eq_of_mul_add_eq hj hj' hcell
  obtain ⟨hx, hk⟩ := eq_and_eq_of_mul_add_eq hk hk' hstep
  exact ⟨hi, hj, hx, hk⟩

/-- What holds at some of the references of every step holds at as many
positions. -/
theorem card_mul_le_countP {α : Type} {p : α → Bool} {l : List α} (m : MatMul)
    (references : Finset (Fin 4))
    (hsteps : ∀ i j x, i < m.size → j < m.size → x < m.size → ∀ k ∈ references,
      ∃ a, l[m.stepStart i j x + 1 + k]? = some a ∧ p a = true) :
    references.card * m.size ^ 3 ≤ l.countP p := by
  let steps := (Finset.univ : Finset (Fin m.size × Fin m.size × Fin m.size)) ×ˢ references
  let position := fun step : (Fin m.size × Fin m.size × Fin m.size) × Fin 4 =>
    m.stepStart step.1.1 step.1.2.1 step.1.2.2 + 1 + step.2
  have hinjective : Function.Injective position := by
    rintro ⟨⟨i, j, x⟩, k⟩ ⟨⟨i', j', x'⟩, k'⟩ heq
    obtain ⟨hi, hj, hx, hk⟩ := injective_stepStart j.isLt x.isLt k.isLt j'.isLt x'.isLt k'.isLt heq
    simp only [Prod.mk.injEq, Fin.ext_iff]
    exact ⟨⟨hi, hj, hx⟩, hk⟩
  calc
    references.card * m.size ^ 3 = steps.card := by
      rw [Finset.card_product]
      simp
      ring
    _ = (steps.image position).card := (Finset.card_image_of_injective _ hinjective).symm
    _ ≤ l.countP p := by
      apply card_le_countP
      intro k hk
      obtain ⟨⟨⟨i, j, x⟩, r⟩, hmem, rfl⟩ := Finset.mem_image.mp hk
      exact hsteps i j x i.isLt j.isLt x.isLt r (Finset.mem_product.mp hmem).2

end MatMul

namespace Cache

/-- What hits depend on. -/
structure Ready (g : Geometry) (cache : Cache) : Prop where
  wellFormed : cache.WellFormed
  guards : cache.Guards
  ways_eq : cache.encoding.ways = g.ways

section Ready

variable {g : Geometry} {cache : Cache} {addresses : List UInt64} {run : Run Cache}

theorem ready_of_ofGeometry (hcache : ofGeometry g = .ok cache) : cache.Ready g := by
  obtain ⟨hvalid, hfresh⟩ := isFresh_of_ofGeometry hcache
  exact ⟨hfresh.wellFormed hvalid, hfresh.guards, hfresh.ways_eq⟩

theorem Ready.after (hready : cache.Ready g) (hrun : cache.replay addresses = .ok run) :
    run.after.Ready g where
  wellFormed := hready.wellFormed.wellFormed_after hrun
  guards := hready.wellFormed.guards_after hready.guards hrun
  ways_eq := by
    rw [← (hready.wellFormed.agrees_after hrun).encoding]
    exact hready.ways_eq

theorem Ready.two_le_levels (hready : cache.Ready g) (hways : 4 ≤ g.ways) :
    2 ≤ cache.encoding.levels := by
  rw [← hready.ways_eq, Encoding.ways_eq_two_pow] at hways
  exact (Nat.pow_le_pow_iff_right (by decide : 1 < 2)).mp hways

/-- Both references of a step to its element hit with two levels, and the
second one always does. -/
theorem Ready.hits_of_step (hready : cache.Ready g) {m : MatMul}
    (hrun : cache.replay m.addresses = .ok run) {i j x : Nat} (hi : i < m.size) (hj : j < m.size)
    (hx : x < m.size) :
    (2 ≤ cache.encoding.levels → ∃ outcome,
      run.outcomes[m.stepStart i j x + 1 + 2]? = some outcome ∧ outcome.isHit = true) ∧
    ∃ outcome,
      run.outcomes[m.stepStart i j x + 1 + 3]? = some outcome ∧ outcome.isHit = true := by
  obtain ⟨past, rest, haddresses, hlength⟩ := m.exists_addresses_eq hi hj hx
  have hread : m.addresses =
      past ++ m.element m.resultBase i j :: [m.element m.leftBase i x, m.element m.rightBase x j] ++
        m.element m.resultBase i j :: m.element m.resultBase i j :: rest := by
    rw [haddresses]
    simp [MatMul.stepAddresses]
  have hwrite : m.addresses =
      (past ++ [m.element m.resultBase i j, m.element m.leftBase i x,
          m.element m.rightBase x j]) ++
        m.element m.resultBase i j :: [] ++ m.element m.resultBase i j :: rest := by
    rw [haddresses]
    simp [MatMul.stepAddresses]
  rw [← hlength]
  constructor
  · intro hlevels
    rw [hread] at hrun
    exact hready.wellFormed.hit_of_repeated hready.guards hrun hlevels
  · rw [hwrite] at hrun
    have hhit := hready.wellFormed.hit_of_repeated hready.guards hrun (Nat.zero_le _)
    rwa [List.length_append, Nat.add_right_comm] at hhit

theorem Ready.hits_le (hready : cache.Ready g) {m : MatMul}
    (hrun : cache.replay m.addresses = .ok run) (references : Finset (Fin 4))
    (hhits : ∀ i j x, i < m.size → j < m.size → x < m.size → ∀ k ∈ references, ∃ outcome,
      run.outcomes[m.stepStart i j x + 1 + k]? = some outcome ∧ outcome.isHit = true) :
    cache.tally.hits + references.card * m.size ^ 3 ≤ run.after.tally.hits := by
  rw [hready.wellFormed.hits_eq hrun]
  exact Nat.add_le_add_left (m.card_mul_le_countP references hhits) _

end Ready

end Cache

namespace Simulator

/-- The simulators that use leads to from one built for a geometry.  The
configuration that is kept, and with it the workload, may be replaced at any
time, but not the cache. -/
inductive Reachable (g : Geometry) : Simulator → Prop
  | built {config : Config} {sim : Simulator} (hcache : config.cache = g)
      (hbuilt : ofConfig config = .ok sim) : Reachable g sim
  | accessed {sim : Simulator} {address : UInt64} {access : Access Cache}
      (hreach : Reachable g sim) (haccess : sim.cache.access address = .ok access) :
      Reachable g { sim with cache := access.after }
  | ran {sim after : Simulator} {addresses : List UInt64} (hreach : Reachable g sim)
      (hrun : sim.run addresses = .ok after) : Reachable g after
  | ranMatMul {sim after : Simulator} (hreach : Reachable g sim)
      (hrun : sim.runMatMul = .ok after) : Reachable g after
  | configured {sim : Simulator} (hreach : Reachable g sim) (config : Config) :
      Reachable g { sim with config }
  | listed {sim : Simulator} (hreach : Reachable g sim) (dumpSets : Bool) :
      Reachable g { sim with cache := { sim.cache with dumpSets } }

theorem exists_ofConfig (config : Config) (hvalid : config.cache.validate = .ok ()) :
    ∃ cache, ofConfig config = .ok ⟨cache, config⟩ := by
  obtain ⟨cache, hcache, -⟩ := Cache.exists_ofGeometry hvalid
  refine ⟨cache, ?_⟩
  rw [ofConfig, hcache]
  rfl

theorem ofConfig_eq_ok {config : Config} {sim : Simulator} (hsim : ofConfig config = .ok sim) :
    Cache.ofGeometry config.cache = .ok sim.cache ∧ sim.config = config := by
  rw [ofConfig, bind_eq_ok_iff] at hsim
  obtain ⟨cache, hcache, hsame⟩ := hsim
  obtain rfl := Except.ok.inj hsame
  exact ⟨hcache, rfl⟩

theorem exists_replay_of_run {sim after : Simulator} {addresses : List UInt64}
    (hrun : sim.run addresses = .ok after) :
    ∃ run, sim.cache.replay addresses = .ok run ∧ after.cache = run.after := by
  rw [run, Cache.accessAll_eq_map_replay, bind_eq_ok_iff] at hrun
  obtain ⟨cache, hcache, hsame⟩ := hrun
  obtain ⟨run, hreplay, rfl⟩ := map_eq_ok_iff.mp hcache
  obtain rfl := Except.ok.inj hsame
  exact ⟨run, hreplay, rfl⟩

theorem Reachable.ready {g : Geometry} {sim : Simulator} (hreach : sim.Reachable g) :
    sim.cache.Ready g := by
  induction hreach with
  | @built config sim hcache hbuilt =>
      subst hcache
      exact Cache.ready_of_ofGeometry (ofConfig_eq_ok hbuilt).1
  | @accessed sim address access _ haccess ih =>
      have hreplay : sim.cache.replay [address] = .ok (Run.cons access (Run.start access.after)) :=
        Run.ofRequests_cons_of_ok haccess rfl
      exact ih.after hreplay
  | ran _ hrun ih =>
      obtain ⟨run, hreplay, hcache⟩ := exists_replay_of_run hrun
      rw [hcache]
      exact ih.after hreplay
  | ranMatMul _ hrun ih =>
      obtain ⟨run, hreplay, hcache⟩ := exists_replay_of_run hrun
      rw [hcache]
      exact ih.after hreplay
  | configured _ _ ih => exact ih
  | listed _ _ ih =>
      exact ⟨⟨ih.wellFormed.size_eq, ih.wellFormed.length_lines, ih.wellFormed.index_eq⟩,
        ih.guards, ih.ways_eq⟩

theorem replayMatMul_of_replay {sim : Simulator} {run : Run Cache}
    (hrun : sim.cache.replay sim.config.workload.addresses = .ok run) :
    ∃ events, sim.replayMatMul = .ok ⟨run.outcomes, events, { sim with cache := run.after }⟩ := by
  rw [replayMatMul, replay, hrun]
  exact ⟨_, rfl⟩

/-- A run of the workload serves all its references.  The second reference of
every step to its element hits, and with four ways or more the first one does,
too. -/
theorem runMatMul_hits (g : Geometry) (sim : Simulator) (hreach : sim.Reachable g) :
    ∃ run, sim.replayMatMul = .ok run ∧ sim.runMatMul = .ok run.after ∧
      let m := sim.config.workload
      let n := m.size
      let before := sim.cache.tally
      let after := run.after.cache.tally
      after.hits + after.misses = before.hits + before.misses + n ^ 2 * (1 + 4 * n) ∧
      before.hits + n ^ 3 ≤ after.hits ∧
      (4 ≤ g.ways →
        before.hits + 2 * n ^ 3 ≤ after.hits ∧
        ∀ i j x, i < n → j < n → x < n → ∀ k ∈ [3, 4],
          let position := (i * n + j) * (1 + 4 * n) + 4 * x + k
          m.addresses[position]? = some (m.element m.resultBase i j) ∧
            ∃ outcome, run.outcomes[position]? = some outcome ∧ outcome.isHit = true) := by
  have hready := hreach.ready
  obtain ⟨inCache, hreplay⟩ := hready.wellFormed.exists_run sim.config.workload.addresses
  obtain ⟨events, hrun⟩ := replayMatMul_of_replay hreplay
  refine ⟨_, hrun, ?_, ?_, ?_, ?_⟩
  · rw [runMatMul_eq_map_replayMatMul, hrun]
    rfl
  · have haccesses := hready.wellFormed.accesses_eq hreplay
    rw [MatMul.length_addresses, MatMul.length, ← Nat.pow_two] at haccesses
    exact haccesses
  · have hhits := hready.hits_le hreplay {3} fun i j x hi hj hx k hk => by
      obtain rfl := Finset.mem_singleton.mp hk
      exact (hready.hits_of_step hreplay hi hj hx).2
    rwa [Finset.card_singleton, Nat.one_mul] at hhits
  · intro hways
    have hlevels := hready.two_le_levels hways
    constructor
    · apply hready.hits_le hreplay {2, 3}
      intro i j x hi hj hx k hk
      have hstep := hready.hits_of_step hreplay hi hj hx
      rcases Finset.mem_insert.mp hk with rfl | hk
      · exact hstep.1 hlevels
      · obtain rfl := Finset.mem_singleton.mp hk
        exact hstep.2
    · intro i j x hi hj hx k hk
      have hstep := hready.hits_of_step hreplay hi hj hx
      have haddresses := sim.config.workload.getElem?_addresses_of_step hi hj hx
      rcases List.mem_pair.mp hk with rfl | rfl
      · exact ⟨haddresses.1, hstep.1 hlevels⟩
      · exact ⟨haddresses.2, hstep.2⟩

/-- Two by two matrices and two sets of four ways. -/
theorem small_runMatMul_hits :
    ∃ sim run,
      ofConfig { cache := { ways := 4, sets := 2 }, workload := { size := 2 } } = .ok sim ∧
      sim.replayMatMul = .ok run ∧ 16 ≤ run.after.cache.tally.hits := by
  obtain ⟨cache, hbuilt⟩ :=
    exists_ofConfig { cache := { ways := 4, sets := 2 }, workload := { size := 2 } } rfl
  obtain ⟨run, hrun, -, -, -, hhits⟩ :=
    runMatMul_hits { ways := 4, sets := 2 } _ (.built rfl hbuilt)
  refine ⟨_, run, hbuilt, hrun, ?_⟩
  exact (Nat.le_add_left _ _).trans (hhits (Nat.le_refl 4)).1

end Simulator

end PseudoLru
