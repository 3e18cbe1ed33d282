import PseudoLru.Proofs.MatMulHits

/-!
# The log of a run

Every access of a run is logged by one event, which shows its outcome.  The
events of one set are linked: each access begins in the state in which the one
before it ended.  So the log alone tells how the final state of every set came
about, and the counts of its events are the tally.
-/

namespace PseudoLru

namespace Event

def isHit (event : Event) : Bool := event matches .hit ..

def isMiss (event : Event) : Bool := event matches .miss ..

/-- The states before and after the access, if the event reports one to the
set of this number. -/
def change? (index : Nat) : Event → Option (UInt64 × UInt64)
  | .hit set _ _ before _ after => if set = index then some (before, after) else none
  | .miss set _ _ _ before after => if set = index then some (before, after) else none
  | _ => none

def changes (index : Nat) (log : List Event) : List (UInt64 × UInt64) :=
  log.filterMap (change? index)

/-- A word in hexadecimal digits behind `0x`. -/
def shown (w : UInt64) : String := String.ofList ('0' :: 'x' :: Nat.toDigits 16 w.toNat)

theorem shown_eq_wordText : shown = wordText := by
  funext w
  rw [← String.toList_inj, wordText, Text.markedHex, Text.hex]
  simp only [shown, String.toList_append, String.toList_ofList]
  rfl

/-- The event shows an access of this tag with this outcome.  In between, a hit
also shows the state with the bits on the path of its way cleared. -/
structure Reports (e : Encoding) (tag : UInt64) (outcome : Outcome) (event : Event) : Prop where
  component : event.component = .set
  severity : event.severity = .trace
  isHit_eq : event.isHit = outcome.isHit
  isMiss_eq : event.isMiss = !outcome.isHit
  change?_eq : ∀ index, event.change? index =
    if outcome.setIndex = index then some (outcome.stateBefore, outcome.stateAfter) else none
  fields_eq : event.fields =
    [("set", toString outcome.setIndex), ("way", toString outcome.way)] ++
      if outcome.isHit then []
      else
        let evicted? := outcome.evicted?.map fun evicted => s!"Some({evicted.toNat})"
        [("evicted", evicted?.getD "None")]
  message_of_hit : outcome.isHit = true → ∃ p, e.pattern outcome.way = .ok p ∧
    let before := shown outcome.stateBefore
    let cleared := shown (outcome.stateBefore &&& ~~~p.path)
    let after := shown outcome.stateAfter
    event.message = s!"HIT: tag {shown tag} state {before} -> {cleared} -> {after}"
  message_of_miss : outcome.isHit = false →
    let before := shown outcome.stateBefore
    let after := shown outcome.stateAfter
    event.message = s!"MISS: tag {shown tag} state {before} -> {after}"

theorem component_of_reports {e : Encoding} {tagOf : UInt64 → UInt64}
    {served : List (UInt64 × Outcome)} {events : List Event}
    (hreports : List.Forall₂ (fun s event => event.Reports e (tagOf s.1) s.2) served events) :
    ∀ event ∈ events, event.component = .set := by
  induction hreports with
  | nil => simp
  | cons hfirst _ ih => exact List.forall_mem_cons.mpr ⟨hfirst.component, ih⟩

theorem component_of_isHit {event : Event} (hhit : event.isHit = true) :
    event.component = .set := by
  cases event with
  | hit => rfl
  | _ => exact Bool.noConfusion hhit

theorem component_of_isMiss {event : Event} (hmiss : event.isMiss = true) :
    event.component = .set := by
  cases event with
  | miss => rfl
  | _ => exact Bool.noConfusion hmiss

end Event

theorem CacheSet.Accesses.reports {set : CacheSet} {e : Encoding} {policy : VictimPolicy}
    {tag : UInt64} {access : Access CacheSet} (haccess : set.Accesses e policy tag access) :
    access.event.Reports e tag access.outcome := by
  cases haccess with
  | @hit way p hpattern hprobe =>
      have hok : e.pattern way = .ok p := by
        rw [Encoding.pattern, OutOfRange.lookup, hpattern]
      exact {
        component := rfl
        severity := rfl
        isHit_eq := rfl
        isMiss_eq := rfl
        change?_eq := fun _ => rfl
        fields_eq := rfl
        message_of_hit := by
          rw [Event.shown_eq_wordText]
          exact fun _ => ⟨p, hok, rfl⟩
        message_of_miss := fun hmiss => Bool.noConfusion hmiss }
  | @miss way p line hpattern hline hprobe hfills =>
      exact {
        component := rfl
        severity := rfl
        isHit_eq := rfl
        isMiss_eq := rfl
        change?_eq := fun _ => rfl
        fields_eq := by cases line.resident? <;> rfl
        message_of_hit := fun hhit => Bool.noConfusion hhit
        message_of_miss := by
          rw [Event.shown_eq_wordText]
          exact fun _ => rfl }

namespace Cache

section Runs

variable {cache : Cache} {addresses : List UInt64} {run : Run Cache}

/-- Every access is logged by one event, in the order of the accesses. -/
theorem WellFormed.reports_events (hwell : cache.WellFormed)
    (hrun : cache.replay addresses = .ok run) :
    List.Forall₂
      (fun served event => event.Reports cache.encoding (cache.tagOf served.1) served.2)
      (addresses.zip run.outcomes) run.events := by
  induction addresses generalizing cache run with
  | nil =>
      obtain rfl := Except.ok.inj hrun
      exact .nil
  | cons address rest ih =>
      obtain ⟨set, inSet, after, -, -, haccess, hnext, hrest, rfl⟩ :=
        hwell.exists_of_replay_cons hrun
      have htail := ih hnext hrest
      exact .cons haccess.reports htail

theorem WellFormed.changes_linked (hwell : cache.WellFormed)
    (hrun : cache.replay addresses = .ok run) {index : Nat} {first last : CacheSet}
    (hfirst : cache.sets[index]? = some first) (hlast : run.after.sets[index]? = some last) :
    (Event.changes index run.events).map (·.1) ++ [last.state] =
      first.state :: (Event.changes index run.events).map (·.2) := by
  induction addresses generalizing cache first run with
  | nil =>
      obtain rfl := Except.ok.inj hrun
      obtain rfl := Option.some.inj (hfirst.symm.trans hlast)
      rfl
  | cons address rest ih =>
      obtain ⟨set, inSet, after, hset, -, haccess, hnext, hrest, rfl⟩ :=
        hwell.exists_of_replay_cons hrun
      have hchange := haccess.reports.change?_eq index
      rw [haccess.stateBefore_eq, haccess.stateAfter_eq, haccess.setIndex_eq,
        hwell.index_eq _ _ hset] at hchange
      by_cases hindex : cache.indexOf address = index
      · -- The first event is one of this set, and the others start where it ends.
        subst hindex
        rw [hset] at hfirst
        obtain rfl := Option.some.inj hfirst
        have htail := ih hnext hrest (getElem?_sets_served_self hset) hlast
        rw [if_pos rfl] at hchange
        simp only [Run.cons, Event.changes, List.filterMap_cons_some hchange, List.map_cons,
          List.cons_append] at htail ⊢
        rw [htail]
      · have hkept : (cache.served (cache.indexOf address) inSet).sets[index]? = some first := by
          rw [getElem?_sets_served_of_ne hindex, hfirst]
        rw [if_neg hindex] at hchange
        have htail := ih hnext hrest hkept hlast
        rwa [Run.cons, Event.changes, List.filterMap_cons_none hchange]

theorem WellFormed.tally_eq_counts (hwell : cache.WellFormed)
    (hrun : cache.replay addresses = .ok run) :
    run.after.tally.hits = cache.tally.hits + run.events.countP Event.isHit ∧
      run.after.tally.misses = cache.tally.misses + run.events.countP Event.isMiss := by
  induction addresses generalizing cache run with
  | nil =>
      obtain rfl := Except.ok.inj hrun
      exact ⟨rfl, rfl⟩
  | cons address rest ih =>
      obtain ⟨set, inSet, after, -, -, haccess, hnext, hrest, rfl⟩ :=
        hwell.exists_of_replay_cons hrun
      obtain ⟨hhits, hmisses⟩ := ih hnext hrest
      rw [Run.cons, List.countP_cons, List.countP_cons, haccess.reports.isHit_eq,
        haccess.reports.isMiss_eq]
      dsimp only
      rw [hhits, hmisses, Cache.served]
      cases inSet.outcome.isHit <;> simp [Tally.record, Tally.hit, Tally.miss] <;> omega

end Runs

end Cache

namespace Simulator

/-- All events of a simulator that is built and then makes this run. -/
def log (sim : Simulator) (run : Run Simulator) : List Event :=
  sim.cache.buildEvents ++ run.events

/-- The run of a simulator is that of its cache, closed by the tally. -/
def closed (sim : Simulator) (run : Run Cache) : Run Simulator where
  outcomes := run.outcomes
  events := run.events ++ [.runComplete run.after.tally]
  after := { sim with cache := run.after }

theorem replay_of_cache {sim : Simulator} {addresses : List UInt64} {run : Run Cache}
    (hrun : sim.cache.replay addresses = .ok run) :
    sim.replay addresses = .ok (sim.closed run) := by
  rw [replay, hrun]
  rfl

section Closed

variable (sim : Simulator) (run : Run Cache)

theorem filter_log_closed (hset : ∀ event ∈ run.events, event.component = .set) :
    (sim.log (sim.closed run)).filter (·.component = .set) = run.events := by
  have hkept : run.events.filter (·.component = .set) = run.events := by
    rw [List.filter_eq_self]
    exact fun event hevent => decide_eq_true (hset event hevent)
  rw [log, closed, List.filter_append, List.filter_append, hkept]
  exact List.append_nil _

theorem changes_log_closed (index : Nat) :
    Event.changes index (sim.log (sim.closed run)) = Event.changes index run.events := by
  rw [log, closed, Event.changes, List.filterMap_append, List.filterMap_append]
  exact List.append_nil _

theorem countP_log_closed (hset : ∀ event ∈ run.events, event.component = .set)
    {p : Event → Bool} (hp : ∀ event, p event = true → event.component = .set) :
    (sim.log (sim.closed run)).countP p = run.events.countP p := by
  rw [← filter_log_closed sim run hset, List.countP_filter]
  apply List.countP_congr
  intro event _
  simpa using hp event

end Closed

/-- The log of a run from a fresh simulator shows every access by one event, in
order.  For each set, the states before its accesses and then its final state
are the state zero and then the states after its accesses: the first access
begins in state zero, each other one where the one before it ended, and the
last one ends in the final state.  At its end the log counts the hits and
misses that it shows. -/
theorem log_reproduces_run (config : Config) (hvalid : config.cache.validate = .ok ())
    (addresses : List UInt64) :
    ∃ (sim : Simulator) (run : Run Simulator),
      ofConfig config = .ok sim ∧ sim.replay addresses = .ok run ∧
      sim.run addresses = .ok run.after ∧
      run.outcomes.length = addresses.length ∧
      List.Forall₂
        (fun served event =>
          event.Reports sim.cache.encoding (sim.cache.tagOf served.1) served.2)
        (addresses.zip run.outcomes) ((sim.log run).filter (·.component = .set)) ∧
      (∀ index < config.cache.sets, ∃ set, run.after.cache.sets[index]? = some set ∧
        (Event.changes index (sim.log run)).map (·.1) ++ [set.state] =
          0 :: (Event.changes index (sim.log run)).map (·.2)) ∧
      ∃ closing, (sim.log run).getLast? = some closing ∧
        closing.severity = .info ∧ closing.message = "run complete" ∧
        closing.fields.lookup "hits" = some (toString ((sim.log run).countP Event.isHit)) ∧
        closing.fields.lookup "misses" = some (toString ((sim.log run).countP Event.isMiss)) := by
  obtain ⟨cache, hcache, hfresh⟩ := Cache.exists_ofGeometry hvalid
  have hsim : ofConfig config = .ok ⟨cache, config⟩ := by
    rw [ofConfig, hcache]
    rfl
  have hwell := hfresh.wellFormed hvalid
  obtain ⟨run, hrun⟩ := hwell.exists_run addresses
  have hreplay : Simulator.replay ⟨cache, config⟩ addresses = .ok (closed ⟨cache, config⟩ run) :=
    replay_of_cache hrun
  have hreports := hwell.reports_events hrun
  have hset := Event.component_of_reports hreports
  obtain ⟨hhits, hmisses⟩ := hwell.tally_eq_counts hrun
  rw [hfresh.tally_eq, Nat.zero_add] at hhits hmisses
  refine ⟨_, _, hsim, hreplay, ?_, (hwell.counts hrun).length_eq, ?_, ?_,
    .runComplete run.after.tally, ?_, rfl, rfl, ?_, ?_⟩
  · rw [run_eq_map_replay, hreplay]
    rfl
  · rw [filter_log_closed _ _ hset]
    exact hreports
  · intro index hindex
    have hfirst := hfresh.getElem?_sets hindex
    rw [← hfresh.size_sets, (hwell.agrees_after hrun).size] at hindex
    have hlast := Array.getElem?_eq_getElem hindex
    refine ⟨_, hlast, ?_⟩
    rw [changes_log_closed]
    exact hwell.changes_linked hrun hfirst hlast
  · rw [log, closed, ← List.append_assoc]
    exact List.getLast?_concat
  · rw [countP_log_closed _ _ hset (fun _ => Event.component_of_isHit), ← hhits]
    rfl
  · rw [countP_log_closed _ _ hset (fun _ => Event.component_of_isMiss), ← hmisses]
    rfl

/-- Two sets of two ways.  The line at 0 is fetched, hit, displaced and fetched
again. -/
theorem six_accesses_logged :
    ({ ways := 2, sets := 2 } : Geometry).validate = .ok () ∧
      ∃ (sim : Simulator) (run : Run Simulator) (first : CacheSet),
        ofConfig { cache := { ways := 2, sets := 2 } } = .ok sim ∧
        sim.replay [0, 64, 0, 128, 256, 0] = .ok run ∧
        ((sim.log run).filter (·.component = .set)).length = 6 ∧
        run.after.cache.sets[0]? = some first ∧
        (Event.changes 0 (sim.log run)).map (·.1) ++ [first.state] =
          0 :: (Event.changes 0 (sim.log run)).map (·.2) := by
  refine ⟨rfl, ?_⟩
  obtain ⟨sim, run, hsim, hrun, -, hlength, hreports, hlinked, -⟩ :=
    log_reproduces_run { cache := { ways := 2, sets := 2 } } rfl [0, 64, 0, 128, 256, 0]
  obtain ⟨first, hfirst, hchanges⟩ := hlinked 0 (by decide)
  refine ⟨sim, run, first, hsim, hrun, ?_, hfirst, hchanges⟩
  rw [← hreports.length_eq, List.length_zip, hlength]
  rfl

example : ((ofConfig { cache := { ways := 2, sets := 2 } }).toOption.bind fun sim =>
    (sim.replay [0, 64, 0, 128, 256, 0]).toOption.map fun run =>
      run.events.map Event.message) = some [
    "MISS: tag 0x0 state 0x0 -> 0x1",
    "MISS: tag 0x0 state 0x0 -> 0x1",
    "HIT: tag 0x0 state 0x1 -> 0x0 -> 0x1",
    "MISS: tag 0x1 state 0x1 -> 0x0",
    "MISS: tag 0x2 state 0x0 -> 0x1",
    "MISS: tag 0x0 state 0x1 -> 0x0",
    "run complete"] := by
  rfl

end Simulator

end PseudoLru
