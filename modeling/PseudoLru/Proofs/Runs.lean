import Mathlib.Data.List.Induction
import PseudoLru.Access
import PseudoLru.Proofs.Results

/-!
# Invariants of runs

A run that only ever takes successful steps succeeds.  An invariant may speak
of the requests served so far, of their outcomes and of the state reached; if
every step from a state that has it succeeds and keeps it, so does every run.

A run that succeeds may be cut between any two of its requests.  So a fact
about all its accesses is a fact about one access after a shorter run, and an
invariant may be proved with that shorter run at hand.
-/

namespace PseudoLru

theorem getElem?_append_singleton_eq_some_iff {α : Type} (past : List α) (last x : α) (k : Nat) :
    (past ++ [last])[k]? = some x ↔ past[k]? = some x ∨ (k = past.length ∧ last = x) := by
  rw [List.getElem?_append]
  split
  next hlt =>
    constructor
    · exact Or.inl
    · rintro (hpast | ⟨rfl, -⟩)
      · exact hpast
      · exact absurd hlt (Nat.lt_irrefl _)
  next hge =>
    rw [List.getElem?_eq_none (Nat.le_of_not_lt hge), List.getElem?_singleton]
    by_cases hk : k = past.length
    · simp [hk]
    · simp [hk, show k - past.length ≠ 0 by omega]

namespace Run

variable {σ α : Type} {step : σ → α → Except OutOfRange (Access σ)}

theorem ofRequests_cons_of_ok {s : σ} {request : α} {access : Access σ} {rest : List α}
    {run : Run σ} (hstep : step s request = .ok access)
    (hrun : ofRequests step access.after rest = .ok run) :
    ofRequests step s (request :: rest) = .ok (cons access run) := by
  rw [ofRequests, hstep]
  change (ofRequests step access.after rest).bind (fun run => .ok (cons access run)) = _
  rw [hrun]
  rfl

theorem exists_ofRequests_of_invariant
    (Inv : List α → List Outcome → σ → Prop)
    (hstep : ∀ past outcomes s request, Inv past outcomes s →
      ∃ access, step s request = .ok access ∧
        Inv (past ++ [request]) (outcomes ++ [access.outcome]) access.after)
    {past : List α} {outcomes : List Outcome} {s : σ} (hinv : Inv past outcomes s)
    (requests : List α) :
    ∃ run, ofRequests step s requests = .ok run ∧
      Inv (past ++ requests) (outcomes ++ run.outcomes) run.after := by
  induction requests generalizing past outcomes s with
  | nil =>
      refine ⟨start s, rfl, ?_⟩
      simpa [start] using hinv
  | cons request rest ih =>
      obtain ⟨access, haccess, hnext⟩ := hstep past outcomes s request hinv
      obtain ⟨run, hrun, hlast⟩ := ih hnext
      refine ⟨cons access run, ofRequests_cons_of_ok haccess hrun, ?_⟩
      simpa [cons] using hlast

/-! ## Cutting a run -/

theorem exists_of_ofRequests_cons {s : σ} {request : α} {rest : List α} {run : Run σ}
    (hrun : ofRequests step s (request :: rest) = .ok run) :
    ∃ access after, step s request = .ok access ∧
      ofRequests step access.after rest = .ok after ∧ run = cons access after := by
  rw [ofRequests, bind_eq_ok_iff] at hrun
  obtain ⟨access, hstep, hbehind⟩ := hrun
  obtain ⟨after, hrest, hafter⟩ := bind_eq_ok_iff.mp hbehind
  exact ⟨access, after, hstep, hrest, (Except.ok.inj hafter).symm⟩

theorem length_outcomes_of_ok {s : σ} {requests : List α} {run : Run σ}
    (hrun : ofRequests step s requests = .ok run) :
    run.outcomes.length = requests.length := by
  induction requests generalizing s run with
  | nil =>
      obtain rfl := Except.ok.inj hrun
      rfl
  | cons request rest ih =>
      obtain ⟨access, after, -, hrest, rfl⟩ := exists_of_ofRequests_cons hrun
      simp [cons, ih hrest]

def append (first second : Run σ) : Run σ :=
  ⟨first.outcomes ++ second.outcomes, first.events ++ second.events, second.after⟩

theorem ofRequests_append_of_ok {s : σ} {past rest : List α} {before after : Run σ}
    (hbefore : ofRequests step s past = .ok before)
    (hafter : ofRequests step before.after rest = .ok after) :
    ofRequests step s (past ++ rest) = .ok (append before after) := by
  induction past generalizing s before with
  | nil =>
      obtain rfl := Except.ok.inj hbefore
      exact hafter
  | cons request past ih =>
      obtain ⟨access, tail, hstep, htail, rfl⟩ := exists_of_ofRequests_cons hbefore
      exact ofRequests_cons_of_ok hstep (ih htail hafter)

theorem exists_of_ofRequests_append {s : σ} {past rest : List α} {run : Run σ}
    (hrun : ofRequests step s (past ++ rest) = .ok run) :
    ∃ before after, ofRequests step s past = .ok before ∧
      ofRequests step before.after rest = .ok after ∧ run = append before after := by
  induction past generalizing s run with
  | nil => exact ⟨start s, run, rfl, hrun, rfl⟩
  | cons request past ih =>
      obtain ⟨access, tail, hstep, htail, rfl⟩ := exists_of_ofRequests_cons hrun
      obtain ⟨before, after, hbefore, hafter, rfl⟩ := ih htail
      exact ⟨cons access before, after, ofRequests_cons_of_ok hstep hbefore, hafter, rfl⟩

/-- The state in which a request of a run is served, and the access. -/
theorem exists_midway {s : σ} {past rest : List α} {request : α} {run : Run σ}
    (hrun : ofRequests step s (past ++ request :: rest) = .ok run) :
    ∃ before access, ofRequests step s past = .ok before ∧
      step before.after request = .ok access ∧
      run.outcomes[past.length]? = some access.outcome := by
  obtain ⟨before, after, hbefore, hafter, rfl⟩ := exists_of_ofRequests_append hrun
  obtain ⟨access, tail, hstep, -, rfl⟩ := exists_of_ofRequests_cons hafter
  refine ⟨before, access, hbefore, hstep, ?_⟩
  rw [← length_outcomes_of_ok hbefore]
  simp [append, cons]

theorem invariant_of_ok {s : σ} (Inv : List α → List Outcome → σ → Prop) (hstart : Inv [] [] s)
    (hstep : ∀ past before request access, ofRequests step s past = .ok before →
      step before.after request = .ok access → Inv past before.outcomes before.after →
        Inv (past ++ [request]) (before.outcomes ++ [access.outcome]) access.after)
    {requests : List α} {run : Run σ} (hrun : ofRequests step s requests = .ok run) :
    Inv requests run.outcomes run.after := by
  induction requests using List.reverseRecOn generalizing run with
  | nil =>
      obtain rfl := Except.ok.inj hrun
      exact hstart
  | append_singleton past request ih =>
      obtain ⟨before, after, hbefore, hafter, rfl⟩ := exists_of_ofRequests_append hrun
      obtain ⟨access, tail, haccess, htail, rfl⟩ := exists_of_ofRequests_cons hafter
      obtain rfl := Except.ok.inj htail
      exact hstep past before request access hbefore haccess (ih hbefore)

end Run

end PseudoLru
