import PseudoLru.Event
import PseudoLru.OutOfRange

/-!
# Accesses and runs

An access to a set or to a whole cache has an outcome, an event that reports
it, and the state it leaves.  A run is a sequence of accesses, each to the
state left by the one before; it fails with the first access that fails.
-/

namespace PseudoLru

/-- A hit, or a miss with the tag that it displaced. -/
inductive AccessKind where
  | hit
  | miss (evicted : Option UInt64)
  deriving DecidableEq, Repr

/-- What one access did: the way that hit or was filled, and the replacement
state of its set before and after. -/
structure Outcome where
  kind : AccessKind
  way : Nat
  setIndex : Nat
  stateBefore : UInt64
  stateAfter : UInt64
  deriving DecidableEq, Repr

namespace Outcome

def isHit (outcome : Outcome) : Bool := outcome.kind matches .hit

def evicted? (outcome : Outcome) : Option UInt64 :=
  match outcome.kind with
  | .hit => none
  | .miss evicted => evicted

end Outcome

structure Access (σ : Type) where
  outcome : Outcome
  event : Event
  after : σ

structure Run (σ : Type) where
  outcomes : List Outcome
  events : List Event
  after : σ

namespace Run

def start (s : σ) : Run σ := ⟨[], [], s⟩

def cons (access : Access σ) (run : Run σ) : Run σ :=
  ⟨access.outcome :: run.outcomes, access.event :: run.events, run.after⟩

def ofRequests (step : σ → α → Except OutOfRange (Access σ)) :
    σ → List α → Except OutOfRange (Run σ)
  | s, [] => .ok (start s)
  | s, request :: rest => do
      let access ← step s request
      return cons access (← ofRequests step access.after rest)

def last (step : σ → α → Except OutOfRange (Access σ)) (s : σ) (requests : List α) :
    Except OutOfRange σ :=
  requests.foldlM (fun s request => (step s request).map (·.after)) s

theorem last_eq_map_ofRequests (step : σ → α → Except OutOfRange (Access σ))
    (s : σ) (requests : List α) :
    last step s requests = (ofRequests step s requests).map (·.after) := by
  induction requests generalizing s with
  | nil => rfl
  | cons request rest ih =>
      simp only [last, List.foldlM_cons, ofRequests] at ih ⊢
      cases step s request with
      | error fault => rfl
      | ok access =>
          change List.foldlM _ access.after rest = _
          rw [ih access.after]
          cases h : ofRequests step access.after rest <;>
            simp [h, Except.map, bind, Except.bind, pure, Except.pure, cons]

end Run

end PseudoLru
