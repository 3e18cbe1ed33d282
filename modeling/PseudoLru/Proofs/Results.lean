/-!
# Results of steps

Two steps in turn have a result exactly if the first one has a result from which
the second one has this result.  So a result is taken apart from the front, one
step at a time, and a step that fails needs no case of its own.
-/

namespace PseudoLru

variable {ε α β : Type} {x : Except ε α}

theorem bind_eq_ok_iff {f : α → Except ε β} {b : β} :
    x >>= f = .ok b ↔ ∃ a, x = .ok a ∧ f a = .ok b := by
  cases x <;> simp [Bind.bind, Except.bind]

theorem map_eq_ok_iff {f : α → β} {b : β} : x.map f = .ok b ↔ ∃ a, x = .ok a ∧ f a = b := by
  cases x <;> simp [Except.map]

theorem bind_congr_ok {f g : α → Except ε β} (h : ∀ a, x = .ok a → f a = g a) :
    x >>= f = x >>= g := by
  cases x with
  | error fault => rfl
  | ok a => exact h a rfl

end PseudoLru
