/-!
# Results that may be errors

When one computation follows another, the whole gives a value exactly if both do, and an error
exactly if one of them does.  The readers of a grammar's text and the runs of a generator are
chains of such computations, and these laws take them apart.
-/

namespace Except

variable {ε α β : Type}

/-- Two computations in a row give a value where the first does and the second does after it. -/
theorem bind_eq_ok {a : Except ε α} {f : α → Except ε β} {b : β} :
    (a >>= f) = .ok b ↔ ∃ v, a = .ok v ∧ f v = .ok b := by
  cases a <;> simp [bind, Except.bind]

/-- Two computations in a row fail where the first does, or the second after it. -/
theorem bind_eq_error {a : Except ε α} {f : α → Except ε β} {e : ε} :
    (a >>= f) = .error e ↔ a = .error e ∨ ∃ v, a = .ok v ∧ f v = .error e := by
  cases a <;> simp [bind, Except.bind]

/-- A value that was mapped comes from a value. -/
theorem map_eq_ok {a : Except ε α} {f : α → β} {b : β} :
    a.map f = .ok b ↔ ∃ v, a = .ok v ∧ f v = b := by
  cases a <;> simp [Except.map]

/-- Mapping values leaves the errors as they are. -/
theorem map_eq_error {a : Except ε α} {f : α → β} {e : ε} :
    a.map f = .error e ↔ a = .error e := by
  cases a <;> simp [Except.map]

end Except
