import Mathlib.Data.List.TakeWhile

/-!
# Runs at the front of a list

A *run* is the longest front of a list whose elements all have a property.  Texts are cut at the
ends of runs: of digits, of characters that are not blank, of characters that no bracketed text
uses.  A run is known by what follows it, which is nothing or an element without the property.

## Main statements

- `takeWhile_run`, `dropWhile_run`: a run and what follows it are what the two functions give.
- `run_unique`: a list is cut at the end of its run in one way only.
-/

namespace PhraseGrammar.Text

variable {α : Type} {p : α → Bool} {run rest : List α}

/-- Nothing at the front of the list goes on with a run. -/
def EndsRun (p : α → Bool) (rest : List α) : Prop :=
  ∀ c ∈ rest.head?, p c = false

@[simp] theorem endsRun_nil : EndsRun p [] := by simp [EndsRun]

@[simp] theorem endsRun_cons {c : α} : EndsRun p (c :: rest) ↔ p c = false := by simp [EndsRun]

theorem takeWhile_of_endsRun (h : EndsRun p rest) : rest.takeWhile p = [] := by
  cases rest with
  | nil => rfl
  | cons c rest => simp [endsRun_cons.mp h]

theorem dropWhile_of_endsRun (h : EndsRun p rest) : rest.dropWhile p = rest := by
  cases rest with
  | nil => rfl
  | cons c rest => simp [endsRun_cons.mp h]

theorem endsRun_dropWhile (xs : List α) : EndsRun p (xs.dropWhile p) := by
  -- the list is cut at the first element without the property
  induction xs with
  | nil => simp
  | cons x xs ih =>
    cases h : p x with
    | true => simpa [h] using ih
    | false => simp [h]

/-- A run is what is taken from the front of a list. -/
theorem takeWhile_run (hrun : ∀ c ∈ run, p c = true) (hrest : EndsRun p rest) :
    (run ++ rest).takeWhile p = run := by
  rw [List.takeWhile_append_of_pos hrun, takeWhile_of_endsRun hrest, List.append_nil]

/-- What ends a run is what is left then. -/
theorem dropWhile_run (hrun : ∀ c ∈ run, p c = true) (hrest : EndsRun p rest) :
    (run ++ rest).dropWhile p = rest := by
  rw [List.dropWhile_append_of_pos hrun, dropWhile_of_endsRun hrest]

/-- A list is cut at the end of its run in one way only. -/
theorem run_unique {run' rest' : List α} (hrun : ∀ c ∈ run, p c = true)
    (hrest : EndsRun p rest) (hrun' : ∀ c ∈ run', p c = true) (hrest' : EndsRun p rest')
    (h : run ++ rest = run' ++ rest') : run = run' ∧ rest = rest' := by
  have htake := congrArg (List.takeWhile p) h
  have hdrop := congrArg (List.dropWhile p) h
  rw [takeWhile_run hrun hrest, takeWhile_run hrun' hrest'] at htake
  rw [dropWhile_run hrun hrest, dropWhile_run hrun' hrest'] at hdrop
  exact ⟨htake, hdrop⟩

/-- Every list is a run and something that ends it. -/
theorem exists_run (p : α → Bool) (xs : List α) :
    ∃ run rest, xs = run ++ rest ∧ (∀ c ∈ run, p c = true) ∧ EndsRun p rest := by
  refine ⟨xs.takeWhile p, xs.dropWhile p, ?_, ?_, ?_⟩
  · exact List.takeWhile_append_dropWhile.symm
  · exact fun c hc => List.mem_takeWhile_imp hc
  · exact endsRun_dropWhile xs

end PhraseGrammar.Text
