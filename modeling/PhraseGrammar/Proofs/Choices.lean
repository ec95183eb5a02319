import PhraseGrammar.Proofs.Steps

/-!
# The choices of a run

A run makes a choice whenever it opens a bracket.  How many choices it makes is bounded by any
measure of the pending work that pays for them: no step adds to the measure, and a step that makes a
choice takes from it.  Such a measure bounds the number of drafts as well, since a choice brings at
most five tasks and every other step takes one away.

## Main statements

- `choose_of_choice?`: choices are made for nonterminals, within the limit on nesting.
- `PaysFor.choiceCount_le`: a run makes no more choices than its work pays for.
- `PaysFor.length_drafts_le`: nor does it go through many more drafts.
-/

namespace PhraseGrammar.Generator

variable {gen : Generator} {draft next : Draft}

/-! ## Choices -/

/-- The choice that the next step makes, if it makes one, and what it leaves of the supply. -/
def choice? (gen : Generator) (draft : Draft) :
    Option (Except Random.Fault Production × Random.Supply) :=
  match draft.pending with
  | .expand symbol :: _ =>
    if ne : gen.grammar.productionsFor symbol ≠ [] then
      if gen.exceededLimit? (draft.depth + 1) = none then
        some (gen.choose (gen.grammar.productionsFor symbol) ne draft.supply)
      else none
    else none
  | _ => none

/-- How many choices a run makes. -/
def choiceCount (gen : Generator) (draft : Draft) : Nat :=
  (gen.drafts draft).countP fun d => (gen.choice? d).isSome

/-- Every choice that comes up in a run draws a production. -/
def ChoicesMade (gen : Generator) (draft : Draft) : Prop :=
  ∀ d ∈ gen.drafts draft, ∀ drawn left, gen.choice? d = some (drawn, left) →
    ∃ p, drawn = .ok p

/-- A nonterminal within the limit is a choice. -/
theorem choice?_expand {symbol : String} {rest : List Task} {depth : Nat} {written : String}
    {supply : Random.Supply} (ne : gen.grammar.productionsFor symbol ≠ [])
    (hlimit : gen.exceededLimit? (depth + 1) = none) :
    gen.choice? ⟨.expand symbol :: rest, depth, written, supply⟩ =
      some (gen.choose (gen.grammar.productionsFor symbol) ne supply) := by
  simp only [choice?, dif_pos ne, if_pos hlimit]

/-- A choice is made for a nonterminal whose bracket does not nest too deep. -/
theorem choose_of_choice? {drawn : Except Random.Fault Production × Random.Supply}
    (h : gen.choice? draft = some drawn) :
    ∃ symbol rest, ∃ ne : gen.grammar.productionsFor symbol ≠ [],
      draft.pending = .expand symbol :: rest ∧ gen.exceededLimit? (draft.depth + 1) = none ∧
        drawn = gen.choose (gen.grammar.productionsFor symbol) ne draft.supply := by
  unfold choice? at h
  split at h
  · next symbol rest hpending =>
    split at h
    · next ne =>
      split at h
      · next hlimit =>
        cases h
        exact ⟨symbol, rest, ne, hpending, hlimit, rfl⟩
      · cases h
    · cases h
  · cases h

/-! ## Work that pays for choices -/

/-- A right-hand side brings at most two symbols with a space each. -/
theorem length_rightSideTasks_le (g : Grammar) (rhs : RightSide) :
    (rightSideTasks g rhs).length ≤ 4 := by
  have hsymbol : ∀ symbol, (symbolTasks g symbol).length ≤ 2 := by
    intro symbol
    unfold symbolTasks
    split <;> simp
  cases rhs with
  | word w =>
    have hw := hsymbol w
    simp only [rightSideTasks, RightSide.symbols, List.flatMap_cons, List.flatMap_nil,
      List.append_nil]
    omega
  | pair a b =>
    have ha := hsymbol a
    have hb := hsymbol b
    simp only [rightSideTasks, RightSide.symbols, List.flatMap_cons, List.flatMap_nil,
      List.append_nil, List.length_append]
    omega

/-- From drafts with an invariant on, a measure of the pending work pays for choices: there is work
where a choice is made, no step adds to the work, and a step that makes a choice takes from it. -/
structure PaysFor (gen : Generator) (work : List Task → Nat) (inv : Draft → Prop) : Prop where
  keeps : ∀ {draft next}, gen.Advances draft next → inv draft → inv next
  step : ∀ {draft next}, gen.Advances draft next → inv draft →
    work next.pending + (if (gen.choice? draft).isSome then 1 else 0) ≤ work draft.pending
  pos : ∀ {draft}, inv draft → (gen.choice? draft).isSome → 0 < work draft.pending

namespace PaysFor

variable {work : List Task → Nat} {inv : Draft → Prop} (pays : gen.PaysFor work inv)
include pays

/-- A run makes no more choices than the work pays for that is pending at its beginning. -/
theorem choiceCount_le (h : inv draft) : gen.choiceCount draft ≤ work draft.pending := by
  induction draft using gen.run_induction with
  -- the last draft may still make a choice that fails, and there is work for it
  | ends hends =>
    rw [choiceCount, hends.drafts_eq, List.countP_singleton]
    split
    · next hchoice => exact pays.pos h hchoice
    · exact Nat.zero_le _
  -- a choice is counted here exactly if the step takes from the work
  | advances hadvances ih =>
    have hrest := ih (pays.keeps hadvances h)
    have hstep := pays.step hadvances h
    rw [choiceCount, hadvances.drafts_eq, List.countP_cons]
    rw [choiceCount] at hrest
    omega

/-- Each step takes a task, and a choice brings no more tasks than five for each unit of work. -/
theorem length_pending_lt (hadvances : gen.Advances draft next) (h : inv draft) :
    next.pending.length + 5 * work next.pending <
      draft.pending.length + 5 * work draft.pending := by
  have hstep := pays.step hadvances h
  cases hadvances with
  | space => simp only [List.length_cons] at *; omega
  | close => simp only [List.length_cons] at *; omega
  | terminal => simp only [List.length_cons] at *; omega
  -- five for the unit of work that is gone; four tasks and the closing of the bracket for the
  -- symbol
  | @nonterminal symbol rest _ _ _ _ p ne hlimit hchoose =>
    have hlength := length_rightSideTasks_le gen.grammar p.rhs
    rw [choice?_expand ne hlimit] at hstep
    simp only [Option.isSome_some, if_true, List.length_append, List.length_cons] at *
    omega

/-- A run goes through a bounded number of drafts, as each has less pending than the one before. -/
theorem length_drafts_le (h : inv draft) :
    (gen.drafts draft).length ≤ draft.pending.length + 5 * work draft.pending + 1 := by
  induction draft using gen.run_induction with
  | ends hends =>
    rw [hends.drafts_eq]
    exact Nat.le_add_left 1 _
  | advances hadvances ih =>
    have hrest := ih (pays.keeps hadvances h)
    have hstep := pays.length_pending_lt hadvances h
    rw [hadvances.drafts_eq, List.length_cons]
    omega

end PaysFor

end PhraseGrammar.Generator
