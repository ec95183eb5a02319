import Mathlib.Logic.Relation
import PhraseGrammar.Generator.Drafting
import PhraseGrammar.Proofs.Draws
import PhraseGrammar.Proofs.Lookup

/-!
# Steps of a generator

A generator works on a draft one task at a time.  This module says once what a step can do: it goes
on to another draft in one of four ways, `Advances`, or it is the last one for one of three reasons,
`Ends`.  What holds of whole runs is shown from these cases, by `run_induction` from the end of a
run, or by `Reaches.preserves` from its beginning.

## Main statements

- `step_eq_next_iff`, `step_eq_done_iff`: the steps, by what they do.
- `mem_drafts_iff`, `exists_ends_of_run`: the drafts of a run are those that are reached, and one of
  them is the last.
- `depth_eq_count_close`: the depth of a draft is the number of brackets it still has to close.
-/

namespace PhraseGrammar

/-! ## Choices -/

namespace Generator

/-- A bracket may be opened if it does not nest deeper than the limit, if there is one. -/
theorem exceededLimit?_eq_none {gen : Generator} {depth : Nat}
    (h : ∀ limit, gen.maxDepth = some limit → depth ≤ limit) :
    gen.exceededLimit? depth = none := by
  unfold exceededLimit?
  rw [Option.filter_eq_none_iff]
  intro limit hlimit
  have hle := h limit hlimit
  simpa using hle

theorem exceededLimit?_of_limit {gen : Generator} {limit : Nat} (hlimit : gen.maxDepth = some limit)
    (depth : Nat) : gen.exceededLimit? depth = if limit < depth then some limit else none := by
  simp [exceededLimit?, hlimit, Option.filter]

theorem le_of_exceededLimit?_eq_none {gen : Generator} {limit depth : Nat}
    (hlimit : gen.maxDepth = some limit) (h : gen.exceededLimit? depth = none) :
    depth ≤ limit := by
  rw [exceededLimit?_of_limit hlimit] at h
  by_contra hbeyond
  rw [if_pos (Nat.lt_of_not_le hbeyond)] at h
  cases h

theorem mem_of_choose {gen : Generator} {alternatives : List Production}
    {ne : alternatives ≠ []} {supply left : Random.Supply} {p : Production}
    (h : gen.choose alternatives ne supply = (.ok p, left)) : p ∈ alternatives := by
  have hdrawn := congrArg Prod.fst h
  -- in both ways to choose, what is drawn is an index
  unfold choose at hdrawn
  split at hdrawn
  · dsimp only at hdrawn
    cases hi : (Random.uniform alternatives.length (List.length_pos_iff.mpr ne) supply).1 with
    | error fault => rw [hi] at hdrawn; cases hdrawn
    | ok i => rw [hi] at hdrawn; cases hdrawn; exact List.get_mem _ _
  · dsimp only at hdrawn
    cases hi : (Random.weighted (alternatives.map Production.probability)
      (by simpa using List.length_pos_iff.mpr ne) supply).1 with
    | error fault => rw [hi] at hdrawn; cases hdrawn
    | ok i => rw [hi] at hdrawn; cases hdrawn; exact List.get_mem _ _

/-- A fair choice draws the production that a word stands for, if it accepts the word. -/
theorem choose_of_accepts {gen : Generator} (fair : gen.sampling = .uniform)
    {alternatives : List Production} (ne : alternatives ≠ []) {v : UInt64}
    (haccepts : Random.accepts alternatives.length v = true) (rest : Random.Supply) :
    gen.choose alternatives ne (v :: rest) =
      (.ok (alternatives.get
        (Random.share alternatives.length (List.length_pos_iff.mpr ne) v)), rest) := by
  unfold choose
  simp only [fair, Random.uniform, if_pos haccepts, Except.map]

/-! ## Single steps of a draft -/

variable {gen : Generator} {draft next : Draft}

/-- `Advances gen draft next`: one step takes a draft to the next one, by the task it does. -/
inductive Advances (gen : Generator) : Draft → Draft → Prop where
  | space {rest : List Task} {depth : Nat} {written : String} {supply : Random.Supply} :
      Advances gen ⟨.space :: rest, depth, written, supply⟩ ⟨rest, depth, written ++ " ", supply⟩
  | close {rest : List Task} {depth : Nat} {written : String} {supply : Random.Supply} :
      Advances gen ⟨.close :: rest, depth, written, supply⟩
        ⟨rest, depth - 1, written ++ ")", supply⟩
  | terminal {symbol : String} {rest : List Task} {depth : Nat} {written : String}
      {supply : Random.Supply} (h : gen.grammar.productionsFor symbol = []) :
      Advances gen ⟨.expand symbol :: rest, depth, written, supply⟩
        ⟨rest, depth, written ++ symbol, supply⟩
  | nonterminal {symbol : String} {rest : List Task} {depth : Nat} {written : String}
      {supply left : Random.Supply} {p : Production}
      (ne : gen.grammar.productionsFor symbol ≠ [])
      (hlimit : gen.exceededLimit? (depth + 1) = none)
      (hchoose : gen.choose (gen.grammar.productionsFor symbol) ne supply = (.ok p, left)) :
      Advances gen ⟨.expand symbol :: rest, depth, written, supply⟩
        ⟨rightSideTasks gen.grammar p.rhs ++ .close :: rest, depth + 1,
          written ++ " (" ++ symbol, left⟩

/-- `Ends gen draft result left`: there is no next draft.  The work is done, a bracket would nest
too deep, or a choice is not made. -/
inductive Ends (gen : Generator) :
    Draft → Except GenerateError String → Random.Supply → Prop where
  | done {depth : Nat} {written : String} {supply : Random.Supply} :
      Ends gen ⟨[], depth, written, supply⟩ (.ok written) supply
  | exceeded {symbol : String} {rest : List Task} {depth limit : Nat} {written : String}
      {supply : Random.Supply} (ne : gen.grammar.productionsFor symbol ≠ [])
      (hlimit : gen.exceededLimit? (depth + 1) = some limit) :
      Ends gen ⟨.expand symbol :: rest, depth, written, supply⟩
        (.error (.depthExceeded limit symbol)) supply
  | noChoice {symbol : String} {rest : List Task} {depth : Nat} {written : String}
      {supply left : Random.Supply} {fault : Random.Fault}
      (ne : gen.grammar.productionsFor symbol ≠ [])
      (hlimit : gen.exceededLimit? (depth + 1) = none)
      (hchoose : gen.choose (gen.grammar.productionsFor symbol) ne supply = (.error fault, left)) :
      Ends gen ⟨.expand symbol :: rest, depth, written, supply⟩ (.error (.noChoice fault)) left

/-- A symbol with productions is expanded by one of them. -/
theorem step_expand_nonterminal {symbol : String} (ne : gen.grammar.productionsFor symbol ≠ [])
    (rest : List Task) (depth : Nat) (written : String) (supply : Random.Supply) :
    gen.step ⟨.expand symbol :: rest, depth, written, supply⟩ =
      gen.stepExpand symbol (gen.grammar.productionsFor symbol) ne
        ⟨rest, depth, written, supply⟩ := by
  simp [step, ne]

theorem Advances.step_eq (h : gen.Advances draft next) : gen.step draft = .next next := by
  cases h with
  | space => rfl
  | close => rfl
  | terminal h => simp [step, h]
  | nonterminal ne hlimit hchoose =>
    rw [step_expand_nonterminal ne]
    simp only [stepExpand, hlimit, hchoose]

theorem Ends.step_eq {result : Except GenerateError String} {left : Random.Supply}
    (h : gen.Ends draft result left) : gen.step draft = .done result left := by
  cases h with
  | done => rfl
  | exceeded ne hlimit =>
    rw [step_expand_nonterminal ne]
    simp only [stepExpand, hlimit]
  | noChoice ne hlimit hchoose =>
    rw [step_expand_nonterminal ne]
    simp only [stepExpand, hlimit, hchoose]

/-- Every draft goes on or ends in one of the ways told apart above. -/
theorem advances_or_ends (gen : Generator) (draft : Draft) :
    (∃ next, gen.Advances draft next) ∨ ∃ result left, gen.Ends draft result left := by
  obtain ⟨pending, depth, written, supply⟩ := draft
  cases pending with
  | nil => exact .inr ⟨_, _, .done⟩
  | cons task rest =>
    cases task with
    | space => exact .inl ⟨_, .space⟩
    | close => exact .inl ⟨_, .close⟩
    | expand symbol =>
      by_cases h : gen.grammar.productionsFor symbol = []
      · exact .inl ⟨_, .terminal h⟩
      · cases hlimit : gen.exceededLimit? (depth + 1) with
        | some limit => exact .inr ⟨_, _, .exceeded h hlimit⟩
        | none =>
          rcases hchoose : gen.choose (gen.grammar.productionsFor symbol) h supply with
            ⟨fault | p, left⟩
          · exact .inr ⟨_, _, .noChoice h hlimit hchoose⟩
          · exact .inl ⟨_, .nonterminal h hlimit hchoose⟩

/-- A step goes on exactly if it advances in one of the four ways. -/
theorem step_eq_next_iff : gen.step draft = .next next ↔ gen.Advances draft next := by
  refine ⟨fun h => ?_, Advances.step_eq⟩
  -- a step does one thing only, so it advances as it does in the case that applies
  rcases gen.advances_or_ends draft with ⟨next', hadvances⟩ | ⟨result, left, hends⟩
  · rw [hadvances.step_eq, Progress.next.injEq] at h
    exact h ▸ hadvances
  · rw [hends.step_eq] at h
    cases h

/-- A step is the last one exactly for one of the three reasons. -/
theorem step_eq_done_iff {result : Except GenerateError String} {left : Random.Supply} :
    gen.step draft = .done result left ↔ gen.Ends draft result left := by
  refine ⟨fun h => ?_, Ends.step_eq⟩
  rcases gen.advances_or_ends draft with ⟨next', hadvances⟩ | ⟨result', left', hends⟩
  · rw [hadvances.step_eq] at h
    cases h
  · rw [hends.step_eq, Progress.done.injEq] at h
    obtain ⟨rfl, rfl⟩ := h
    exact hends

/-- A run goes on as it does from the next draft. -/
theorem Advances.run_eq (h : gen.Advances draft next) : gen.run draft = gen.run next := by
  rw [run]
  split
  · next h' => rw [h.step_eq] at h'; cases h'
  · next h' => rw [h.step_eq] at h'; cases h'; rfl

theorem Ends.run_eq {result : Except GenerateError String} {left : Random.Supply}
    (h : gen.Ends draft result left) : gen.run draft = (result, left) := by
  rw [run]
  split
  · next h' => rw [h.step_eq] at h'; cases h'; rfl
  · next h' => rw [h.step_eq] at h'; cases h'

/-! ## The drafts of a run -/

/-- What holds at the end of a run, and of a draft if it holds of the next, holds of all drafts. -/
theorem run_induction (gen : Generator) {motive : Draft → Prop}
    (ends : ∀ {draft result left}, gen.Ends draft result left → motive draft)
    (advances : ∀ {draft next}, gen.Advances draft next → motive next → motive draft)
    (draft : Draft) : motive draft := by
  induction draft using run.induct gen with
  | case1 draft result left hstep => exact ends (step_eq_done_iff.mp hstep)
  | case2 draft next hstep ih => exact advances (step_eq_next_iff.mp hstep) ih

/-- The drafts that come up while another is worked on. -/
def Reaches (gen : Generator) : Draft → Draft → Prop :=
  Relation.ReflTransGen fun draft next => gen.step draft = .next next

/-- The drafts that a run goes through. -/
def drafts (gen : Generator) (draft : Draft) : List Draft :=
  match _h : gen.step draft with
  | .done _ _ => [draft]
  | .next next => draft :: gen.drafts next
termination_by (draft.supply.length, draft.pending.length)
decreasing_by
  rcases step_lt _h with shorter | ⟨same, less⟩
  · exact Prod.Lex.left _ _ shorter
  · rw [same]
    exact Prod.Lex.right _ less

theorem Advances.drafts_eq (h : gen.Advances draft next) :
    gen.drafts draft = draft :: gen.drafts next := by
  rw [drafts]
  split
  · next h' => rw [h.step_eq] at h'; cases h'
  · next h' => rw [h.step_eq] at h'; cases h'; rfl

theorem Ends.drafts_eq {result : Except GenerateError String} {left : Random.Supply}
    (h : gen.Ends draft result left) : gen.drafts draft = [draft] := by
  rw [drafts]
  split
  · rfl
  · next h' => rw [h.step_eq] at h'; cases h'

/-- The drafts of a run are those that come up in it. -/
theorem mem_drafts_iff {d : Draft} : d ∈ gen.drafts draft ↔ gen.Reaches draft d := by
  -- from the end of the run to its beginning, as the list of drafts is built
  induction draft using gen.run_induction with
  | @ends draft result left hends =>
    rw [hends.drafts_eq, List.mem_singleton]
    constructor
    · rintro rfl
      exact .refl
    · intro h
      rcases Relation.ReflTransGen.cases_head h with rfl | ⟨next, hstep, -⟩
      · rfl
      · rw [hends.step_eq] at hstep
        cases hstep
  | @advances draft next hadvances ih =>
    rw [hadvances.drafts_eq, List.mem_cons, ih]
    constructor
    · rintro (rfl | h)
      · exact .refl
      · exact .head hadvances.step_eq h
    · intro h
      rcases Relation.ReflTransGen.cases_head h with rfl | ⟨next', hstep, hrest⟩
      · exact .inl rfl
      · rw [hadvances.step_eq, Progress.next.injEq] at hstep
        exact .inr (hstep ▸ hrest)

/-- Every run ends with the end of one of its drafts. -/
theorem exists_ends_of_run (gen : Generator) (draft : Draft) :
    ∃ last ∈ gen.drafts draft, gen.Ends last (gen.run draft).1 (gen.run draft).2 := by
  -- a draft that advances has the same end as the next one
  induction draft using gen.run_induction with
  | ends hends =>
    rw [hends.drafts_eq, hends.run_eq]
    exact ⟨_, List.mem_singleton_self _, hends⟩
  | advances hadvances ih =>
    obtain ⟨last, hmem, hends⟩ := ih
    rw [hadvances.drafts_eq, hadvances.run_eq]
    exact ⟨last, List.mem_cons_of_mem _ hmem, hends⟩

/-- What a step keeps holds of every draft that comes up. -/
theorem Reaches.preserves {motive : Draft → Prop} {first last : Draft}
    (h : gen.Reaches first last)
    (step : ∀ {draft next}, gen.Advances draft next → motive draft → motive next)
    (hfirst : motive first) : motive last := by
  induction h with
  | refl => exact hfirst
  | tail _ hstep ih => exact step (step_eq_next_iff.mp hstep) ih

/-! ## Depth -/

/-- The work for symbols closes no bracket that it has not opened. -/
theorem count_close_symbolTasks (g : Grammar) (symbols : List String) :
    (symbols.flatMap (symbolTasks g)).count .close = 0 := by
  apply List.count_eq_zero.mpr
  intro hmem
  obtain ⟨symbol, -, hclose⟩ := List.mem_flatMap.mp hmem
  unfold symbolTasks at hclose
  split at hclose <;> simp at hclose

/-- A step keeps the depth equal to the number of brackets that are still to be closed. -/
theorem Advances.depth_eq (h : gen.Advances draft next)
    (hdepth : draft.depth = draft.pending.count .close) :
    next.depth = next.pending.count .close := by
  cases h with
  | space => simpa using hdepth
  | @close rest depth =>
    simp only [List.count_cons_self] at hdepth
    show depth - 1 = rest.count .close
    rw [hdepth, Nat.add_sub_cancel]
  | terminal => simpa using hdepth
  | @nonterminal symbol rest depth written supply left p =>
    have hrest : depth = rest.count .close := by simpa using hdepth
    -- the bracket that is opened is the only one the new work closes
    have hnone : (rightSideTasks gen.grammar p.rhs).count .close = 0 :=
      count_close_symbolTasks gen.grammar p.rhs.symbols
    simp only [List.count_append, List.count_cons_self, hnone, hrest, Nat.zero_add]

/-- In every draft that comes up, the depth is the number of brackets that are still to be closed.
-/
theorem depth_eq_count_close {start : String} {supply : Random.Supply}
    (h : gen.Reaches (Draft.begin start supply) draft) :
    draft.depth = draft.pending.count .close := by
  apply h.preserves (motive := fun d => d.depth = d.pending.count .close)
  · exact Advances.depth_eq
  -- at the beginning, no bracket is open
  · simp [Draft.begin]

end Generator

end PhraseGrammar
