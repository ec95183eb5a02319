import PhraseGrammar.Generator.Basic
import PhraseGrammar.Text.Blank

/-!
# Generating sentences

A generator expands a start symbol at random and writes the derivation as it goes, in brackets.
What is half written is a *draft*: the text so far, and a stack of pending work.  A symbol without
productions is written as it is.  A symbol with productions opens a bracket, and the right-hand
side of a chosen production goes onto the stack, above the bracket's end.

Each choice takes at least one word from the supply, and every other step takes work off the
stack, so the steps end on every supply.
-/

namespace PhraseGrammar.Generator

/-! ## Drafts -/

/-- Pending work. -/
inductive Task where
  | expand (symbol : String)
  | space
  | close
deriving DecidableEq

/-- A derivation that is being written. -/
structure Draft where
  /-- What is still to be done, the next task first. -/
  pending : List Task
  /-- The number of open brackets. -/
  depth : Nat
  written : String
  supply : Random.Supply

/-- The draft before the first step. -/
def Draft.begin (start : String) (supply : Random.Supply) : Draft :=
  ⟨[.expand start], 0, "", supply⟩

/-- The work for one symbol of a right-hand side.  A space separates a terminal from what was
written before it; a nonterminal's bracket brings its own. -/
def symbolTasks (g : Grammar) (symbol : String) : List Task :=
  if g.isNonterminal symbol then [.expand symbol] else [.space, .expand symbol]

/-- The work for a right-hand side, from left to right. -/
def rightSideTasks (g : Grammar) (rhs : RightSide) : List Task :=
  rhs.symbols.flatMap (symbolTasks g)

/-! ## One step -/

/-- What a step leads to: another draft, or the end with what is left of the supply. -/
inductive Progress where
  | next (draft : Draft)
  | done (result : Except GenerateError String) (left : Random.Supply)

/-- Expands a symbol that has productions, within a bracket of its own.  The limit on nesting is
looked at before a production is drawn. -/
def stepExpand (gen : Generator) (symbol : String) (alternatives : List Production)
    (ne : alternatives ≠ []) (draft : Draft) : Progress :=
  match gen.exceededLimit? (draft.depth + 1) with
  | some limit => .done (.error (.depthExceeded limit symbol)) draft.supply
  | none =>
    match gen.choose alternatives ne draft.supply with
    | (.error fault, left) => .done (.error (.noChoice fault)) left
    | (.ok p, left) =>
      .next ⟨rightSideTasks gen.grammar p.rhs ++ Task.close :: draft.pending, draft.depth + 1,
        draft.written ++ " (" ++ symbol, left⟩

/-- Does the next task of a draft. -/
def step (gen : Generator) (draft : Draft) : Progress :=
  match draft with
  | ⟨[], _, written, supply⟩ => .done (.ok written) supply
  | ⟨.space :: rest, depth, written, supply⟩ => .next ⟨rest, depth, written ++ " ", supply⟩
  | ⟨.close :: rest, depth, written, supply⟩ => .next ⟨rest, depth - 1, written ++ ")", supply⟩
  | ⟨.expand symbol :: rest, depth, written, supply⟩ =>
    let alternatives := gen.grammar.productionsFor symbol
    if ne : alternatives ≠ [] then
      gen.stepExpand symbol alternatives ne ⟨rest, depth, written, supply⟩
    else .next ⟨rest, depth, written ++ symbol, supply⟩

/-- A step takes from the supply, or else from the pending work. -/
theorem step_lt {gen : Generator} {draft next : Draft} (h : gen.step draft = .next next) :
    next.supply.length < draft.supply.length ∨
      next.supply = draft.supply ∧ next.pending.length < draft.pending.length := by
  unfold step at h
  split at h
  · cases h
  · cases h
    exact .inr ⟨rfl, Nat.lt_succ_self _⟩
  · cases h
    exact .inr ⟨rfl, Nat.lt_succ_self _⟩
  · dsimp only at h
    split at h
    · unfold stepExpand at h
      split at h
      · cases h
      · split at h
        · cases h
        · next hchoose =>
          cases h
          exact .inl (length_choose_lt hchoose)
    · cases h
      exact .inr ⟨rfl, Nat.lt_succ_self _⟩

/-! ## All steps -/

/-- Does the pending work of a draft to its end. -/
def run (gen : Generator) (draft : Draft) : Except GenerateError String × Random.Supply :=
  match _h : gen.step draft with
  | .done result left => (result, left)
  | .next next => gen.run next
termination_by (draft.supply.length, draft.pending.length)
decreasing_by
  rcases step_lt _h with shorter | ⟨same, less⟩
  · exact Prod.Lex.left _ _ shorter
  · rw [same]
    exact Prod.Lex.right _ less

/-- A text without its leading blanks. -/
def dropBlanks (text : String) : String :=
  String.ofList (Text.trimStart text.toList)

/-- Generates one derivation of a start symbol, in brackets. -/
def sample (gen : Generator) (start : String) (supply : Random.Supply) :
    Except GenerateError String × Random.Supply :=
  if gen.grammar.isNonterminal start then
    let (written, left) := gen.run (Draft.begin start supply)
    (written.map dropBlanks, left)
  else (.error (.unknownStart start), supply)

/-! ## Many derivations -/

/-- Generates a number of derivations, up to the first that fails. -/
def generate (gen : Generator) (start : String) (count : Nat) (supply : Random.Supply) :
    Except GenerateError (List String) × Random.Supply :=
  match count with
  | 0 => (.ok [], supply)
  | more + 1 =>
    match gen.sample start supply with
    | (.error e, left) => (.error e, left)
    | (.ok sentence, left) =>
      let (others, left) := gen.generate start more left
      (others.map (sentence :: ·), left)

end PhraseGrammar.Generator
