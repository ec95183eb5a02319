import PhraseGrammar.Proofs.Results
import PhraseGrammar.Proofs.Steps
import PhraseGrammar.Tree

/-!
# Expansion as a recursion over symbols

A generator keeps its pending work on one stack: symbols, spaces and the ends of brackets.  This
module says what that work amounts to, as a recursion over symbols that builds a tree:

- a symbol without productions is a leaf;
- a symbol with productions fails if its bracket would nest too deep, before any word is drawn;
- otherwise one production is drawn, and its symbols are expanded from left to right, one level
  deeper.

The two agree on the result, failures included, and on the words that are left of the supply.

## Main statements

- `expand_eq`: the recursion.
- `run_symbolTasks`: the work for a symbol, on top of any other work, writes the symbol's tree.
- `sample_of_nonterminal`: a whole run writes the tree of its start symbol.
-/

namespace PhraseGrammar

/-- A branch over children that cover the words from `position` on. -/
def Tree.over (symbol : String) (position : Nat) (children : List Tree) : Tree :=
  .branch symbol ⟨position, position + (Tree.leavesOfAll children).length⟩ children

theorem Tree.text_over (symbol : String) (position : Nat) (children : List Tree) :
    (Tree.over symbol position children).text =
      "(" ++ symbol ++ Tree.childrenText children ++ ")" := by
  rw [Tree.over, Tree.text]

namespace Generator

/-! ## The recursion -/

/-- What an expansion comes to.  It leaves no more words than it was given; the recursion needs to
know this of its first child before it can go on to the second. -/
structure Expansion (supply : Random.Supply) where
  result : Except GenerateError Tree
  left : Random.Supply
  length_le : left.length ≤ supply.length

/-- Expands a symbol below `depth` open brackets.  Its first word has the given position. -/
def expansion (gen : Generator) (depth position : Nat) (symbol : String)
    (supply : Random.Supply) : Expansion supply :=
  if ne : gen.grammar.productionsFor symbol ≠ [] then
    match gen.exceededLimit? (depth + 1) with
    | some limit => ⟨.error (.depthExceeded limit symbol), supply, Nat.le_refl _⟩
    | none =>
      match hchoose : gen.choose (gen.grammar.productionsFor symbol) ne supply with
      | (.error fault, left) => ⟨.error (.noChoice fault), left, length_choose_le hchoose⟩
      | (.ok p, left) =>
        have shorter : left.length < supply.length := length_choose_lt hchoose
        match p.rhs with
        | .word w =>
          let child := gen.expansion (depth + 1) position w left
          ⟨child.result.map fun t => Tree.over symbol position [t], child.left,
            Nat.le_trans child.length_le (Nat.le_of_lt shorter)⟩
        | .pair a b =>
          let first := gen.expansion (depth + 1) position a left
          have shorter' : first.left.length < supply.length :=
            Nat.lt_of_le_of_lt first.length_le shorter
          match first.result with
          | .error e => ⟨.error e, first.left, Nat.le_of_lt shorter'⟩
          | .ok l =>
            let second :=
              gen.expansion (depth + 1) (position + l.leaves.length) b first.left
            ⟨second.result.map fun r => Tree.over symbol position [l, r], second.left,
              Nat.le_trans second.length_le (Nat.le_of_lt shorter')⟩
  else ⟨.ok (.leaf symbol ⟨position, position + 1⟩), supply, Nat.le_refl _⟩
termination_by supply.length

/-- The tree that a symbol expands to, or why it has none, and what is left of the supply. -/
def expand (gen : Generator) (depth position : Nat) (symbol : String)
    (supply : Random.Supply) : Except GenerateError Tree × Random.Supply :=
  ((gen.expansion depth position symbol supply).result,
    (gen.expansion depth position symbol supply).left)

theorem length_expand_le (gen : Generator) (depth position : Nat) (symbol : String)
    (supply : Random.Supply) :
    (gen.expand depth position symbol supply).2.length ≤ supply.length :=
  (gen.expansion depth position symbol supply).length_le

/-- The trees that a list of symbols expands to, from left to right, up to the first failure. -/
def expandAll (gen : Generator) (depth position : Nat) :
    List String → Random.Supply → Except GenerateError (List Tree) × Random.Supply
  | [], supply => (.ok [], supply)
  | symbol :: rest, supply =>
    match gen.expand depth position symbol supply with
    | (.error e, left) => (.error e, left)
    | (.ok t, left) =>
      match gen.expandAll depth (position + t.leaves.length) rest left with
      | (.error e, left) => (.error e, left)
      | (.ok ts, left) => (.ok (t :: ts), left)

/-- The recursion, in terms of itself. -/
theorem expand_eq (gen : Generator) (depth position : Nat) (symbol : String)
    (supply : Random.Supply) :
    gen.expand depth position symbol supply =
      if ne : gen.grammar.productionsFor symbol ≠ [] then
        match gen.exceededLimit? (depth + 1) with
        | some limit => (.error (.depthExceeded limit symbol), supply)
        | none =>
          match gen.choose (gen.grammar.productionsFor symbol) ne supply with
          | (.error fault, left) => (.error (.noChoice fault), left)
          | (.ok p, left) =>
            match gen.expandAll (depth + 1) position p.rhs.symbols left with
            | (.error e, left) => (.error e, left)
            | (.ok children, left) => (.ok (Tree.over symbol position children), left)
      else (.ok (.leaf symbol ⟨position, position + 1⟩), supply) := by
  rw [expand, expansion]
  -- apart from the bounds it carries, the recursion is the right side, case by case
  split
  · split
    · rfl
    · split
      · next hchoose => simp only [hchoose]
      · next p left hchoose =>
        simp only [hchoose]
        split
        · next w hrhs =>
          simp only [hrhs, RightSide.symbols, expandAll, expand]
          cases (gen.expansion (depth + 1) position w left).result <;> rfl
        · next a b hrhs =>
          simp only [hrhs, RightSide.symbols, expandAll, expand]
          split
          · next he => simp only [he]
          · next l hl =>
            simp only [hl]
            cases (gen.expansion (depth + 1) (position + l.leaves.length) b
              (gen.expansion (depth + 1) position a left).left).result <;> rfl
  · rfl

/-! ## Computing an expansion -/

/-- A terminal expands to its leaf and draws nothing. -/
theorem expand_of_terminal {gen : Generator} {symbol : String}
    (h : gen.grammar.productionsFor symbol = []) (depth position : Nat)
    (supply : Random.Supply) :
    gen.expand depth position symbol supply =
      (.ok (.leaf symbol ⟨position, position + 1⟩), supply) := by
  rw [expand_eq, dif_neg (not_not.mpr h)]

/-- A nonterminal within the limit expands to a branch over what the drawn right-hand side expands
to. -/
theorem expand_of_choose {gen : Generator} {symbol : String} {depth position : Nat}
    {p : Production} {ne : gen.grammar.productionsFor symbol ≠ []}
    {supply middle left : Random.Supply} {children : List Tree}
    (hlimit : gen.exceededLimit? (depth + 1) = none)
    (hchoose : gen.choose (gen.grammar.productionsFor symbol) ne supply = (.ok p, middle))
    (hchildren :
      gen.expandAll (depth + 1) position p.rhs.symbols middle = (.ok children, left)) :
    gen.expand depth position symbol supply =
      (.ok (Tree.over symbol position children), left) := by
  rw [expand_eq, dif_pos ne, hlimit]
  simp only [hchoose, hchildren]

/-- A list of symbols expands to the tree of the first, and then to the trees of the others. -/
theorem expandAll_cons_of_ok {gen : Generator} {symbol : String} {symbols : List String}
    {depth position : Nat} {supply middle left : Random.Supply} {t : Tree} {ts : List Tree}
    (h : gen.expand depth position symbol supply = (.ok t, middle))
    (hrest : gen.expandAll depth (position + t.leaves.length) symbols middle = (.ok ts, left)) :
    gen.expandAll depth position (symbol :: symbols) supply = (.ok (t :: ts), left) := by
  simp only [expandAll, h, hrest]

/-! ## What a successful expansion has done -/

/-- If a list of symbols expands to trees, the first symbol has, and the others have from what it
left. -/
theorem expandAll_cons_eq_ok {gen : Generator} {depth position : Nat} {symbol : String}
    {symbols : List String} {supply left : Random.Supply} {ts : List Tree}
    (h : gen.expandAll depth position (symbol :: symbols) supply = (.ok ts, left)) :
    ∃ t rest middle, ts = t :: rest ∧ gen.expand depth position symbol supply = (.ok t, middle) ∧
      gen.expandAll depth (position + t.leaves.length) symbols middle = (.ok rest, left) := by
  rw [expandAll] at h
  rcases hfirst : gen.expand depth position symbol supply with ⟨e | t, middle⟩
  · simp [hfirst] at h
  · simp only [hfirst] at h
    rcases hrest : gen.expandAll depth (position + t.leaves.length) symbols middle with
      ⟨e | rest, left'⟩
    · simp [hrest] at h
    · simp only [hrest, Prod.mk.injEq, Except.ok.injEq] at h
      obtain ⟨rfl, rfl⟩ := h
      exact ⟨t, rest, middle, rfl, rfl, hrest⟩

/-- A symbol expands to a leaf if it is a terminal, and else to a branch over what the right-hand
side of a drawn production expands to. -/
theorem expand_eq_ok {gen : Generator} {depth position : Nat} {symbol : String}
    {supply left : Random.Supply} {t : Tree}
    (h : gen.expand depth position symbol supply = (.ok t, left)) :
    (gen.grammar.productionsFor symbol = [] ∧ t = .leaf symbol ⟨position, position + 1⟩ ∧
      left = supply) ∨
    ∃ ne p middle children, gen.exceededLimit? (depth + 1) = none ∧
      gen.choose (gen.grammar.productionsFor symbol) ne supply = (.ok p, middle) ∧
      gen.expandAll (depth + 1) position p.rhs.symbols middle = (.ok children, left) ∧
      t = Tree.over symbol position children := by
  rw [expand_eq] at h
  split at h
  · next ne =>
    refine .inr ⟨ne, ?_⟩
    split at h
    · cases h
    · next hlimit =>
      split at h
      · cases h
      · next p middle hchoose =>
        split at h
        · cases h
        · next children left' hchildren =>
          cases h
          exact ⟨p, middle, children, hlimit, hchoose, hchildren, rfl⟩
  · next hnone =>
    cases h
    exact .inl ⟨not_not.mp hnone, rfl, rfl⟩

/-! ## The work for a symbol -/

variable {gen : Generator}

/-- A nonterminal is one task; it writes the space before its bracket itself. -/
theorem symbolTasks_nonterminal {g : Grammar} {symbol : String}
    (ne : g.productionsFor symbol ≠ []) : symbolTasks g symbol = [.expand symbol] := by
  simp [symbolTasks, g.productionsFor_ne_nil_iff.mp ne]

theorem symbolTasks_terminal {g : Grammar} {symbol : String} (h : g.productionsFor symbol = []) :
    symbolTasks g symbol = [.space, .expand symbol] := by
  simp [symbolTasks, g.productionsFor_eq_nil_iff.mp h]

/-- Goes on with a draft once a symbol's tree has been written, or stops with its failure. -/
def resume (gen : Generator) (rest : List Task) (depth : Nat) (written : String) :
    Except GenerateError Tree × Random.Supply → Except GenerateError String × Random.Supply
  | (.error e, left) => (.error e, left)
  | (.ok t, left) => gen.run ⟨rest, depth, written ++ " " ++ t.text, left⟩

/-- Goes on with a draft once the trees of some symbols have been written, or stops. -/
def resumeAll (gen : Generator) (rest : List Task) (depth : Nat) (written : String) :
    Except GenerateError (List Tree) × Random.Supply →
      Except GenerateError String × Random.Supply
  | (.error e, left) => (.error e, left)
  | (.ok ts, left) => gen.run ⟨rest, depth, written ++ Tree.childrenText ts, left⟩

/-- What holds of the work for one symbol holds of the work for a list of symbols. -/
private theorem run_flatMap_symbolTasks {bound : Nat}
    (ih : ∀ position symbol rest depth written (supply : Random.Supply), supply.length < bound →
      gen.run ⟨symbolTasks gen.grammar symbol ++ rest, depth, written, supply⟩ =
        gen.resume rest depth written (gen.expand depth position symbol supply))
    (symbols : List String) (position : Nat) (rest : List Task) (depth : Nat) (written : String)
    {supply : Random.Supply} (hlt : supply.length < bound) :
    gen.run ⟨symbols.flatMap (symbolTasks gen.grammar) ++ rest, depth, written, supply⟩ =
      gen.resumeAll rest depth written (gen.expandAll depth position symbols supply) := by
  induction symbols generalizing position written supply with
  | nil => simp [expandAll, resumeAll, Tree.childrenText]
  | cons symbol symbols ihs =>
    have hle := gen.length_expand_le depth position symbol supply
    rw [List.flatMap_cons, List.append_assoc, ih position symbol _ depth written supply hlt,
      expandAll]
    -- the first symbol that fails stops the work; else the rest has no more words than this one
    rcases hout : gen.expand depth position symbol supply with ⟨_ | t, left⟩
    · rfl
    · rw [hout] at hle
      have hrest := ihs (position + t.leaves.length) (written ++ " " ++ t.text)
        (Nat.lt_of_le_of_lt hle hlt)
      simp only [resume, hrest]
      rcases gen.expandAll depth (position + t.leaves.length) symbols left with ⟨_ | ts, left'⟩
      · rfl
      · simp only [resumeAll, Tree.childrenText, String.append_assoc]

/-- The work for a symbol, on top of any other work, writes a space and the symbol's tree. -/
theorem run_symbolTasks (gen : Generator) (position : Nat) (symbol : String) (rest : List Task)
    (depth : Nat) (written : String) (supply : Random.Supply) :
    gen.run ⟨symbolTasks gen.grammar symbol ++ rest, depth, written, supply⟩ =
      gen.resume rest depth written (gen.expand depth position symbol supply) := by
  induction hn : supply.length using Nat.strongRecOn
    generalizing position symbol rest depth written supply with
  | ind n ih =>
    subst hn
    rw [expand_eq]
    -- a terminal is written at once; a nonterminal opens a bracket, unless it fails
    by_cases ne : gen.grammar.productionsFor symbol ≠ []
    · rw [symbolTasks_nonterminal ne, List.singleton_append, dif_pos ne]
      cases hlimit : gen.exceededLimit? (depth + 1) with
      | some limit => exact (Ends.exceeded ne hlimit).run_eq
      | none =>
        rcases hchoose : gen.choose (gen.grammar.productionsFor symbol) ne supply with
          ⟨fault | p, left⟩
        · exact (Ends.noChoice ne hlimit hchoose).run_eq
        · rw [(Advances.nonterminal ne hlimit hchoose).run_eq, rightSideTasks]
          -- the right-hand side is written between this bracket and its end
          have hchildren := run_flatMap_symbolTasks
            (fun position symbol rest depth written supply hlt =>
              ih supply.length hlt position symbol rest depth written supply rfl)
            p.rhs.symbols position (.close :: rest) (depth + 1) (written ++ " (" ++ symbol)
            (length_choose_lt hchoose)
          rw [hchildren]
          dsimp only
          rcases gen.expandAll (depth + 1) position p.rhs.symbols left with ⟨_ | children, left'⟩
          · rfl
          · have hspace : " (" = " " ++ "(" := rfl
            simp only [resumeAll, resume, Advances.close.run_eq, Nat.add_sub_cancel, Tree.text_over,
              hspace, String.append_assoc]
    · rw [not_not] at ne
      have hspace : gen.run ⟨[.space, .expand symbol] ++ rest, depth, written, supply⟩ =
          gen.run ⟨.expand symbol :: rest, depth, written ++ " ", supply⟩ := Advances.space.run_eq
      rw [symbolTasks_terminal ne, dif_neg (not_not.mpr ne), hspace, (Advances.terminal ne).run_eq,
        resume, Tree.text]

/-! ## Whole runs -/

/-- Only the space before a bracket is dropped, not what may be blank in the symbol after it. -/
theorem dropBlanks_bracket (text : String) : dropBlanks (" " ++ ("(" ++ text)) = "(" ++ text := by
  have hlist : (" " ++ ("(" ++ text)).toList = ' ' :: '(' :: text.toList := by
    rw [String.toList_append, String.toList_append]
    rfl
  have hblank : Text.isBlank ' ' = true := by decide
  have hbracket : Text.isBlank '(' = false := by decide
  unfold dropBlanks Text.trimStart
  rw [hlist, List.dropWhile_cons_of_pos hblank, List.dropWhile_cons_of_neg (by simp [hbracket]),
    String.ofList_cons, String.ofList_toList]
  rfl

/-- A run from a nonterminal writes the text of the tree that the nonterminal expands to. -/
theorem sample_of_nonterminal {start : String} (ne : gen.grammar.productionsFor start ≠ [])
    (supply : Random.Supply) :
    gen.sample start supply =
      ((gen.expand 0 0 start supply).1.map Tree.text, (gen.expand 0 0 start supply).2) := by
  have hstart : gen.grammar.isNonterminal start = true :=
    gen.grammar.productionsFor_ne_nil_iff.mp ne
  -- the start symbol is work with nothing below it
  have hrun := gen.run_symbolTasks 0 start [] 0 "" supply
  rw [symbolTasks_nonterminal ne, List.append_nil] at hrun
  rw [sample, if_pos hstart, Draft.begin, hrun]
  rcases hexpand : gen.expand 0 0 start supply with ⟨e | t, left⟩
  · rfl
  · have hdone : gen.run ⟨[], 0, "" ++ " " ++ t.text, left⟩ = (.ok ("" ++ " " ++ t.text), left) :=
      Ends.done.run_eq
    rw [resume, hdone, String.empty_append]
    -- a nonterminal's tree is a branch, so its text begins with a bracket
    rcases expand_eq_ok hexpand with ⟨hnone, -, -⟩ | ⟨-, p, -, children, -, -, -, rfl⟩
    · exact absurd hnone ne
    · simp only [Except.map, Tree.text_over, String.append_assoc, dropBlanks_bracket]

/-- What a run writes is the text of the tree that its start symbol expands to. -/
theorem exists_expand_of_sample {start sentence : String} {supply left : Random.Supply}
    (h : gen.sample start supply = (.ok sentence, left)) :
    gen.grammar.productionsFor start ≠ [] ∧
      ∃ t, gen.expand 0 0 start supply = (.ok t, left) ∧ t.text = sentence := by
  by_cases ne : gen.grammar.productionsFor start = []
  · rw [Grammar.productionsFor_eq_nil_iff] at ne
    simp [sample, ne] at h
  · rw [sample_of_nonterminal ne, Prod.mk.injEq] at h
    obtain ⟨hresult, hleft⟩ := h
    obtain ⟨t, hexpand, htext⟩ := Except.map_eq_ok.mp hresult
    exact ⟨ne, t, Prod.ext hexpand hleft, htext⟩

/-- Where the start symbol expands to a tree, a run writes the tree's text. -/
theorem sample_of_expand {start : String} {supply left : Random.Supply} {t : Tree}
    (ne : gen.grammar.productionsFor start ≠ [])
    (h : gen.expand 0 0 start supply = (.ok t, left)) :
    gen.sample start supply = (.ok t.text, left) := by
  rw [sample_of_nonterminal ne, h]
  rfl

/-- **Refinement**: a run over the stack of pending work gives the result of the recursion, with
the tree written in brackets, and leaves the same words; and at every moment the depth counts the
brackets still to be closed, so closing one never takes it below zero. -/
theorem sample_eq_expand (gen : Generator) (start : String) (supply : Random.Supply) :
    (gen.sample start supply =
      if gen.grammar.productionsFor start = [] then (.error (.unknownStart start), supply)
      else ((gen.expand 0 0 start supply).1.map Tree.text, (gen.expand 0 0 start supply).2)) ∧
    ∀ draft, gen.Reaches (Draft.begin start supply) draft →
      draft.depth = draft.pending.count .close ∧
        ∀ rest, draft.pending = .close :: rest → 0 < draft.depth := by
  -- the result by the recursion for the start symbol, the depth by what a step does to open
  -- brackets
  constructor
  · split
    · next hnone =>
      rw [Grammar.productionsFor_eq_nil_iff] at hnone
      simp [sample, hnone]
    · next ne => exact sample_of_nonterminal ne supply
  · intro draft hreaches
    have hdepth := depth_eq_count_close hreaches
    refine ⟨hdepth, ?_⟩
    intro rest hpending
    rw [hdepth, hpending, List.count_cons_self]
    exact Nat.succ_pos _

end Generator

end PhraseGrammar
