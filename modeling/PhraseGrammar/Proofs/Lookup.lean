import Mathlib.Data.List.Induction
import PhraseGrammar.Grammar.Closure

/-!
# What the lookups of a grammar find

A grammar answers questions from the tables of its index, and the tables are filled one
production at a time.  This module states each answer in terms of the list of productions alone,
so that nothing after it has to look into a table.

The table of words and the table of pairs are read through one function, `headsOf`: the symbols
that expand to a right-hand side.

## Main statements

- `productionsFor_eq_filter`: the productions of a symbol, in the order of the list.
- `headsOf_eq_eraseDups`: the symbols that expand to a right-hand side, in first-seen order.
- `isNonterminal_iff`: a symbol is a nonterminal iff it is a left-hand side.
-/

namespace PhraseGrammar

/-! ## Insertion without repeats -/

/-- Inserting at the end keeps the order in which a list first shows its elements. -/
theorem eraseDups_concat (xs : List String) (x : String) :
    (xs ++ [x]).eraseDups = insertUnique xs.eraseDups x := by
  rw [List.eraseDups_append]
  unfold insertUnique
  -- an element that was there before adds nothing, and a new one comes last
  by_cases hx : x ∈ xs
  · simp [List.removeAll, hx]
  · simp [List.removeAll, hx, List.eraseDups_cons]

/-- Inserting something that is there already does not repeat it. -/
private theorem nodup_insertUnique {xs : List String} (h : xs.Nodup) (x : String) :
    (insertUnique xs x).Nodup := by
  unfold insertUnique
  split
  · exact h
  · next hx =>
    apply List.nodup_append.mpr
    refine ⟨h, by simp, ?_⟩
    intro a ha b hb hab
    rw [List.mem_singleton.mp hb] at hab
    exact hx (hab ▸ ha)

theorem nodup_eraseDups (xs : List String) : xs.eraseDups.Nodup := by
  -- the list grows at its end, where elements are inserted
  induction xs using List.reverseRecOn with
  | nil => simp
  | append_singleton xs x ih =>
    rw [eraseDups_concat]
    exact nodup_insertUnique ih x

namespace Index

/-! ## One more production -/

/-- The symbols that expand to a right-hand side, each once, in first-seen order. -/
def headsOf (index : Index) : RightSide → List String
  | .word w => index.preterminalsFor w
  | .pair a b => index.lhsForPair a b

/-- Whatever its right-hand side is, a production is filed under its left-hand side. -/
private theorem byLhs_add (index : Index) (p : Production) :
    (index.add p).byLhs =
      index.byLhs.alter p.lhs fun found => some ((found.getD #[]).push p) := by
  unfold add
  split <;> rfl

/-- A production comes last among those of its left-hand side. -/
theorem productionsFor_add (index : Index) (p : Production) (symbol : String) :
    (index.add p).productionsFor symbol =
      if p.lhs = symbol then index.productionsFor symbol ++ [p]
      else index.productionsFor symbol := by
  unfold productionsFor
  rw [byLhs_add, Std.HashMap.getD_alter]
  -- the list that is looked up is the one that grows, or it stays as it is
  by_cases h : p.lhs = symbol
  · subst h
    simp [Std.HashMap.getD_eq_getD_getElem?]
  · simp [h]

/-- A production makes its left-hand side a nonterminal. -/
theorem isNonterminal_add (index : Index) (p : Production) (symbol : String) :
    (index.add p).isNonterminal symbol = (p.lhs == symbol || index.isNonterminal symbol) := by
  unfold isNonterminal
  rw [byLhs_add, Std.HashMap.contains_alter]
  by_cases h : p.lhs = symbol <;> simp [h]

/-- A head is filed under one symbol of a table, once. -/
theorem getD_addHead (table : Std.HashMap String (List String)) (symbol lhs other : String) :
    (addHead table symbol lhs).getD other [] =
      if symbol = other then insertUnique (table.getD other []) lhs else table.getD other [] := by
  unfold addHead
  rw [Std.HashMap.getD_alter]
  by_cases h : symbol = other
  · subst h
    simp [Std.HashMap.getD_eq_getD_getElem?]
  · simp [h]

/-- A production adds its left-hand side to the heads of its own right-hand side only. -/
theorem headsOf_add (index : Index) (p : Production) (rhs : RightSide) :
    (index.add p).headsOf rhs =
      if p.rhs = rhs then insertUnique (index.headsOf rhs) p.lhs else index.headsOf rhs := by
  obtain ⟨lhs, side, probability⟩ := p
  -- words and pairs have a table each, and an addition changes one of them
  cases side with
  | word v =>
    cases rhs with
    | word w => simp [headsOf, preterminalsFor, add, getD_addHead]
    | pair a b => simp [headsOf, lhsForPair, add]
  | pair c d =>
    cases rhs with
    | word w => simp [headsOf, preterminalsFor, add]
    | pair a b =>
      simp only [headsOf, lhsForPair, add, Std.HashMap.getD_alter]
      -- the table of the first symbol is found first, then that of the second symbol in it
      by_cases hfirst : c = a
      · subst hfirst
        simp only [beq_self_eq_true, ite_true, Option.getD_some, getD_addHead,
          ← Std.HashMap.getD_eq_getD_getElem?, RightSide.pair.injEq, true_and]
      · simp [hfirst]

/-! ## The whole list -/

theorem ofProductions_concat (ps : List Production) (p : Production) :
    ofProductions (ps ++ [p]) = (ofProductions ps).add p := by
  simp [ofProductions, List.foldl_append]

/-- The index finds the productions of a symbol in the order of the list. -/
theorem productionsFor_ofProductions (ps : List Production) (symbol : String) :
    (ofProductions ps).productionsFor symbol = ps.filter fun p => p.lhs = symbol := by
  -- an index is built from the front, so the last production of the list is added last
  induction ps using List.reverseRecOn with
  | nil => simp [ofProductions, empty, productionsFor]
  | append_singleton ps p ih =>
    rw [ofProductions_concat, productionsFor_add, ih, List.filter_append]
    by_cases h : p.lhs = symbol <;> simp [h]

/-- The nonterminals of an index are the left-hand sides of the list. -/
theorem isNonterminal_ofProductions (ps : List Production) (symbol : String) :
    (ofProductions ps).isNonterminal symbol = ps.any fun p => p.lhs == symbol := by
  induction ps using List.reverseRecOn with
  | nil => simp [ofProductions, empty, isNonterminal]
  | append_singleton ps p ih =>
    rw [ofProductions_concat, isNonterminal_add, ih, List.any_append, Bool.or_comm]
    simp

/-- The index names the heads of a right-hand side in the order in which the list first shows them.
-/
theorem headsOf_ofProductions (ps : List Production) (rhs : RightSide) :
    (ofProductions ps).headsOf rhs =
      ((ps.filter fun p => p.rhs = rhs).map Production.lhs).eraseDups := by
  induction ps using List.reverseRecOn with
  | nil => cases rhs <;> simp [ofProductions, empty, headsOf, preterminalsFor, lhsForPair]
  | append_singleton ps p ih =>
    rw [ofProductions_concat, headsOf_add, ih, List.filter_append, List.map_append]
    -- the last production is one with this right-hand side, or changes nothing
    by_cases h : p.rhs = rhs
    · simp [h, eraseDups_concat]
    · simp [h]

end Index

namespace Grammar

variable (g : Grammar)

/-! ## The lookups of a grammar -/

/-- The symbols that expand to a right-hand side, each once, in first-seen order. -/
def headsOf (rhs : RightSide) : List String :=
  g.index.headsOf rhs

/-- The productions of a symbol are those of the grammar with that left-hand side. -/
theorem productionsFor_eq_filter (symbol : String) :
    g.productionsFor symbol = g.productions.filter fun p => p.lhs = symbol := by
  unfold productionsFor
  rw [g.index_eq, Index.productionsFor_ofProductions]

/-- The heads of a right-hand side are the left-hand sides of its productions, without the
repeats. -/
theorem headsOf_eq_eraseDups (rhs : RightSide) :
    g.headsOf rhs = ((g.productions.filter fun p => p.rhs = rhs).map Production.lhs).eraseDups := by
  unfold headsOf
  rw [g.index_eq, Index.headsOf_ofProductions]

theorem nodup_headsOf (rhs : RightSide) : (g.headsOf rhs).Nodup := by
  rw [headsOf_eq_eraseDups]
  exact nodup_eraseDups _

/-- The heads of a right-hand side are the left-hand sides of its productions. -/
theorem mem_headsOf {symbol : String} {rhs : RightSide} :
    symbol ∈ g.headsOf rhs ↔ ∃ p ∈ g.productions, p.lhs = symbol ∧ p.rhs = rhs := by
  simp only [headsOf_eq_eraseDups, List.mem_eraseDups, List.mem_map, List.mem_filter,
    decide_eq_true_eq]
  constructor
  · intro h
    obtain ⟨p, ⟨hp, hrhs⟩, hlhs⟩ := h
    exact ⟨p, hp, hlhs, hrhs⟩
  · intro h
    obtain ⟨p, hp, hlhs, hrhs⟩ := h
    exact ⟨p, ⟨hp, hrhs⟩, hlhs⟩

/-- The productions of a symbol are those that it is the left-hand side of. -/
theorem mem_productionsFor {symbol : String} {p : Production} :
    p ∈ g.productionsFor symbol ↔ p ∈ g.productions ∧ p.lhs = symbol := by
  simp [productionsFor_eq_filter]

/-- The nonterminals are the left-hand sides. -/
theorem isNonterminal_iff {symbol : String} :
    g.isNonterminal symbol = true ↔ ∃ p ∈ g.productions, p.lhs = symbol := by
  unfold isNonterminal
  simp [g.index_eq, Index.isNonterminal_ofProductions]

theorem productionsFor_eq_nil_iff {symbol : String} :
    g.productionsFor symbol = [] ↔ g.isNonterminal symbol = false := by
  rw [productionsFor_eq_filter, List.filter_eq_nil_iff, ← Bool.not_eq_true, isNonterminal_iff]
  simp

theorem productionsFor_ne_nil_iff {symbol : String} :
    g.productionsFor symbol ≠ [] ↔ g.isNonterminal symbol = true := by
  rw [ne_eq, productionsFor_eq_nil_iff, Bool.not_eq_false]

/-! ## Closed grammars -/

variable {g}

/-- Both symbols of a closed grammar's pair are nonterminals. -/
theorem IsClosed.isNonterminal_of_pair (hg : g.IsClosed) {p : Production}
    (hp : p ∈ g.productions) {a b : String} (hrhs : p.rhs = .pair a b) :
    g.isNonterminal a = true ∧ g.isNonterminal b = true := by
  have hnone : g.problemsOf p = [] := List.flatMap_eq_nil_iff.mp hg p hp
  simpa [problemsOf, hrhs] using hnone

/-- The word of a closed grammar's production is a terminal. -/
theorem IsClosed.isNonterminal_of_word (hg : g.IsClosed) {p : Production}
    (hp : p ∈ g.productions) {w : String} (hrhs : p.rhs = .word w) :
    g.isNonterminal w = false := by
  have hnone : g.problemsOf p = [] := List.flatMap_eq_nil_iff.mp hg p hp
  simpa [problemsOf, hrhs] using hnone

end Grammar

end PhraseGrammar
