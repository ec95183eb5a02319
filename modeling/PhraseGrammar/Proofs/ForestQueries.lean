import PhraseGrammar.Proofs.Backpointers
import PhraseGrammar.Proofs.ParseModes

/-!
# The queries of a forest

A chart is asked for its trees in different ways: by the addresses of the entries of its last cell,
by the positions that the cell keeps for a symbol, by the first address alone, or by a number only.
The answers come from one list.  The entries of the cell and the trees of the sentence stand side by
side, as every entry has a tree with its head at the root; the positions that are kept for a symbol
are those of its entries, so they pick the trees with the symbol at the root.

## Main statements

- `filterMap_positions`: the trees at the positions of the entries of a symbol.
- `IsMade.map_value_trees`: entries and trees stand side by side.
- `IsMade.queriesAgree`: how each query follows from the list of trees.
- `forest_queries_agree`: the same for all charts that are made, and the queries of a grammar.
-/

namespace PhraseGrammar

/-! ## Trees at the positions of entries -/

/-- Where trees and entries stand side by side, the positions of the entries of a symbol are those
of the trees with the symbol at the root. -/
theorem filterMap_positions {es : List Entry} {ts : List Tree} {f : Nat → Option Tree} {k : Nat}
    (hvalues : ts.map Tree.value = es.map Entry.lhs) (hf : ∀ i, f (k + i) = ts[i]?)
    (symbol : String) :
    (((es.zipIdx k).filter fun entry => entry.1.lhs = symbol).map Prod.snd).filterMap f =
      ts.filter fun t => t.value = symbol := by
  induction es generalizing ts k with
  | nil =>
    rw [List.map_nil, List.map_eq_nil_iff] at hvalues
    rw [hvalues]
    rfl
  | cons e es ih =>
    cases ts with
    | nil => cases hvalues
    | cons t ts =>
      simp only [List.map_cons, List.cons.injEq] at hvalues
      obtain ⟨hvalue, hvalues⟩ := hvalues
      have hfirst : f k = some t := hf 0
      have hrest : ∀ i, f (k + 1 + i) = ts[i]? := by
        intro i
        rw [Nat.add_assoc, Nat.add_comm 1 i]
        exact hf (i + 1)
      have hothers := ih hvalues hrest
      -- the first entry is taken or not, and so is the first tree
      by_cases h : e.lhs = symbol
      · simp [List.zipIdx_cons, hvalue, h, hfirst, hothers]
      · simp [List.zipIdx_cons, hvalue, h, hothers]

namespace Chart

variable {c : Chart}

/-! ## One list for all queries -/

/-- The answers of a chart to all queries follow from the list of its trees. -/
structure QueriesAgree (c : Chart) : Prop where
  /-- No address of the last cell is without a tree. -/
  refs_eq : (c.refs 0 c.size).map c.treeAt? = c.trees.map some
  length_eq : c.trees.length = c.parseCount
  treesFor_eq : ∀ symbol, c.treesFor symbol = c.trees.filter fun t => t.value = symbol
  existsUnique_treesFor : ∀ t ∈ c.trees, ∃! symbol, t ∈ c.treesFor symbol
  firstTree?_eq : c.firstTree? = c.trees.head?
  render_eq_ok : ∀ t, c.firstTree? = some t → c.render = .ok t.text
  render_eq_error : c.render = .error {} ↔ c.parseCount = 0

theorem cellSize_unfilled (words : List String) (start len : Nat) :
    (unfilled words).cellSize start len = 0 := by
  rw [cellSize, cell?_unfilled]
  split <;> rfl

theorem trees_unfilled (words : List String) : (unfilled words).trees = [] := by
  rw [trees, refs, cellSize_unfilled]
  rfl

namespace IsMade

variable (made : c.IsMade)
include made

/-- A tree has the head of its entry at the root, and there is none without an entry. -/
theorem map_value_treeAt? (r : EntryRef) :
    (c.treeAt? r).map Tree.value = (c.get? r).map Entry.lhs := by
  have hsome := made.isSome_treeAt?_iff r
  -- a tree is read out exactly where there is an entry
  cases hget : c.get? r with
  | none => rw [treeAt?_of_missing hget, Option.map_none, Option.map_none]
  | some e =>
    rw [hget, Option.isSome_some, eq_self, iff_true] at hsome
    obtain ⟨t, ht⟩ := Option.isSome_iff_exists.mp hsome
    rw [ht, Option.map_some, Option.map_some, value_of_treeAt? ht hget]

/-- No address of the last cell is without a tree. -/
theorem map_treeAt?_refs : (c.refs 0 c.size).map c.treeAt? = c.trees.map some := by
  -- before it is filled, the last cell has no addresses at all
  cases made with
  | unfilled words =>
    rw [trees_unfilled, refs, cellSize_unfilled]
    rfl
  | filled g words => exact g.map_treeAt?_refs words 0 words.length

theorem getElem?_trees (idx : Nat) : c.trees[idx]? = c.treeAt? ⟨0, c.size, idx⟩ := by
  cases made with
  | unfilled words => rw [trees_unfilled, treeAt?_of_missing (get?_unfilled words _)]; rfl
  | filled g words => exact g.getElem?_treesOf words 0 words.length idx

theorem length_trees : c.trees.length = c.parseCount := by
  have hlength := congrArg List.length made.map_treeAt?_refs
  simpa [refs, parseCount] using hlength.symm

/-- Entries and trees stand side by side. -/
theorem map_value_trees : c.trees.map Tree.value = (c.entries 0 c.size).map Entry.lhs := by
  -- position by position, the tree is read out at the address of the entry
  apply List.ext_getElem?
  intro idx
  have hvalue := made.map_value_treeAt? ⟨0, c.size, idx⟩
  rw [get?_eq_getElem?] at hvalue
  rw [List.getElem?_map, List.getElem?_map, made.getElem?_trees, hvalue]

theorem indicesOf_eq {start len : Nat} {cell : Cell} (h : c.cell? start len = some cell)
    (symbol : String) :
    cell.indicesOf symbol =
      ((c.entries start len).zipIdx.filter fun entry => entry.1.lhs = symbol).map Prod.snd := by
  -- a cell of a chart that is made is the one that its entries make
  have hcell : cell = Cell.ofList (c.entries start len) := by
    cases made with
    | unfilled words =>
      have hcell := h
      rw [cell?_unfilled] at hcell
      rw [entries, h]
      split at hcell
      · cases hcell
        rfl
      · cases hcell
    | filled g words =>
      obtain ⟨pos, fits⟩ := (g.isSome_cell?_chart words).mp (Option.isSome_of_eq_some h)
      exact Option.some.inj (h.symm.trans (g.cell?_chart words pos fits))
  rw [← Cell.indicesOf_ofList, ← hcell]

/-- The trees of a symbol are those with it at the root, in the same order. -/
theorem treesFor_eq (symbol : String) :
    c.treesFor symbol = c.trees.filter fun t => t.value = symbol := by
  rw [treesFor, top?]
  cases hcell : c.cell? 0 c.size with
  | none =>
    -- a chart without a last cell has no trees
    have hsize : c.cellSize 0 c.size = 0 := by rw [cellSize, hcell]; rfl
    rw [trees, refs, hsize]
    rfl
  | some cell =>
    show (cell.indicesOf symbol).filterMap (fun idx => c.treeAt? ⟨0, c.size, idx⟩) = _
    rw [made.indicesOf_eq hcell]
    apply filterMap_positions made.map_value_trees
    intro i
    rw [Nat.zero_add, made.getElem?_trees]

theorem mem_treesFor {t : Tree} {symbol : String} :
    t ∈ c.treesFor symbol ↔ t ∈ c.trees ∧ t.value = symbol := by
  rw [made.treesFor_eq, List.mem_filter, decide_eq_true_eq]

theorem firstTree?_eq : c.firstTree? = c.trees.head? := by
  rw [List.head?_eq_getElem?, made.getElem?_trees, firstTree?]

theorem parseCount_eq_zero_iff : c.parseCount = 0 ↔ c.trees = [] := by
  rw [← made.length_trees, List.length_eq_zero_iff]

/-- Nothing is rendered where no parse is counted. -/
theorem render_eq_error_iff : c.render = .error {} ↔ c.parseCount = 0 := by
  rw [made.parseCount_eq_zero_iff, render, made.firstTree?_eq]
  cases c.trees <;> simp

/-- In every chart that is made, the queries agree. -/
theorem queriesAgree : c.QueriesAgree where
  refs_eq := made.map_treeAt?_refs
  length_eq := made.length_trees
  treesFor_eq := made.treesFor_eq
  existsUnique_treesFor t ht := by
    simp only [made.mem_treesFor, ht, true_and]
    exact existsUnique_eq'
  firstTree?_eq := made.firstTree?_eq
  render_eq_ok t ht := by rw [render, ht]
  render_eq_error := made.render_eq_error_iff

end IsMade

end Chart

namespace Grammar

/-- A sentence has no parse where no symbol derives it. -/
theorem parse_eq_error_iff (g : Grammar) (words : List String) :
    g.parse words = .error {} ↔
      ¬ ∃ symbol t, Derives g.productions words symbol 0 words.length t := by
  have made : (g.chart words).IsMade := .filled g words
  rw [parse, made.render_eq_error_iff, made.parseCount_eq_zero_iff, List.eq_nil_iff_forall_not_mem,
    g.trees_chart, exists_comm, not_exists]
  exact forall_congr' fun t => not_congr (g.mem_treesOf words)

end Grammar

/-- **The queries of a forest agree.**  In a chart as it is made, with all cells empty or filled by
a grammar, all queries are answered from the list of trees: there are as many as are counted, and no
address is without one; a symbol has those with it at the root, in the same order, so each tree is
one of exactly one symbol; the first tree is the first of the list, and the text that is rendered is
its text; and nothing is rendered where none are counted.  A grammar has no parse for a sentence
where no symbol derives it, and its trees of a sentence are those with the left-hand side of its
first production at the root. -/
theorem forest_queries_agree :
    (∀ c : Chart, c.IsMade → c.QueriesAgree) ∧
      ∀ (g : Grammar) (words : List String),
        (g.parse words = .error {} ↔
          ¬ ∃ symbol t, Derives g.productions words symbol 0 words.length t) ∧
        g.parseTrees words =
          (g.chart words).trees.filter fun t =>
            t.value = (g.productions.head g.productions_ne_nil).lhs := by
  refine ⟨fun c made => made.queriesAgree, fun g words => ⟨g.parse_eq_error_iff words, ?_⟩⟩
  have made : (g.chart words).IsMade := .filled g words
  exact made.treesFor_eq g.start

/-- One word has one parse, under the symbol that expands to it and under no other; the same chart
with empty cells has none to render. -/
theorem forest_queries_agree_doubling :
    (doubling.chart ["x"]).IsMade ∧ (doubling.chart ["x"]).parseCount = 1 ∧
      (doubling.chart ["x"]).treesFor "S" = [.branch "S" ⟨0, 1⟩ [.leaf "x" ⟨0, 1⟩]] ∧
      (doubling.chart ["x"]).treesFor "x" = [] ∧
      (doubling.chart ["x"]).render = .ok "(S x)" ∧
      (Chart.unfilled ["x"]).IsMade ∧ (Chart.unfilled ["x"]).render = .error {} := by
  have made : (doubling.chart ["x"]).IsMade := .filled doubling ["x"]
  have unfilled : (Chart.unfilled ["x"]).IsMade := .unfilled ["x"]
  have agree := forest_queries_agree.1 _ made
  have htrees := CommandLine.trees_doubling_word
  have hcount := agree.length_eq
  have hfirst := agree.firstTree?_eq
  rw [htrees] at hcount hfirst
  refine ⟨made, hcount.symm, ?_, ?_, agree.render_eq_ok _ hfirst, unfilled, ?_⟩
  · rw [agree.treesFor_eq, htrees]
    rfl
  · rw [agree.treesFor_eq, htrees]
    rfl
  · rw [(forest_queries_agree.1 _ unfilled).render_eq_error]
    exact Chart.cellSize_unfilled ["x"] 0 1

end PhraseGrammar
