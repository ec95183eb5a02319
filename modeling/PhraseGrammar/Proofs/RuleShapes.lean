import PhraseGrammar.Proofs.CanonicalOrder

/-!
# What a chart depends on

A chart does not look at probabilities, and a production that is stated again changes nothing.  Two
lists with the same *shapes*, left-hand side and right-hand side together, have the same derivations;
so in every cell of a chart they find the same trees, each once, and only the order may differ.

The order comes from the lookups.  A right-hand side names its heads in the order in which a list
first shows them, and this order numbers the entries of every cell above.  Lists that agree on it
fill the same charts, down to the positions that entries refer to.

## Main statements

- `sameShapes_iff`, `sameFirstSeen_iff`: both relations can be decided.
- `derivations_eq_of_sameShapes`: the derivations are those of the shapes.
- `treesOf_perm_of_sameShapes`: the trees of a cell, up to their order.
- `chart_congr`: lookups that agree fill the same chart.
- `chart_of_shapes`: both facts for two lists of productions.
-/

namespace PhraseGrammar

/-! ## Shapes -/

/-- The two lists have the same pairs of left-hand side and right-hand side, in any order, any
number of times and with any probabilities. -/
def SameShapes (ps qs : List Production) : Prop :=
  ∀ symbol rhs, HasRule ps symbol rhs ↔ HasRule qs symbol rhs

/-- The left-hand sides of a right-hand side, each where the list first shows it. -/
def firstSeen (ps : List Production) (rhs : RightSide) : List String :=
  ((ps.filter fun p => p.rhs = rhs).map Production.lhs).eraseDups

/-- The left-hand sides of every right-hand side are first seen in the same order in both lists. -/
def SameFirstSeen (ps qs : List Production) : Prop :=
  ∀ rhs, firstSeen ps rhs = firstSeen qs rhs

/-! ### Comparing two lists -/

/-- Only the shapes that one of the lists has need to be looked for in the other. -/
theorem sameShapes_iff {ps qs : List Production} :
    SameShapes ps qs ↔
      (∀ p ∈ ps, HasRule qs p.lhs p.rhs) ∧ ∀ q ∈ qs, HasRule ps q.lhs q.rhs := by
  constructor
  · intro h
    exact ⟨fun p hp => (h _ _).mp ⟨p, hp, rfl, rfl⟩, fun q hq => (h _ _).mpr ⟨q, hq, rfl, rfl⟩⟩
  · intro h symbol rhs
    constructor
    · intro hrule
      obtain ⟨p, hp, rfl, rfl⟩ := hrule
      exact h.1 p hp
    · intro hrule
      obtain ⟨q, hq, rfl, rfl⟩ := hrule
      exact h.2 q hq

instance (ps qs : List Production) : Decidable (SameShapes ps qs) :=
  decidable_of_iff _ sameShapes_iff.symm

/-- Only right-hand sides that one of the lists has need to be looked at. -/
theorem sameFirstSeen_iff {ps qs : List Production} :
    SameFirstSeen ps qs ↔ ∀ p ∈ ps ++ qs, firstSeen ps p.rhs = firstSeen qs p.rhs := by
  constructor
  · exact fun h p _ => h p.rhs
  · intro h rhs
    -- right-hand sides that occur are compared; there are finitely many of them
    by_cases hrhs : ∃ p ∈ ps ++ qs, p.rhs = rhs
    · obtain ⟨p, hp, rfl⟩ := hrhs
      exact h p hp
    -- a right-hand side that neither list has is not seen in either
    · have hnone : ∀ p ∈ ps ++ qs, p.rhs ≠ rhs := fun p hp heq => hrhs ⟨p, hp, heq⟩
      obtain ⟨hps, hqs⟩ := List.forall_mem_append.mp hnone
      have hnil : ps.filter (fun p => p.rhs = rhs) = [] :=
        List.filter_eq_nil_iff.mpr fun p hp => by simpa using hps p hp
      have hnil' : qs.filter (fun q => q.rhs = rhs) = [] :=
        List.filter_eq_nil_iff.mpr fun q hq => by simpa using hqs q hq
      rw [firstSeen, firstSeen, hnil, hnil']

instance (ps qs : List Production) : Decidable (SameFirstSeen ps qs) :=
  decidable_of_iff _ sameFirstSeen_iff.symm

namespace Grammar

variable {g g' : Grammar}

/-! ## Derivations -/

/-- Derivations use the shapes of productions only. -/
theorem derivations_eq_of_sameShapes (h : SameShapes g.productions g'.productions)
    (words : List String) (start len : Nat) :
    g.derivations words start len = g'.derivations words start len := by
  ext t
  constructor
  · intro ht
    obtain ⟨symbol, hderives⟩ := ht
    exact ⟨symbol, hderives.mono fun symbol rhs => (h symbol rhs).mp⟩
  · intro ht
    obtain ⟨symbol, hderives⟩ := ht
    exact ⟨symbol, hderives.mono fun symbol rhs => (h symbol rhs).mpr⟩

/-! ## The trees of a cell -/

/-- Cells of grammars with the same shapes list the same trees, in some order. -/
theorem treesOf_perm_of_sameShapes (h : SameShapes g.productions g'.productions)
    (words : List String) (start len : Nat) :
    ((g.chart words).treesOf start len).Perm ((g'.chart words).treesOf start len) := by
  have hnodup := nodup_treesOf g words start len
  have hnodup' := nodup_treesOf g' words start len
  -- neither list repeats a tree, so it is enough that they have the same trees
  apply (List.perm_ext_iff_of_nodup hnodup hnodup').mpr
  intro t
  rw [mem_treesOf, mem_treesOf, derivations_eq_of_sameShapes h]

theorem cellSize_eq_of_sameShapes (h : SameShapes g.productions g'.productions)
    (words : List String) (start len : Nat) :
    (g.chart words).cellSize start len = (g'.chart words).cellSize start len := by
  rw [← length_treesOf, ← length_treesOf]
  exact (treesOf_perm_of_sameShapes h words start len).length_eq

/-- The same cells exist, and they have the same length. -/
theorem size_cell?_eq_of_sameShapes (h : SameShapes g.productions g'.productions)
    (words : List String) (start len : Nat) :
    ((g.chart words).cell? start len).map Cell.size =
      ((g'.chart words).cell? start len).map Cell.size := by
  -- a cell outside the sentence is missing from both charts
  by_cases hcell : 0 < len ∧ start + len ≤ words.length
  · have hsize := cellSize_eq_of_sameShapes h words start len
    rw [Chart.cellSize_eq_length, Chart.cellSize_eq_length] at hsize
    simp [g.cell?_chart words hcell.1 hcell.2, g'.cell?_chart words hcell.1 hcell.2, hsize]
  · have hnone : len = 0 ∨ words.length < start + len := by omega
    rw [g.cell?_chart_eq_none words hnone, g'.cell?_chart_eq_none words hnone]

/-! ## The same lookups -/

/-- A right-hand side has its heads in the order in which they are first seen. -/
theorem headsOf_eq_of_sameFirstSeen (h : SameFirstSeen g.productions g'.productions)
    (rhs : RightSide) : g.headsOf rhs = g'.headsOf rhs := by
  rw [headsOf_eq_eraseDups, headsOf_eq_eraseDups]
  exact h rhs

section SameHeads

variable (h : ∀ rhs, g.headsOf rhs = g'.headsOf rhs)

include h

theorem wordRow_congr (words : List String) : g.wordRow words = g'.wordRow words := by
  have hentries : ∀ word, g.wordEntries word = g'.wordEntries word := by
    intro word
    have hheads : g.preterminalsFor word = g'.preterminalsFor word := h (.word word)
    rw [wordEntries, hheads, wordEntries]
  simp only [wordRow, hentries]

theorem splitRow_congr (n len : Nat) (rows : Array (Array Cell)) :
    g.splitRow n len rows = g'.splitRow n len rows := by
  have hheads : ∀ first second, g.lhsForPair first second = g'.lhsForPair first second :=
    fun first second => h (.pair first second)
  simp only [splitRow, splitEntries, joinedEntries, hheads]

theorem rowsUpTo_congr (words : List String) (count : Nat) :
    g.rowsUpTo words count = g'.rowsUpTo words count := by
  -- a row is computed from the rows before it, which are equal
  induction count with
  | zero => rfl
  | succ count ih =>
    -- the first row is that of the words, the others are computed from those before
    rcases Nat.eq_zero_or_pos count with rfl | pos
    · show #[g.wordRow words] = #[g'.wordRow words]
      rw [wordRow_congr h]
    · rw [rowsUpTo_succ g words pos, rowsUpTo_succ g' words pos, ih, splitRow_congr h]

/-- Grammars in which every right-hand side has the same heads, in the same order, fill the same
charts. -/
theorem chart_congr (words : List String) : g.chart words = g'.chart words := by
  unfold chart
  rw [rowsUpTo_congr h]

end SameHeads

/-! ## Two lists of productions -/

/-- **What parsing depends on.**  Let two lists of productions have the same shapes.  In their
charts of any sentence, the same cells exist and have the same length, no address of an entry is
without a tree, and the trees of every cell are the same up to their order.  If the left-hand sides
of every right-hand side are also first seen in the same order, the charts are equal, entry by entry,
and give the same first parse. -/
theorem chart_of_shapes (ps qs : List Production) (psNe : ps ≠ []) (qsNe : qs ≠ [])
    (h : SameShapes ps qs) :
    let g := ofProductions ps psNe
    let g' := ofProductions qs qsNe
    (∀ words start len,
      ((g.chart words).cell? start len).map Cell.size =
          ((g'.chart words).cell? start len).map Cell.size ∧
        ((g.chart words).refs start len).map (g.chart words).treeAt? =
          ((g.chart words).treesOf start len).map some ∧
        ((g'.chart words).refs start len).map (g'.chart words).treeAt? =
          ((g'.chart words).treesOf start len).map some ∧
        ((g.chart words).treesOf start len).Perm ((g'.chart words).treesOf start len)) ∧
      (SameFirstSeen ps qs → ∀ words,
        g.chart words = g'.chart words ∧ g.parse words = g'.parse words) := by
  intro g g'
  have hshapes : SameShapes g.productions g'.productions := h
  constructor
  · intro words start len
    refine ⟨?_, ?_, ?_, ?_⟩
    · exact size_cell?_eq_of_sameShapes hshapes words start len
    · exact g.map_treeAt?_refs words start len
    · exact g'.map_treeAt?_refs words start len
    · exact treesOf_perm_of_sameShapes hshapes words start len
  · intro hseen words
    have hheads : ∀ rhs, g.headsOf rhs = g'.headsOf rhs := headsOf_eq_of_sameFirstSeen hseen
    have hchart : g.chart words = g'.chart words := chart_congr hheads words
    exact ⟨hchart, congrArg Chart.render hchart⟩

/-- Of three lists with the same shapes, the second shows the heads of `x` in another order, and
only the trees of its cells are shown to be the same; the third shows them in the same order, and
its chart is equal.  Some of the probabilities are no numbers or zero. -/
theorem chart_of_shapes_reordered :
    ∃ g g' g'' : Grammar,
      g.productions =
        [⟨"S", .pair "S" "S", .ofMagnitude .one⟩, ⟨"S", .word "x", .ofMagnitude .one⟩,
          ⟨"T", .word "x", .ofMagnitude .one⟩] ∧
      g'.productions =
        [⟨"T", .word "x", .nan⟩, ⟨"S", .word "x", .ofMagnitude .one⟩,
          ⟨"S", .pair "S" "S", .ofMagnitude .one⟩, ⟨"S", .word "x", .ofMagnitude .zero⟩] ∧
      g''.productions =
        [⟨"S", .word "x", .nan⟩, ⟨"S", .pair "S" "S", .ofMagnitude .one⟩,
          ⟨"T", .word "x", .ofMagnitude .one⟩, ⟨"S", .word "x", .ofMagnitude .zero⟩] ∧
      SameShapes g.productions g'.productions ∧
      ((g.chart ["x", "x"]).treesOf 0 2).Perm ((g'.chart ["x", "x"]).treesOf 0 2) ∧
      SameShapes g.productions g''.productions ∧ SameFirstSeen g.productions g''.productions ∧
      g.chart ["x", "x"] = g''.chart ["x", "x"] := by
  have hqs : SameShapes
      [⟨"S", .pair "S" "S", .ofMagnitude .one⟩, ⟨"S", .word "x", .ofMagnitude .one⟩,
        ⟨"T", .word "x", .ofMagnitude .one⟩]
      [⟨"T", .word "x", .nan⟩, ⟨"S", .word "x", .ofMagnitude .one⟩,
        ⟨"S", .pair "S" "S", .ofMagnitude .one⟩, ⟨"S", .word "x", .ofMagnitude .zero⟩] := by
    decide
  have hrs : SameShapes
      [⟨"S", .pair "S" "S", .ofMagnitude .one⟩, ⟨"S", .word "x", .ofMagnitude .one⟩,
        ⟨"T", .word "x", .ofMagnitude .one⟩]
      [⟨"S", .word "x", .nan⟩, ⟨"S", .pair "S" "S", .ofMagnitude .one⟩,
        ⟨"T", .word "x", .ofMagnitude .one⟩, ⟨"S", .word "x", .ofMagnitude .zero⟩] := by
    decide
  have hperm := (chart_of_shapes _ _ (List.cons_ne_nil _ _) (List.cons_ne_nil _ _) hqs).1
    ["x", "x"] 0 2
  have hchart := (chart_of_shapes _ _ (List.cons_ne_nil _ _) (List.cons_ne_nil _ _) hrs).2
    (by decide) ["x", "x"]
  exact ⟨_, _, ofProductions _ (List.cons_ne_nil _ _), rfl, rfl, rfl, hqs, hperm.2.2.2, hrs,
    by decide, hchart.1⟩

end Grammar

end PhraseGrammar
