import Mathlib.Logic.Function.Iterate
import PhraseGrammar.Proofs.InPlaceFilling
import PhraseGrammar.Proofs.PrintedGrammars
import PhraseGrammar.Proofs.SpacedPairs

/-!
# Productions over undefined symbols

A symbol is *undefined* in a grammar if a pair names it and no production expands it.  The closure
check reports such pairs.  A parser never applies them: it looks up pairs of heads only, and every
head in a chart is the left-hand side of some production.  So the reported pairs can be taken out of
the list without any chart being changed.

What is taken out may have been all that expanded a symbol.  Pairs with that symbol are then
reported in turn, and can be taken out in a further round, and so on.

## Main statements

- `reportsUndefined_iff`: what the closure check reports of a production.
- `chart_eq_of_headsOf`: a chart asks only for words and for pairs of nonterminals.
- `chart_of_dropUndefined`: any number of rounds leaves every chart as it is.
-/

namespace PhraseGrammar

namespace Grammar

variable {g g' : Grammar}

/-! ## Reported pairs -/

/-- Whether the closure check reports a pair for one of its symbols having no productions. -/
def reportsUndefined (g : Grammar) (p : Production) : Bool :=
  p.rhs.isPair && p.rhs.symbols.any fun symbol => .undefined p.lhs symbol ∈ g.problems

/-- A list without the pairs that the closure check of its grammar reports for an undefined
symbol. -/
def dropUndefined (ps : List Production) : List Production :=
  match ofList? ps with
  | none => []
  | some g => ps.filter fun p => !g.reportsUndefined p

/-- Only pairs have undefined symbols, and an undefined symbol is one without productions. -/
theorem undefined_mem_problemsOf {p : Production} {lhs symbol : String} :
    .undefined lhs symbol ∈ g.problemsOf p ↔
      p.lhs = lhs ∧ p.rhs.isPair = true ∧ symbol ∈ p.rhs.symbols ∧
        g.isNonterminal symbol = false := by
  unfold problemsOf
  cases p.rhs with
  | word w => by_cases hw : g.isNonterminal w = true <;> simp [hw, RightSide.isPair]
  | pair a b => simp [RightSide.isPair, RightSide.symbols, and_comm]

/-- A pair is reported exactly if one of its symbols has no productions. -/
theorem reportsUndefined_iff {p : Production} (hp : p ∈ g.productions) :
    g.reportsUndefined p = true ↔
      p.rhs.isPair = true ∧ ∃ symbol ∈ p.rhs.symbols, g.isNonterminal symbol = false := by
  simp only [reportsUndefined, Bool.and_eq_true, List.any_eq_true, decide_eq_true_eq, problems,
    List.mem_flatMap, undefined_mem_problemsOf]
  apply and_congr_right
  intro hpair
  constructor
  -- another pair may have been reported for the same symbol, but this one has it as well
  · intro h
    obtain ⟨symbol, hsymbol, -, -, -, -, -, hundefined⟩ := h
    exact ⟨symbol, hsymbol, hundefined⟩
  · intro h
    obtain ⟨symbol, hsymbol, hundefined⟩ := h
    exact ⟨symbol, hsymbol, p, hp, rfl, hpair, hsymbol, hundefined⟩

theorem dropUndefined_nil : dropUndefined [] = [] := rfl

theorem dropUndefined_productions (g : Grammar) :
    dropUndefined g.productions = g.productions.filter fun p => !g.reportsUndefined p := by
  have hlist : ofList? g.productions = some g := by
    rw [ofList?, dif_pos g.productions_ne_nil]
    exact congrArg some (eq_of_productions rfl)
  rw [dropUndefined, hlist]

/-- The pairs that are taken out are those with a symbol that is no left-hand side of the list. -/
theorem dropUndefined_eq_filter (ps : List Production) :
    dropUndefined ps = ps.filter fun p =>
      !(p.rhs.isPair && p.rhs.symbols.any fun symbol => !ps.any fun q => q.lhs == symbol) := by
  -- there is no grammar of no productions, and nothing to take out
  by_cases ne : ps = []
  · rw [ne]
    rfl
  · apply (dropUndefined_productions (ofProductions ps ne)).trans
    apply List.filter_congr
    intro p hp
    apply congrArg not
    apply Bool.eq_iff_iff.mpr
    have hnone : ∀ symbol, (ofProductions ps ne).isNonterminal symbol =
        ps.any fun q => q.lhs == symbol := Index.isNonterminal_ofProductions ps
    rw [reportsUndefined_iff hp]
    simp [hnone]

/-! ## What a chart looks up -/

/-- The head of every entry of a filled chart is a nonterminal. -/
theorem isNonterminal_of_mem_entries {words : List String} {start len : Nat} {e : Entry}
    (he : e ∈ (g.chart words).entries start len) : g.isNonterminal e.lhs = true := by
  cases (g.mem_entries_chart words).mp he with
  | @word w _ _ hsymbol => exact g.isNonterminal_of_mem_headsOf (.word w) hsymbol
  | @split _ _ _ _ l r _ _ _ _ _ hsymbol =>
    exact g.isNonterminal_of_mem_headsOf (.pair l.lhs r.lhs) hsymbol

/-- Grammars that expand to the pairs of the heads alike join two lists alike. -/
theorem joinings_congr {left right : List Entry}
    (h : ∀ l ∈ left, ∀ r ∈ right, g.lhsForPair l.lhs r.lhs = g'.lhsForPair l.lhs r.lhs)
    (start leftLen rightLen : Nat) :
    g.joinings start leftLen rightLen left right =
      g'.joinings start leftLen rightLen left right := by
  unfold joinings
  apply List.flatMap_congr
  intro ⟨l, i⟩ hl
  apply List.flatMap_congr
  intro ⟨r, j⟩ hr
  have hheads := h l (List.fst_mem_of_mem_zipIdx hl) r (List.fst_mem_of_mem_zipIdx hr)
  simp only [hheads]

section Lookups

variable (hword : ∀ w, g.headsOf (.word w) = g'.headsOf (.word w))
  (hpair : ∀ a b, g.isNonterminal a = true → g.isNonterminal b = true →
    g.headsOf (.pair a b) = g'.headsOf (.pair a b))

include hword hpair

/-- The cells that one grammar fills solve the equations of another, if both have the same heads for
words and for pairs of nonterminals of the first. -/
theorem cellEquations_of_headsOf (words : List String) :
    g'.CellEquations words (g.entryTable words) where
  exists_iff := (g.cellEquations_entryTable words).exists_iff
  word start w hw := by
    have hheads : g.preterminalsFor w = g'.preterminalsFor w := hword w
    rw [← hheads]
    exact (g.cellEquations_entryTable words).word start w hw
  split start len hlen fits := by
    rw [(g.cellEquations_entryTable words).split start len hlen fits]
    apply congrArg some
    apply List.flatMap_congr
    intro k hk
    obtain ⟨hpos, hshorter⟩ := List.mem_range'_1.mp hk
    rw [g.entryTable_eq_some words hpos (by omega), g.entryTable_eq_some words (by omega) (by omega)]
    -- all that is looked up for a cut is a pair of heads
    apply joinings_congr
    intro l hl r hr
    exact hpair l.lhs r.lhs (isNonterminal_of_mem_entries hl) (isNonterminal_of_mem_entries hr)

/-- Grammars with the same heads for words, and for pairs of nonterminals of one of them, fill the
same charts. -/
theorem chart_eq_of_headsOf (words : List String) : g.chart words = g'.chart words := by
  have htable : g.entryTable words = g'.entryTable words :=
    (cellEquations_of_headsOf hword hpair words).eq (g'.cellEquations_entryTable words)
  have hsize : (g.chart words).rows.size = (g'.chart words).rows.size := by
    simp only [chart, size_rowsUpTo]
  refine Chart.ext_cell? rfl hsize ?_
  intro start len
  by_cases hcell : 0 < len ∧ start + len ≤ words.length
  · obtain ⟨pos, fits⟩ := hcell
    -- a cell is made from the list of its entries
    have hentries := congrFun (congrFun htable start) len
    rw [g.entryTable_eq_some words pos fits, g'.entryTable_eq_some words pos fits,
      Option.some.injEq] at hentries
    rw [g.cell?_chart words pos fits, g'.cell?_chart words pos fits, hentries]
  · have hnone : len = 0 ∨ words.length < start + len := by omega
    rw [g.cell?_chart_eq_none words hnone, g'.cell?_chart_eq_none words hnone]

end Lookups

/-! ## Rounds -/

/-- A right-hand side keeps its heads if all of its productions are kept. -/
theorem headsOf_eq_of_filter {keep : Production → Bool}
    (h : g'.productions = g.productions.filter keep) {rhs : RightSide}
    (hkeep : ∀ p ∈ g.productions, p.rhs = rhs → keep p = true) :
    g.headsOf rhs = g'.headsOf rhs := by
  have hsame : g.productions.filter (fun p => p.rhs = rhs) =
      g.productions.filter fun p => decide (p.rhs = rhs) && keep p := by
    apply List.filter_congr
    intro p hp
    by_cases hrhs : p.rhs = rhs
    · simp [hrhs, hkeep p hp hrhs]
    · simp [hrhs]
  rw [headsOf_eq_eraseDups, headsOf_eq_eraseDups, h, List.filter_filter, hsame]

/-- One round takes no production out that a chart of the grammar applies. -/
theorem chart_eq_of_filter (h : g'.productions = g.productions.filter fun p => !g.reportsUndefined p)
    (words : List String) : g.chart words = g'.chart words := by
  apply chart_eq_of_headsOf
  · intro w
    apply headsOf_eq_of_filter h
    intro p hp hrhs
    -- words are never reported as undefined
    have hnot : ¬ g.reportsUndefined p = true := by
      rw [reportsUndefined_iff hp, hrhs]
      simp [RightSide.isPair]
    simpa using hnot
  · intro a b ha hb
    apply headsOf_eq_of_filter h
    intro p hp hrhs
    -- nor is a pair with two symbols that have productions
    have hnot : ¬ g.reportsUndefined p = true := by
      rw [reportsUndefined_iff hp, hrhs]
      simp [RightSide.symbols, ha, hb]
    simpa using hnot

/-- **Productions over undefined symbols are dead.**  Take the pairs that the closure check reports
for an undefined symbol out of a list of productions, then those that it reports for what is left,
and so on for any number of rounds.  As long as there is a production left, the grammar of what is
left fills the same chart for every sentence as the grammar of the whole list. -/
theorem chart_of_dropUndefined (ps : List Production) (ne : ps ≠ []) (rounds : Nat)
    (remains : dropUndefined^[rounds] ps ≠ []) (words : List String) :
    (ofProductions (dropUndefined^[rounds] ps) remains).chart words =
      (ofProductions ps ne).chart words := by
  -- each round is the first one for the list that is left before it
  induction rounds generalizing ps with
  | zero => rfl
  | succ rounds ih =>
    -- if something is left in the end, then something is left after the first round
    have neFirst : dropUndefined ps ≠ [] := by
      intro hnil
      apply remains
      rw [Function.iterate_succ_apply, hnil]
      exact Function.iterate_fixed dropUndefined_nil rounds
    have hfirst : (ofProductions ps ne).chart words =
        (ofProductions (dropUndefined ps) neFirst).chart words :=
      chart_eq_of_filter (dropUndefined_productions (ofProductions ps ne)) words
    rw [hfirst]
    exact ih (dropUndefined ps) neFirst remains

/-- Two rounds: `C` has no productions, and once the pair with it is gone, neither has `A`. -/
theorem chart_of_dropUndefined_chain :
    ∃ g g' : Grammar,
      g.productions =
        [⟨"S", .pair "A" "S", .ofMagnitude .one⟩, ⟨"A", .pair "C" "S", .ofMagnitude .one⟩,
          ⟨"S", .pair "S" "S", .ofMagnitude .one⟩, ⟨"S", .word "x", .ofMagnitude .one⟩] ∧
      g'.productions =
        [⟨"S", .pair "S" "S", .ofMagnitude .one⟩, ⟨"S", .word "x", .ofMagnitude .one⟩] ∧
      dropUndefined^[2] g.productions = g'.productions ∧ dropUndefined^[2] g.productions ≠ [] ∧
      g'.chart ["x", "x", "x"] = g.chart ["x", "x", "x"] := by
  have ne : [(⟨"S", .pair "A" "S", .ofMagnitude .one⟩ : Production),
      ⟨"A", .pair "C" "S", .ofMagnitude .one⟩, ⟨"S", .pair "S" "S", .ofMagnitude .one⟩,
      ⟨"S", .word "x", .ofMagnitude .one⟩] ≠ [] := List.cons_ne_nil _ _
  have hrounds : dropUndefined^[2] (ofProductions _ ne).productions =
      [⟨"S", .pair "S" "S", .ofMagnitude .one⟩, ⟨"S", .word "x", .ofMagnitude .one⟩] := by
    simp only [Function.iterate_succ_apply, Function.iterate_zero_apply, dropUndefined_eq_filter]
    rfl
  have remains : dropUndefined^[2] (ofProductions _ ne).productions ≠ [] := by
    rw [hrounds]
    exact List.cons_ne_nil _ _
  have hchart := chart_of_dropUndefined _ ne 2 remains ["x", "x", "x"]
  exact ⟨ofProductions _ ne, ofProductions _ remains, rfl, hrounds, rfl, remains, hchart⟩

end Grammar

end PhraseGrammar
