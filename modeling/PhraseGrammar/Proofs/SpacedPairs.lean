import PhraseGrammar.Proofs.Lookup
import PhraseGrammar.Proofs.PrintedGrammars

/-!
# Pairs written with a space

A pair of symbols can be asked for by one text, its two symbols with a space between them.  The text
is cut at its first space, so the first symbol must not hold one; the second symbol may.  Two pairs
that are written alike, such as `a b` with `c` and `a` with `b c`, stay apart in the table of pairs,
and the text asks for the one whose first symbol is shorter.

In a grammar that was read from a text no symbol holds white space.  There the texts that find
something are those of the grammar's pairs.

## Main statements

- `splitPair?_eq_some_iff`: the two sides of a text's first space.
- `lhsFor_spaced`, `lhsFor_eq_nil`: what a text finds.
- `headsOf_ne_nil_iff`: a right-hand side has heads iff a production has it.
- `lookups_agree`: all lookups of a grammar, from its list of productions.
-/

namespace PhraseGrammar

namespace Grammar

/-! ## The first space of a text -/

/-- The text of a pair: its symbols with a space between them. -/
theorem toList_spaced (first second : String) :
    (first ++ " " ++ second).toList = first.toList ++ ' ' :: second.toList := by
  simp

private theorem ne_space_of_not_mem {cs : List Char} (h : ' ' ∉ cs) :
    ∀ c ∈ cs, (c != ' ') = true := by
  intro c hc
  apply bne_iff_ne.mpr
  intro heq
  exact h (heq ▸ hc)

/-- A text without a space is not cut. -/
theorem splitPair?_eq_none {text : String} (h : ' ' ∉ text.toList) : splitPair? text = none := by
  have hdrop : text.toList.dropWhile (· != ' ') = [] :=
    List.dropWhile_eq_nil_iff.mpr (ne_space_of_not_mem h)
  simp [splitPair?, hdrop]

/-- The text of a pair is cut between its symbols, if the first one holds no space. -/
theorem splitPair?_spaced {first : String} (h : ' ' ∉ first.toList) (second : String) :
    splitPair? (first ++ " " ++ second) = some (first, second) := by
  have hrun := ne_space_of_not_mem h
  have hends : Text.EndsRun (· != ' ') (' ' :: second.toList) := by simp
  have htake := Text.takeWhile_run hrun hends
  have hdrop := Text.dropWhile_run hrun hends
  simp only [splitPair?, toList_spaced, htake, hdrop, String.ofList_toList]

/-- A text is cut into what stands before and after its first space. -/
theorem splitPair?_eq_some_iff {text first second : String} :
    splitPair? text = some (first, second) ↔
      ' ' ∉ first.toList ∧ text = first ++ " " ++ second := by
  constructor
  · intro h
    -- the first space ends the run of characters that are no spaces
    obtain ⟨run, rest, htext, hrun, hrest⟩ := Text.exists_run (· != ' ') text.toList
    have hspace : ' ' ∉ run := fun hmem => by simpa using hrun ' ' hmem
    obtain rfl : String.ofList (run ++ rest) = text := by rw [← htext, String.ofList_toList]
    cases rest with
    | nil =>
      rw [splitPair?_eq_none (by simpa using hspace)] at h
      cases h
    | cons c rest =>
      -- a run of other characters that ends is ended by a space
      obtain rfl : c = ' ' := by simpa using hrest
      have hcut : String.ofList (run ++ ' ' :: rest) =
          String.ofList run ++ " " ++ String.ofList rest := by
        simp [← String.toList_inj]
      rw [hcut, splitPair?_spaced (by simpa using hspace), Option.some.injEq, Prod.mk.injEq] at h
      obtain ⟨rfl, rfl⟩ := h
      exact ⟨by simpa using hspace, hcut⟩
  · intro h
    obtain ⟨hspace, rfl⟩ := h
    exact splitPair?_spaced hspace second

/-! ## What a text finds -/

variable (g : Grammar)

theorem lhsFor_spaced {first : String} (h : ' ' ∉ first.toList) (second : String) :
    g.lhsFor (first ++ " " ++ second) = g.lhsForPair first second := by
  simp only [lhsFor, splitPair?_spaced h]

theorem lhsFor_eq_nil {text : String} (h : ' ' ∉ text.toList) : g.lhsFor text = [] := by
  simp only [lhsFor, splitPair?_eq_none h]

/-- Something expands to a right-hand side iff a production has it. -/
theorem headsOf_ne_nil_iff (rhs : RightSide) :
    g.headsOf rhs ≠ [] ↔ ∃ p ∈ g.productions, p.rhs = rhs := by
  constructor
  · intro h
    obtain ⟨symbol, hsymbol⟩ := List.exists_mem_of_ne_nil _ h
    obtain ⟨p, hp, -, hrhs⟩ := g.mem_headsOf.mp hsymbol
    exact ⟨p, hp, hrhs⟩
  · intro h
    obtain ⟨p, hp, hrhs⟩ := h
    exact List.ne_nil_of_mem (g.mem_headsOf.mpr ⟨p, hp, rfl, hrhs⟩)

/-- Every head of a right-hand side is a nonterminal. -/
theorem isNonterminal_of_mem_headsOf (rhs : RightSide) {symbol : String}
    (h : symbol ∈ g.headsOf rhs) : g.isNonterminal symbol = true := by
  obtain ⟨p, hp, hlhs, -⟩ := g.mem_headsOf.mp h
  exact g.isNonterminal_iff.mpr ⟨p, hp, hlhs⟩

variable {g}

theorem space_not_mem_of_wellFormed {p : Production} (h : Source.WellFormed p) {symbol : String}
    (hsymbol : symbol ∈ p.symbols) : ' ' ∉ symbol.toList := by
  intro hspace
  obtain ⟨hblank, -⟩ := (h.symbols symbol hsymbol).2 ' ' hspace
  exact absurd hblank (by decide)

/-- Where no symbol holds white space, the texts that find something are those of the pairs. -/
theorem lhsFor_ne_nil_iff (h : ∀ p ∈ g.productions, Source.WellFormed p) {text : String} :
    g.lhsFor text ≠ [] ↔
      ∃ p ∈ g.productions, ∃ first second, p.rhs = .pair first second ∧
        text = first ++ " " ++ second := by
  constructor
  · intro hfound
    -- a text that finds something has a space to be cut at
    cases hcut : splitPair? text with
    | none => simp [lhsFor, hcut] at hfound
    | some pair =>
      obtain ⟨first, second⟩ := pair
      simp only [lhsFor, hcut] at hfound
      obtain ⟨p, hp, hrhs⟩ := (g.headsOf_ne_nil_iff (.pair first second)).mp hfound
      exact ⟨p, hp, first, second, hrhs, (splitPair?_eq_some_iff.mp hcut).2⟩
  · intro h'
    obtain ⟨p, hp, first, second, hrhs, rfl⟩ := h'
    have hfirst : first ∈ p.symbols := by simp [Production.symbols, hrhs, RightSide.symbols]
    rw [lhsFor_spaced g (space_not_mem_of_wellFormed (h p hp) hfirst)]
    exact (g.headsOf_ne_nil_iff (.pair first second)).mpr ⟨p, hp, hrhs⟩

/-! ## All lookups -/

/-- **The index agrees with the productions.**  For every list of productions that is not empty, a
symbol's productions are those of the list with that left-hand side, in order; the heads of a pair
and of a word are the left-hand sides of the productions with just that right-hand side, each where
it is first seen and only there, and are nonterminals; the nonterminals are the left-hand sides; and
a text asks for the pair around its first space.  In a grammar that was read, a text finds
something exactly if it is a production's pair with a space between its symbols. -/
theorem lookups_agree :
    (∀ (ps : List Production) (ne : ps ≠ []),
      let g := ofProductions ps ne
      (∀ x, g.productionsFor x = ps.filter fun p => p.lhs = x) ∧
        (∀ a b,
          g.lhsForPair a b =
              ((ps.filter fun p => p.rhs = .pair a b).map Production.lhs).eraseDups ∧
            (g.lhsForPair a b).Nodup ∧ ∀ x ∈ g.lhsForPair a b, g.isNonterminal x = true) ∧
        (∀ w,
          g.preterminalsFor w =
              ((ps.filter fun p => p.rhs = .word w).map Production.lhs).eraseDups ∧
            (g.preterminalsFor w).Nodup ∧ ∀ x ∈ g.preterminalsFor w, g.isNonterminal x = true) ∧
        (∀ x, g.isNonterminal x = true ↔ ∃ p ∈ ps, p.lhs = x) ∧
        (∀ a b, ' ' ∉ a.toList → g.lhsFor (a ++ " " ++ b) = g.lhsForPair a b) ∧
        ∀ text, ' ' ∉ text.toList → g.lhsFor text = []) ∧
      ∀ (source : String) (g : Grammar), Grammar.read source = .ok g → ∀ text,
        g.lhsFor text ≠ [] ↔
          ∃ p ∈ g.productions, ∃ a b, p.rhs = .pair a b ∧ text = a ++ " " ++ b := by
  constructor
  · intro ps ne g
    refine ⟨?_, ?_, ?_, ?_, ?_, ?_⟩
    · exact g.productionsFor_eq_filter
    · intro a b
      refine ⟨g.headsOf_eq_eraseDups (.pair a b), g.nodup_headsOf (.pair a b), ?_⟩
      exact fun x => g.isNonterminal_of_mem_headsOf (.pair a b)
    · intro w
      refine ⟨g.headsOf_eq_eraseDups (.word w), g.nodup_headsOf (.word w), ?_⟩
      exact fun x => g.isNonterminal_of_mem_headsOf (.word w)
    · exact fun x => g.isNonterminal_iff
    · exact fun a b h => g.lhsFor_spaced h b
    · exact fun text => g.lhsFor_eq_nil
  · intro source g hread text
    exact lhsFor_ne_nil_iff (Source.wellFormed_of_readProductions (read_eq_ok_iff.mp hread))

/-- The pairs `a b` with `c` and `a` with `b c` are written alike and stay apart; `a b c` asks for
the second of them, whose heads are `S` and the empty symbol.  In a grammar that was read, `S S`
finds something. -/
theorem lookups_agree_alike :
    (∃ g : Grammar,
      g.productions =
        [⟨"T", .pair "a b" "c", .ofMagnitude .one⟩, ⟨"S", .pair "a" "b c", .ofMagnitude .one⟩,
          ⟨"", .pair "a" "b c", .ofMagnitude .one⟩, ⟨"S", .pair "a" "b c", .ofMagnitude .zero⟩] ∧
      g.lhsForPair "a b" "c" = ["T"] ∧ g.lhsForPair "a" "b c" = ["S", ""] ∧
      g.isNonterminal "" = true ∧ ' ' ∉ "a".toList ∧ g.lhsFor "a b c" = ["S", ""] ∧
      ' ' ∉ "abc".toList ∧ g.lhsFor "abc" = []) ∧
    ∃ g : Grammar, Grammar.read "1 S S S\n1 S x" = .ok g ∧ g.lhsFor "S S" ≠ [] := by
  constructor
  · have ne : [(⟨"T", .pair "a b" "c", .ofMagnitude .one⟩ : Production),
        ⟨"S", .pair "a" "b c", .ofMagnitude .one⟩, ⟨"", .pair "a" "b c", .ofMagnitude .one⟩,
        ⟨"S", .pair "a" "b c", .ofMagnitude .zero⟩] ≠ [] := List.cons_ne_nil _ _
    obtain ⟨-, hpair, -, -, hspaced, hnone⟩ := lookups_agree.1 _ ne
    have htwo : (ofProductions _ ne).lhsForPair "a" "b c" = ["S", ""] := (hpair "a" "b c").1
    have hempty : "" ∈ (ofProductions _ ne).lhsForPair "a" "b c" := by simp [htwo]
    have ha : ' ' ∉ "a".toList := by decide
    have habc : ' ' ∉ "abc".toList := by decide
    exact ⟨_, rfl, (hpair "a b" "c").1, htwo, (hpair "a" "b c").2.2 "" hempty, ha,
      (hspaced "a" "b c" ha).trans htwo, habc, hnone "abc" habc⟩
  · refine ⟨_, read_twoLines, (lookups_agree.2 _ _ read_twoLines "S S").mpr ?_⟩
    exact ⟨_, List.mem_cons_self, "S", "S", rfl, rfl⟩

end Grammar

end PhraseGrammar
