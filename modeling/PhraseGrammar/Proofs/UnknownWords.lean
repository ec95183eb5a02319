import PhraseGrammar.Proofs.GeneratedParses
import PhraseGrammar.Proofs.SentenceLines

/-!
# Words that a grammar does not know

A word to which no symbol expands leaves its own cell empty, and with it the cell of every stretch
that covers the word: whichever way the stretch is cut, the word stands in one of the two parts, and
an empty part has no entry to refer to.  One unknown word is enough to keep a sentence from being
parsed.

On a closed grammar the names of nonterminals are such words.  So a sentence that has a parse has no
such name in it, and a filter that takes the names out does not change the sentence.

## Main statements

- `entries_chart_of_unknown`: no stretch over an unknown word has entries.
- `IsClosed.preterminalsFor_eq_nil`: a closed grammar does not know the names of its nonterminals.
- `IsClosed.filter_keeps_parses`: the filter never costs a parse.
-/

namespace PhraseGrammar

namespace Grammar

variable (g : Grammar) (words : List String)

/-! ## Stretches over an unknown word -/

section Unknown

variable {start len position : Nat} {w : String}

/-- A stretch over a word that no symbol expands to has no entries. -/
theorem entries_chart_of_unknown (hw : words[position]? = some w)
    (unknown : g.preterminalsFor w = []) (hstart : start ≤ position)
    (hstop : position < start + len) : (g.chart words).entries start len = [] := by
  induction len using Nat.strongRecOn generalizing start with
  | ind len ih =>
    apply List.eq_nil_iff_forall_not_mem.mpr
    intro e he
    -- the grammar would have to license an entry
    cases (g.mem_entries_chart words).mp he with
    | @word v symbol hword hsymbol =>
      have hv : words[start]? = some v := hword
      -- the only word of the stretch is the unknown one
      obtain rfl : start = position := by omega
      obtain rfl : v = w := Option.some.inj (hv.symm.trans hw)
      rw [unknown] at hsymbol
      cases hsymbol
    | @split k _ i j l r symbol pos shorter hleft hright =>
      rw [Chart.get?_eq_getElem?] at hleft hright
      dsimp only at hleft hright
      -- the word stands before the cut or after it
      rcases Nat.lt_or_ge position (start + k) with hbefore | hafter
      · rw [ih k shorter hstart hbefore] at hleft
        cases hleft
      · have hshorter : len - k < len := Nat.sub_lt (Nat.lt_trans pos shorter) pos
        have hlast : position < start + k + (len - k) := by omega
        rw [ih (len - k) hshorter hafter hlast] at hright
        cases hright

/-- The cell of a stretch over an unknown word is there, and empty. -/
theorem cell?_chart_of_unknown (hw : words[position]? = some w)
    (unknown : g.preterminalsFor w = []) (hstart : start ≤ position)
    (hstop : position < start + len) (fits : start + len ≤ words.length) :
    (g.chart words).cell? start len = some Cell.empty := by
  have pos : 0 < len := by omega
  rw [g.cell?_chart words pos fits, g.entries_chart_of_unknown words hw unknown hstart hstop]
  rfl

/-- All words of a sentence that has a parse are known. -/
theorem preterminalsFor_ne_nil_of_parse (hparse : 0 < (g.chart words).parseCount)
    (hw : w ∈ words) : g.preterminalsFor w ≠ [] := by
  intro unknown
  obtain ⟨position, hposition⟩ := List.mem_iff_getElem?.mp hw
  obtain ⟨hlt, -⟩ := List.getElem?_eq_some_iff.mp hposition
  -- the whole sentence is a stretch over each of its words
  have hstop : position < 0 + words.length := by omega
  have hnone := g.entries_chart_of_unknown words hposition unknown (Nat.zero_le position) hstop
  have hcount : (g.chart words).parseCount = 0 := by
    rw [Chart.parseCount, size_chart, Chart.cellSize_eq_length, hnone, List.length_nil]
  exact absurd hcount (Nat.ne_of_gt hparse)

end Unknown

/-! ## Names of nonterminals -/

variable {g}

/-- No symbol of a closed grammar expands to the name of a nonterminal as a word. -/
theorem IsClosed.preterminalsFor_eq_nil (closed : g.IsClosed) {w : String}
    (hw : g.isNonterminal w = true) : g.preterminalsFor w = [] := by
  apply List.eq_nil_iff_forall_not_mem.mpr
  intro symbol hsymbol
  have hhead : symbol ∈ g.headsOf (.word w) := hsymbol
  obtain ⟨p, hp, -, hrhs⟩ := g.mem_headsOf.mp hhead
  rw [closed.isNonterminal_of_word hp hrhs] at hw
  cases hw

/-- The filter takes no word out of a sentence that a closed grammar has a parse for. -/
theorem IsClosed.withoutNonterminals_eq (closed : g.IsClosed) {s : Sentence}
    (hparse : 0 < (g.chart s.words).parseCount) : s.withoutNonterminals g = s := by
  apply Sentence.withoutNonterminals_eq
  intro w hw
  have hknown := g.preterminalsFor_ne_nil_of_parse s.words hparse hw
  rw [← Bool.not_eq_true]
  exact fun hname => hknown (closed.preterminalsFor_eq_nil hname)

/-- **The filter never costs a parse.**  Let a grammar be closed.  If a sentence has a parse, with
any root, then the sentence without the names of nonterminals is the sentence itself, and the first
parse and the parses of the start symbol are the same with the filter and without it.  In the chart
of any words, the cell of a stretch is there and empty if the stretch covers the name of a
nonterminal, or any other word that no symbol expands to. -/
theorem IsClosed.filter_keeps_parses (closed : g.IsClosed) :
    (∀ s : Sentence, 0 < (g.chart s.words).parseCount →
      s.withoutNonterminals g = s ∧
        g.parse (s.withoutNonterminals g).words = g.parse s.words ∧
        g.parseTrees (s.withoutNonterminals g).words = g.parseTrees s.words) ∧
    ∀ (words : List String) (start len position : Nat) (w : String),
      start + len ≤ words.length → start ≤ position → position < start + len →
      words[position]? = some w → g.isNonterminal w = true ∨ g.preterminalsFor w = [] →
      (g.chart words).cell? start len = some Cell.empty := by
  constructor
  · intro s hparse
    rw [closed.withoutNonterminals_eq hparse]
    exact ⟨rfl, rfl, rfl⟩
  · intro words start len position w fits hstart hstop hw hunknown
    -- names of nonterminals are unknown as words
    have unknown : g.preterminalsFor w = [] := hunknown.elim closed.preterminalsFor_eq_nil id
    exact g.cell?_chart_of_unknown words hw unknown hstart hstop fits

end Grammar

/-- A sentence that stays as it is, and the name of a nonterminal that empties what covers it. -/
theorem filter_keeps_parses_doubling :
    doubling.IsClosed ∧ 0 < (doubling.chart ["x", "x"]).parseCount ∧
      Sentence.withoutNonterminals ⟨["x", "x"], some '.'⟩ doubling = ⟨["x", "x"], some '.'⟩ ∧
      doubling.isNonterminal "S" = true ∧
      (doubling.chart ["x", "S", "x"]).cell? 0 2 = some Cell.empty ∧
      (doubling.chart ["x", "S", "x"]).cell? 0 3 = some Cell.empty := by
  have hmem := (doubling.mem_treesOf ["x", "x"]).mpr ⟨"S", derives_doubled⟩
  have hparse : 0 < (doubling.chart ["x", "x"]).parseCount := by
    rw [Chart.parseCount, Grammar.size_chart, ← Grammar.length_treesOf]
    exact List.length_pos_of_mem hmem
  obtain ⟨hkept, hempty⟩ := Grammar.IsClosed.filter_keeps_parses isClosed_doubling
  refine ⟨isClosed_doubling, hparse, (hkept ⟨_, some '.'⟩ hparse).1, isNonterminal_doubling, ?_, ?_⟩
  · exact hempty _ 0 2 1 "S" (by decide) (by decide) (by decide) rfl (.inl isNonterminal_doubling)
  · exact hempty _ 0 3 1 "S" (by decide) (by decide) (by decide) rfl (.inl isNonterminal_doubling)

end PhraseGrammar
