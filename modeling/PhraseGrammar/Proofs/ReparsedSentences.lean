import PhraseGrammar.Proofs.EncodedLines
import PhraseGrammar.Proofs.GeneratedParses
import PhraseGrammar.Proofs.SentenceLines
import PhraseGrammar.Proofs.WrittenTrees

/-!
# What is generated is found by parsing

A generator writes a derivation in brackets.  The words of the derivation, put on a line with single
spaces and a mark if wanted, are a sentence; and if all words of a grammar are made of letters, a
run that parses this line and writes all trees writes the derivation again, on one line and on no
other.

Nothing is lost on the way.  The words are found on the line, and none of them is taken for a
nonterminal, as the grammar is closed; the chart has a tree for the derivation; and the text of the
tree is no other tree's text and no other line of the output.

## Main statements

- `Derives.exists_hasRule_of_leaf`: the leaves of a derivation are words of the grammar.
- `CommandLine.runParse_line`: what a run on one line writes.
- `count_line_of_sample`: a generated sentence is written exactly once when its words are parsed.
-/

namespace PhraseGrammar

/-! ## The words of a derivation -/

/-- The leaves of a derivation are words that a production expands to. -/
theorem Derives.exists_hasRule_of_leaf {productions : List Production} {words : List String}
    {symbol : String} {start len : Nat} {t : Tree}
    (h : Derives productions words symbol start len t) :
    ∀ w ∈ t.leaves, ∃ lhs, HasRule productions lhs (.word w) := by
  induction h with
  | @word symbol w start rule _ =>
    intro w' hw'
    obtain rfl : w' = w := by simpa [Tree.leaves, Tree.leavesOfAll] using hw'
    exact ⟨symbol, rule⟩
  | pair _ _ _ _ _ ihleft ihright =>
    intro w hw
    simp only [Tree.leaves, Tree.leavesOfAll, List.append_nil, List.mem_append] at hw
    -- a leaf of a pair is a leaf of one of its two children
    rcases hw with hw | hw
    · exact ihleft w hw
    · exact ihright w hw

/-- All words of word rules are made of letters. -/
def Grammar.HasLetterWords (g : Grammar) : Prop :=
  ∀ p ∈ g.productions, ∀ w, p.rhs = .word w → ∀ c ∈ w.toList, c.isAlpha = true

/-- The words of a derivation make a proper sentence, if they are made of letters. -/
theorem Derives.proper {g : Grammar} (hproductions : ∀ p ∈ g.productions, Source.WellFormed p)
    (letters : g.HasLetterWords) {words : List String} {symbol : String} {start len : Nat}
    {t : Tree} (h : Derives g.productions words symbol start len t) {mark : Option Char}
    (hmark : ∀ c ∈ mark, Sentence.isMark c = true) : Sentence.Proper ⟨t.leaves, mark⟩ := by
  refine ⟨?_, ?_, hmark⟩
  · intro w hw
    obtain ⟨lhs, p, hp, rfl, hrhs⟩ := h.exists_hasRule_of_leaf w hw
    have hsymbol := (hproductions p hp).symbols w
    rw [Production.symbols, hrhs] at hsymbol
    exact (hsymbol (by simp [RightSide.symbols])).1
  · intro w hw
    obtain ⟨lhs, p, hp, rfl, hrhs⟩ := h.exists_hasRule_of_leaf w hw
    exact letters p hp w hrhs

/-! ## A run on one line -/

namespace CommandLine

variable {line : String}

/-- A line of ASCII characters without controls is read back from its bytes. -/
theorem byteLines_line (visible : ∀ c ∈ line.toList, 0x20 ≤ c.toNat ∧ c.toNat < 0x80) :
    Text.byteLines (bytesOf (line ++ "\n")) = [bytesOf line] := by
  have hfeed : '\n' ∉ line.toList := fun hmem => absurd (visible _ hmem).1 (by decide)
  have hreturn : line.toList.getLast? ≠ some '\r' := fun hlast =>
    absurd (visible _ (List.mem_of_getLast? hlast)).1 (by decide)
  have hlines : Text.LinesOf (line ++ "\n").toList [line.toList] := by
    rw [String.toList_append]
    exact .feed hfeed hreturn .none
  rw [byteLines_bytesOf, textLines, hlines.lines_eq, List.map_singleton, List.map_singleton,
    String.ofList_toList]

/-- A run whose input is one such line writes what there is to write for it. -/
theorem runParse_line {world : Surroundings} {options : ParseOptions} {source : String}
    {g : Grammar} (hfile : world.file options.grammar = .ok (bytesOf source))
    (hread : Grammar.read source = .ok g) (closed : g.IsClosed)
    (hinput : world.input = bytesOf (line ++ "\n"))
    (visible : ∀ c ∈ line.toList, 0x20 ≤ c.toNat ∧ c.toNat < 0x80) :
    runParse world options = .success (lineText g options line) := by
  have hload : load world options.grammar options.strict = .ok g :=
    load_bytesOf hfile hread closed options.strict
  have hlines : readableLines (Text.byteLines world.input) = ([line], true) := by
    rw [hinput, byteLines_line visible]
    simp [readableLines, decode?_bytesOf]
  simp [runParse, hload, hlines]

end CommandLine

/-! ## From a generator through a parser -/

open CommandLine (bytesOf lineText runParse)

/-- **What is generated is parsed again.**  Let a grammar be read from a text, closed, and with
words of letters only.  The words of a sentence that a generator writes are read back from a line
of their own, with their mark if there is one; and whatever else is asked for, a run that parses
this line and writes all trees as they are writes the sentence on exactly one line. -/
theorem count_line_of_sample {source : String} {gen : Generator}
    (hread : Grammar.read source = .ok gen.grammar) (closed : gen.grammar.IsClosed)
    (letters : gen.grammar.HasLetterWords) {start sentence : String}
    {supply left : Random.Supply} (h : gen.sample start supply = (.ok sentence, left)) :
    ∃ t, gen.expand 0 0 start supply = (.ok t, left) ∧ t.text = sentence ∧
      ∀ mark : Option Char, (∀ c ∈ mark, Sentence.isMark c = true) →
        let spoken : Sentence := ⟨t.leaves, mark⟩
        (Sentence.ofLine spoken.line).withoutNonterminals gen.grammar = spoken ∧
          ∀ options : CommandLine.ParseOptions, options.all = true → options.root = none →
            (Text.lines (lineText gen.grammar options spoken.line).toList).count
                sentence.toList = 1 ∧
              ∀ world : CommandLine.Surroundings,
                world.file options.grammar = .ok (bytesOf source) →
                world.input = bytesOf (spoken.line ++ "\n") →
                (runParse world options).exitCode = 0 ∧
                  (Text.lines (runParse world options).stdout.toList).count
                    sentence.toList = 1 := by
  have hproductions := Source.wellFormed_of_readProductions (Grammar.read_eq_ok_iff.mp hread)
  obtain ⟨t, hexpand, rfl, hderives⟩ := Generator.exists_derivation_of_sample closed h
  refine ⟨t, hexpand, rfl, ?_⟩
  intro mark hmark spoken
  have proper : spoken.Proper := hderives.proper hproductions letters hmark
  -- the words are those of the line, and the grammar does not expand them
  have hterminal : ∀ w ∈ spoken.words, gen.grammar.isNonterminal w = false := by
    intro w hw
    obtain ⟨lhs, p, hp, -, hrhs⟩ := hderives.exists_hasRule_of_leaf w hw
    exact closed.isNonterminal_of_word hp hrhs
  have hspoken : (Sentence.ofLine spoken.line).withoutNonterminals gen.grammar = spoken := by
    rw [Sentence.ofLine_line proper, Sentence.withoutNonterminals_eq hterminal]
  refine ⟨hspoken, ?_⟩
  intro options all noRoot
  have hmem : t ∈ (gen.grammar.chart
      ((Sentence.ofLine spoken.line).withoutNonterminals gen.grammar).words).trees := by
    rw [hspoken, gen.grammar.trees_chart]
    exact (gen.grammar.mem_treesOf t.leaves).mpr ⟨start, hderives⟩
  have hcount := CommandLine.count_lineText hproductions all noRoot hmem
  refine ⟨hcount, ?_⟩
  intro world hfile hinput
  rw [CommandLine.runParse_line hfile hread closed hinput proper.toNat_line]
  exact ⟨rfl, hcount⟩

/-- The grammar that doubles generates `(S (S x) (S x))`; the words of it, with a full stop, are the
line `x x.`, and parsing that line writes the sentence once. -/
theorem count_line_of_sample_doubled :
    ∃ (options : CommandLine.ParseOptions) (world : CommandLine.Surroundings),
      options.all = true ∧ options.root = none ∧
      world.file options.grammar = .ok (bytesOf "1 S S S\n1 S x") ∧
      world.input = bytesOf "x x.\n" ∧ Grammar.read "1 S S S\n1 S x" = .ok doublingGenerator.grammar ∧
      doublingGenerator.grammar.IsClosed ∧ doublingGenerator.grammar.HasLetterWords ∧
      doublingGenerator.sample "S" [0, 0x8000000000000000, 0x8000000000000000] =
        (.ok "(S (S x) (S x))", []) ∧
      (Sentence.ofLine "x x.").withoutNonterminals doublingGenerator.grammar =
        ⟨["x", "x"], some '.'⟩ ∧
      (Text.lines (lineText doublingGenerator.grammar options "x x.").toList).count
        "(S (S x) (S x))".toList = 1 ∧
      (runParse world options).exitCode = 0 ∧
      (Text.lines (runParse world options).stdout.toList).count "(S (S x) (S x))".toList = 1 := by
  have hread : Grammar.read "1 S S S\n1 S x" = .ok doublingGenerator.grammar :=
    Grammar.read_twoLines
  have letters : doublingGenerator.grammar.HasLetterWords := by
    intro p hp w hw
    rcases mem_productions_doubling.mp hp with rfl | rfl
    · cases hw
    · cases hw
      intro c hc
      obtain rfl : c = 'x' := by simpa using hc
      rfl
  obtain ⟨t, hexpand, -, hlines⟩ :=
    count_line_of_sample hread isClosed_doubling letters sample_doubling
  rw [expand_doubling] at hexpand
  cases hexpand
  have hmark : ∀ c ∈ some '.', Sentence.isMark c = true := by
    rintro c ⟨⟩
    rfl
  obtain ⟨hspoken, hcount⟩ := hlines (some '.') hmark
  have hline : Sentence.line ⟨doubled.leaves, some '.'⟩ = "x x." := rfl
  rw [hline] at hspoken hcount
  obtain ⟨honce, hrun⟩ := hcount ⟨"g", false, true, false, none⟩ rfl rfl
  have hresult := hrun ⟨fun _ => .ok (bytesOf "1 S S S\n1 S x"), bytesOf "x x.\n", 0⟩ rfl rfl
  exact ⟨_, _, rfl, rfl, rfl, rfl, hread, isClosed_doubling, letters, sample_doubling, hspoken,
    honce, hresult⟩

end PhraseGrammar
