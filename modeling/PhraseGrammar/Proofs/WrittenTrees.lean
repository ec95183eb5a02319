import PhraseGrammar.CommandLine.Session
import PhraseGrammar.Proofs.BracketedText

/-!
# The lines that parsing writes

For each line of its input, a run that writes all trees writes the listing of the chart if it is
asked to, the number of trees, and the trees.  A grammar that was read has no line feed in a symbol,
so every tree is a line of its own, which begins with a bracket; and no other line does.  The trees
of a sentence can be told from all else that is written, and from each other.

## Main statements

- `silent_listing`: no line of the listing begins with a bracket.
- `bracketedLines_lineText`: the lines that do are the texts of the trees, in their order.
- `count_lineText`: each tree is written once.
-/

namespace PhraseGrammar

open Source (WellFormed)

/-! ## Lines that begin with a bracket -/

/-- The lines of a text that begin with a bracket. -/
def bracketedLines (text : List Char) : List (List Char) :=
  (Text.lines text).filter fun line => line.head? == some '('

/-- Before any other text, the text adds lines of which none begins with a bracket. -/
def Silent (text : String) : Prop :=
  ∀ rest, bracketedLines (text.toList ++ rest) = bracketedLines rest

theorem silent_empty : Silent "" := by
  intro rest
  rfl

theorem Silent.append {first second : String} (hfirst : Silent first) (hsecond : Silent second) :
    Silent (first ++ second) := by
  intro rest
  rw [String.toList_append, List.append_assoc, hfirst, hsecond]

theorem silent_join {texts : List String} (h : ∀ text ∈ texts, Silent text) :
    Silent (String.join texts) := by
  -- text by text, as each adds no such line before what follows
  induction texts with
  | nil => exact silent_empty
  | cons text texts ih =>
    obtain ⟨htext, htexts⟩ := List.forall_mem_cons.mp h
    rw [String.join_cons]
    exact htext.append (ih htexts)

/-- What is cut off the end of a line is not what it begins with. -/
theorem head?_dropReturn {line : List Char} (h : line.head? ≠ some '(') :
    (Text.dropReturn '\r' line).head? ≠ some '(' := by
  unfold Text.dropReturn
  split
  · rcases line with _ | ⟨c, _ | ⟨d, line⟩⟩
    · exact h
    · simp
    · simpa using h
  · exact h

/-- A line that does not begin with a bracket is silent. -/
theorem silent_line {line : String} (hfeed : '\n' ∉ line.toList)
    (hhead : line.toList.head? ≠ some '(') : Silent (line ++ "\n") := by
  intro rest
  -- the line feed ends the line, whatever follows
  have htext : (line ++ "\n").toList ++ rest = line.toList ++ '\n' :: rest := by simp
  rw [bracketedLines, htext, Text.lines_append_feed hfeed, List.filter_cons_of_neg]
  · rfl
  · simpa using head?_dropReturn hhead

/-! ## The listing of a chart -/

theorem feed_not_mem_toDigits (n : Nat) : '\n' ∉ Nat.toDigits 10 n := by
  intro hmem
  exact absurd (Numeral.allDigits_toDigits n _ hmem) (by decide)

/-- The symbols that a grammar which was read has in a rule are free of line feeds. -/
theorem feed_not_mem_of_hasRule {productions : List Production}
    (hproductions : ∀ p ∈ productions, WellFormed p) {lhs : String} {rhs : RightSide}
    (rule : HasRule productions lhs rhs) : ∀ s ∈ lhs :: rhs.symbols, '\n' ∉ s.toList := by
  obtain ⟨p, hp, rfl, rfl⟩ := rule
  exact fun s hs => ((hproductions p hp).symbols s hs).isField.feed_not_mem

section Listing

variable {g : Grammar} (hproductions : ∀ p ∈ g.productions, WellFormed p) {words : List String}
include hproductions

/-- The text of an entry has no line feed in it. -/
theorem Grammar.Licenses.feed_not_mem {start len : Nat} {e : Entry}
    (h : g.Licenses (g.chart words) start len e) : '\n' ∉ e.text.toList := by
  cases h with
  | @word w symbol _ hsymbol =>
    have rule : HasRule g.productions symbol (.word w) := g.mem_headsOf_iff_hasRule.mp hsymbol
    have hrule := feed_not_mem_of_hasRule hproductions rule
    have hlhs := hrule symbol List.mem_cons_self
    have hword := hrule w (by simp [RightSide.symbols])
    simp [Entry.text, hlhs, hword]
  | @split k _ i j left right symbol _ _ _ _ hsymbol =>
    have rule : HasRule g.productions symbol (.pair left.lhs right.lhs) :=
      g.mem_headsOf_iff_hasRule.mp hsymbol
    have hlhs := feed_not_mem_of_hasRule hproductions rule symbol List.mem_cons_self
    simp [Entry.text, EntryRef.text, Span.text, hlhs, feed_not_mem_toDigits]

/-- The line of an entry is indented. -/
theorem silent_entry {start len idx : Nat} {e : Entry}
    (h : (g.chart words).get? ⟨start, len, idx⟩ = some e) :
    Silent ("  [" ++ toString idx ++ "] " ++ e.text ++ "\n") := by
  apply silent_line
  · have htext := (g.licenses_of_get? words h).feed_not_mem hproductions
    simp [htext, feed_not_mem_toDigits]
  · simp

/-- The lines of a cell are its heading, which begins with a word, and its entries. -/
theorem silent_cellListing {start len : Nat} {cell : Cell}
    (h : (g.chart words).cell? start len = some cell) :
    Silent (Chart.cellListing start len cell) := by
  unfold Chart.cellListing
  split
  · exact silent_empty
  · have hheading : Silent ("Span " ++ (Span.mk start (start + len)).text ++ ":\n") := by
      have hfeed : ":\n" = ":" ++ "\n" := rfl
      rw [hfeed, ← String.append_assoc]
      apply silent_line
      · simp [Span.text, feed_not_mem_toDigits]
      · simp
    have hentries : Silent cell.listing := by
      apply silent_join
      intro text htext
      obtain ⟨⟨e, idx⟩, he, rfl⟩ := List.mem_map.mp htext
      have hget : (g.chart words).get? ⟨start, len, idx⟩ = some e := by
        rw [Chart.get?, h]
        simpa [Cell.toList, Cell.get?] using List.mk_mem_zipIdx_iff_getElem?.mp he
      exact silent_entry hproductions hget
    exact hheading.append hentries

/-- No line of the listing begins with a bracket. -/
theorem silent_listing : Silent (g.chart words).listing := by
  apply silent_join
  intro rowText hrowText
  obtain ⟨⟨row, shorter⟩, hrow, rfl⟩ := List.mem_map.mp hrowText
  apply silent_join
  intro text htext
  obtain ⟨⟨cell, start⟩, hcell, rfl⟩ := List.mem_map.mp htext
  apply silent_cellListing hproductions
  have hrow' := List.mk_mem_zipIdx_iff_getElem?.mp hrow
  have hcell' := List.mk_mem_zipIdx_iff_getElem?.mp hcell
  rw [Array.getElem?_toList] at hrow' hcell'
  rw [Chart.cell?, Chart.cellIn?, hrow', Option.bind_some, hcell']

end Listing

/-! ## The lines of trees -/

/-- A text in brackets on one line. -/
def Bracketed (text : List Char) : Prop :=
  ∃ inner, text = '(' :: (inner ++ [')']) ∧ '\n' ∉ inner

/-- A derivation is written in brackets on one line. -/
theorem Derives.bracketed {productions : List Production}
    (hproductions : ∀ p ∈ productions, WellFormed p) {words : List String} {symbol : String}
    {start len : Nat} {t : Tree} (h : Derives productions words symbol start len t) :
    Bracketed t.text.toList := by
  -- the brackets are those of the root; all that is inside is free of line feeds
  induction h with
  | @word symbol w start rule _ =>
    have hrule := feed_not_mem_of_hasRule hproductions rule
    have hlhs := hrule symbol List.mem_cons_self
    have hword := hrule w (by simp [RightSide.symbols])
    refine ⟨symbol.toList ++ ' ' :: w.toList, ?_, by simp [hlhs, hword]⟩
    simp [Tree.text, Tree.childrenText]
  | @pair symbol a b start k len left right rule _ _ _ _ ihleft ihright =>
    have hlhs := feed_not_mem_of_hasRule hproductions rule symbol List.mem_cons_self
    obtain ⟨l, hl, hlfeed⟩ := ihleft
    obtain ⟨r, hr, hrfeed⟩ := ihright
    refine ⟨symbol.toList ++ ' ' :: (left.text.toList ++ ' ' :: right.text.toList), ?_, ?_⟩
    · simp [Tree.text, Tree.childrenText]
    · simp [hl, hr, hlhs, hlfeed, hrfeed]

theorem bracketed_texts {g : Grammar} (hproductions : ∀ p ∈ g.productions, WellFormed p)
    (words : List String) :
    ∀ text ∈ (g.chart words).trees.map Tree.text, Bracketed text.toList := by
  rw [g.trees_chart, List.forall_mem_map]
  intro t ht
  obtain ⟨_, hderives⟩ := (g.mem_treesOf words).mp ht
  exact hderives.bracketed hproductions

/-- Texts in brackets, each on a line, are the lines that begin with a bracket. -/
theorem bracketedLines_join {texts : List String} (h : ∀ text ∈ texts, Bracketed text.toList) :
    bracketedLines (String.join (texts.map (· ++ "\n"))).toList = texts.map String.toList := by
  -- each text is one line, and the first character of the line is its bracket
  induction texts with
  | nil => rfl
  | cons text texts ih =>
    obtain ⟨⟨inner, htext, hfeed⟩, htexts⟩ := List.forall_mem_cons.mp h
    have hline : '\n' ∉ text.toList := by simp [htext, hfeed]
    have hend : text.toList.getLast? ≠ some '\r' := by
      rw [htext, ← List.cons_append, List.getLast?_concat]
      simp
    have hhead : text.toList.head? = some '(' := by simp [htext]
    have hcut : (String.join ((text :: texts).map (· ++ "\n"))).toList =
        text.toList ++ '\n' :: (String.join (texts.map (· ++ "\n"))).toList := by simp
    rw [bracketedLines, hcut, Text.lines_append_feed hline, Text.dropReturn_of_ne hend,
      List.filter_cons_of_pos (by simpa using hhead), List.map_cons]
    exact congrArg _ (ih htexts)

namespace CommandLine

theorem silent_countLine (count : Nat) : Silent (countLine count) := by
  have hline : ∀ ending : String, '\n' ∉ ending.toList →
      Silent ("Parsed " ++ toString count ++ (ending ++ "\n")) := by
    intro ending hending
    rw [← String.append_assoc]
    apply silent_line
    · simp [hending, feed_not_mem_toDigits]
    · simp
  unfold countLine
  split
  · exact hline " tree" (by decide)
  · exact hline " trees" (by decide)

variable {g : Grammar} (hproductions : ∀ p ∈ g.productions, WellFormed p) {options : ParseOptions}
include hproductions

/-- Of all that is written about the trees of a chart, the lines that begin with a bracket are the
trees. -/
theorem bracketedLines_treesText (all : options.all = true) (noRoot : options.root = none)
    (mark : Option Char) (words : List String) :
    bracketedLines (treesText options mark (g.chart words)).toList =
      ((g.chart words).trees.map Tree.text).map String.toList := by
  have hlines := bracketedLines_join (bracketed_texts hproductions words)
  rw [List.map_map] at hlines
  rw [treesText, if_pos all, noRoot, String.toList_append, silent_countLine]
  exact hlines

/-- Of all that is written for a line, the lines that begin with a bracket are the trees of the
line's sentence. -/
theorem bracketedLines_lineText (all : options.all = true) (noRoot : options.root = none)
    (line : String) :
    bracketedLines (lineText g options line).toList =
      ((g.chart ((Sentence.ofLine line).withoutNonterminals g).words).trees.map Tree.text).map
        String.toList := by
  unfold lineText
  generalize (Sentence.ofLine line).withoutNonterminals g = sentence
  obtain ⟨words, mark⟩ := sentence
  by_cases hempty : words = []
  -- without words nothing is written, and there are no trees
  · subst hempty
    rfl
  · have hchart : Silent
        (if options.chart then "chart:\n" ++ (g.chart words).listing ++ "\n" else "") := by
      split
      · have hheading : Silent ("chart:" ++ "\n") := silent_line (by decide) (by decide)
        have hblank : Silent ("" ++ "\n") := silent_line (by decide) (by decide)
        exact (hheading.append (silent_listing hproductions)).append hblank
      · exact silent_empty
    have hsome : ¬words.isEmpty = true := by simpa using hempty
    rw [if_neg hsome, String.toList_append, hchart]
    exact bracketedLines_treesText hproductions all noRoot mark words

/-- Every tree of a line's sentence is written on exactly one line. -/
theorem count_lineText (all : options.all = true) (noRoot : options.root = none) {line : String}
    {t : Tree} (ht : t ∈ (g.chart ((Sentence.ofLine line).withoutNonterminals g).words).trees) :
    (Text.lines (lineText g options line).toList).count t.text.toList = 1 := by
  have hlines := bracketedLines_lineText hproductions all noRoot line
  generalize ((Sentence.ofLine line).withoutNonterminals g).words = words at ht hlines
  have hmem : t.text ∈ (g.chart words).trees.map Tree.text := List.mem_map_of_mem ht
  obtain ⟨inner, htext, -⟩ := bracketed_texts hproductions words _ hmem
  have hbracket : (t.text.toList.head? == some '(') = true := by simp [htext]
  have hdistinct : (((g.chart words).trees.map Tree.text).map String.toList).Nodup :=
    (Grammar.nodup_texts hproductions words).map fun _ _ => String.toList_inj.mp
  -- the text begins with a bracket, so it is counted among the lines that do
  have hcount : (bracketedLines (lineText g options line).toList).count t.text.toList =
      (Text.lines (lineText g options line).toList).count t.text.toList :=
    List.count_filter hbracket
  rw [← hcount, hlines]
  exact List.count_eq_one_of_mem hdistinct (List.mem_map_of_mem hmem)

end CommandLine

end PhraseGrammar
