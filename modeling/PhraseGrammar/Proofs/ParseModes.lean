import PhraseGrammar.Proofs.GeneratedParses
import PhraseGrammar.Proofs.SentenceLines
import PhraseGrammar.Proofs.WrittenTrees

/-!
# The modes of parsing

A sentence is written in two ways: all of its trees, after a line with their number, or the first
tree alone.  Both are read out of one chart, the first tree by itself and the others with it, so the
two agree.  The chart, if it is listed, comes before either; and a root only puts each tree in one
more branch.

## Main statements

- `firstTree?_eq_head?_trees`: the first tree by itself is the first of all trees.
- `prints_treesText`: the lines that are written about the trees of a chart.
- `modes_agree`: how the lines of all modes follow from one list of parses.
-/

namespace PhraseGrammar

open Source (WellFormed)

/-! ## The first of all trees -/

/-- The first tree that is looked up by itself is the first of all trees. -/
theorem Grammar.firstTree?_eq_head?_trees (g : Grammar) (words : List String) :
    (g.chart words).firstTree? = (g.chart words).trees.head? := by
  rw [g.trees_chart, List.head?_eq_getElem?, g.getElem?_treesOf words, Chart.firstTree?, size_chart]

/-! ## Lines of a text -/

/-- `Prints text lines`: the text has these lines and no others, each with a line feed after it. -/
structure Prints (text : String) (lines : List String) : Prop where
  text_eq : text = String.join (lines.map (· ++ "\n"))
  feed_not_mem : ∀ line ∈ lines, '\n' ∉ line.toList

/-- Texts that are made of lines make the lines of both. -/
theorem Prints.append {text text' : String} {lines lines' : List String} (h : Prints text lines)
    (h' : Prints text' lines') : Prints (text ++ text') (lines ++ lines') := by
  refine ⟨?_, ?_⟩
  · rw [h.text_eq, h'.text_eq, List.map_append, String.join_append]
  · rw [List.forall_mem_append]
    exact ⟨h.feed_not_mem, h'.feed_not_mem⟩

/-- A text has its lines in one way only. -/
theorem Prints.unique {text : String} {lines lines' : List String} (h : Prints text lines)
    (h' : Prints text lines') : lines = lines' := by
  have hsame : String.join (lines.map (· ++ "\n")) = String.join (lines'.map (· ++ "\n")) :=
    h.text_eq.symm.trans h'.text_eq
  have hfeed := h.feed_not_mem
  have hfeed' := h'.feed_not_mem
  clear h h'
  -- line by line, as both texts begin with a line and its end
  induction lines generalizing lines' with
  | nil =>
    cases lines' with
    | nil => rfl
    | cons line' rest' => simp at hsame
  | cons line rest ih =>
    cases lines' with
    | nil => simp at hsame
    | cons line' rest' =>
      obtain ⟨hline, hrest⟩ := List.forall_mem_cons.mp hfeed
      obtain ⟨hline', hrest'⟩ := List.forall_mem_cons.mp hfeed'
      have hchars : line.toList ++ '\n' :: (String.join (rest.map (· ++ "\n"))).toList =
          line'.toList ++ '\n' :: (String.join (rest'.map (· ++ "\n"))).toList := by
        simpa using congrArg String.toList hsame
      -- a line ends at the first line feed
      have hrun : ∀ c ∈ line.toList, (c != '\n') = true := by
        intro c hc
        exact bne_iff_ne.mpr (ne_of_mem_of_not_mem hc hline)
      have hrun' : ∀ c ∈ line'.toList, (c != '\n') = true := by
        intro c hc
        exact bne_iff_ne.mpr (ne_of_mem_of_not_mem hc hline')
      obtain ⟨heq, hothers⟩ := Text.run_unique hrun (Text.endsRun_cons.mpr rfl) hrun'
        (Text.endsRun_cons.mpr rfl) hchars
      have hjoined := String.toList_inj.mp (List.tail_eq_of_cons_eq hothers)
      rw [String.toList_inj.mp heq, ih hjoined hrest hrest']

theorem prints_line {line : String} (h : '\n' ∉ line.toList) : Prints (line ++ "\n") [line] :=
  ⟨by simp, List.forall_mem_singleton.mpr h⟩

namespace CommandLine

/-! ## The lines about the trees of a sentence -/

/-- The lines of a sentence with the given words and parses: all parses, after a line with their
number, or the first parse, or a line that says that there is none. -/
def modeLines (all : Bool) (words parses : List String) : List String :=
  if all then
    ("Parsed " ++ toString parses.length ++ if parses.length = 1 then " tree" else " trees") ::
      parses
  else
    [parses.head?.getD ("(NOPARSE " ++ " ".intercalate words ++ ")")]

theorem prints_countLine (count : Nat) :
    Prints (countLine count)
      ["Parsed " ++ toString count ++ if count = 1 then " tree" else " trees"] := by
  have hline : countLine count =
      ("Parsed " ++ toString count ++ if count = 1 then " tree" else " trees") ++ "\n" := by
    unfold countLine
    split
    · simp [String.append_assoc]
    · simp [String.append_assoc]
  rw [hline]
  apply prints_line
  split
  · simp [feed_not_mem_toDigits]
  · simp [feed_not_mem_toDigits]

/-- What is written in place of a parse is one line. -/
theorem feed_not_mem_noParse {words : List String} (hwords : ∀ word ∈ words, '\n' ∉ word.toList) :
    '\n' ∉ ("(NOPARSE " ++ " ".intercalate words ++ ")").toList := by
  intro hmem
  have hline : '\n' ∈ [' '].intercalate (words.map String.toList) := by
    simpa [String.toList_intercalate] using hmem
  rcases Sentence.mem_intercalate_space hline with hspace | ⟨word, hword, hmem⟩
  · exact absurd hspace (by decide)
  · obtain ⟨kept, hkept, rfl⟩ := List.mem_map.mp hword
    exact hwords kept hkept hmem

/-! ## Roots -/

section Roots

variable {root : Option String} {mark : Option Char}

/-- Different parses are different under one root. -/
theorem wrapTree_injective (root : Option String) (mark : Option Char) :
    Function.Injective (wrapTree root mark) := by
  intro p q h
  cases root with
  | none => exact h
  | some symbol =>
    -- what stands before a parse and after it is the same
    have hchars := congrArg String.toList h
    simpa [wrapTree, String.toList_inj] using hchars

/-- A parse under a root is one line, if the root is. -/
theorem feed_not_mem_wrapTree {parse : String} (hroot : ∀ symbol ∈ root, '\n' ∉ symbol.toList)
    (hmark : ∀ c ∈ mark, c ≠ '\n') (hparse : '\n' ∉ parse.toList) :
    '\n' ∉ (wrapTree root mark parse).toList := by
  have hpunctuation : '\n' ≠ mark.getD '.' := by
    cases mark with
    | none => decide
    | some c => exact (hmark c rfl).symm
  cases root with
  | none => exact hparse
  | some symbol => simp [wrapTree, hroot symbol rfl, hparse, hpunctuation]

end Roots

/-! ## The lines about a chart -/

section Trees

variable {g : Grammar} (hproductions : ∀ p ∈ g.productions, WellFormed p)
include hproductions

/-- Each parse is one line. -/
theorem feed_not_mem_parses (words : List String) :
    ∀ parse ∈ (g.chart words).trees.map Tree.text, '\n' ∉ parse.toList := by
  intro parse hparse
  obtain ⟨inner, htext, hfeed⟩ := bracketed_texts hproductions words parse hparse
  simp [htext, hfeed]

/-- What is written about the trees of a chart are the lines of the parses, each in the branch that
is asked for. -/
theorem prints_treesText {options : ParseOptions} {mark : Option Char} {words : List String}
    (hroot : ∀ symbol ∈ options.root, '\n' ∉ symbol.toList) (hmark : ∀ c ∈ mark, c ≠ '\n')
    (hwords : ∀ word ∈ words, '\n' ∉ word.toList) :
    Prints (treesText options mark (g.chart words))
      (modeLines options.all words
        (((g.chart words).trees.map Tree.text).map (wrapTree options.root mark))) := by
  have hfeed : ∀ parse ∈ ((g.chart words).trees.map Tree.text).map (wrapTree options.root mark),
      '\n' ∉ parse.toList := by
    rw [List.forall_mem_map]
    intro parse hparse
    exact feed_not_mem_wrapTree hroot hmark (feed_not_mem_parses hproductions words parse hparse)
  unfold treesText modeLines
  split
  -- the number of parses, and then all of them
  · have hall : Prints _ (((g.chart words).trees.map Tree.text).map (wrapTree options.root mark)) :=
      ⟨rfl, hfeed⟩
    have hlines := (prints_countLine (g.chart words).trees.length).append hall
    simpa only [List.map_map, List.length_map, Function.comp_def, List.singleton_append]
      using hlines
  · rw [Chart.render, g.firstTree?_eq_head?_trees]
    -- the first tree alone, if there is one
    cases htrees : (g.chart words).trees with
    | nil =>
      have hline : "(NOPARSE " ++ " ".intercalate words ++ ")\n" =
          "(NOPARSE " ++ " ".intercalate words ++ ")" ++ "\n" := by simp [String.append_assoc]
      exact hline ▸ prints_line (feed_not_mem_noParse hwords)
    | cons t trees =>
      rw [htrees, List.map_cons, List.map_cons, List.forall_mem_cons] at hfeed
      exact prints_line hfeed.1

end Trees

/-! ## The lines about a line of input -/

section Lines

variable {g : Grammar} {line : String} {words : List String} {mark : Option Char}
  (hsentence : (Sentence.ofLine line).withoutNonterminals g = ⟨words, mark⟩)
include hsentence

/-- Neither the words that are kept of a line nor its mark have a line feed in them. -/
theorem feed_not_mem_of_sentence :
    (∀ word ∈ words, '\n' ∉ word.toList) ∧ ∀ c ∈ mark, c ≠ '\n' := by
  obtain ⟨hletters, hmarks⟩ := Sentence.letters_ofLine line
  have hkept : (Sentence.ofLine line).words.filter (fun word => !g.isNonterminal word) = words :=
    congrArg Sentence.words hsentence
  have hmark : (Sentence.ofLine line).mark = mark := congrArg Sentence.mark hsentence
  rw [hmark] at hmarks
  -- a line feed is neither a letter nor a mark
  constructor
  · intro word hword hmem
    rw [← hkept] at hword
    exact absurd (hletters word (List.mem_filter.mp hword).1 _ hmem) (by decide)
  · rintro c hc rfl
    exact absurd (hmarks _ hc) (by decide)

/-- What is written for a line, in terms of the words that are kept of it. -/
theorem lineText_of_sentence (options : ParseOptions) :
    lineText g options line =
      if words = [] then ""
      else (if options.chart then "chart:\n" ++ (g.chart words).listing ++ "\n" else "") ++
        treesText options mark (g.chart words) := by
  simp only [lineText, hsentence, List.isEmpty_iff]

/-- The chart comes before what is written without it. -/
theorem lineText_of_chart (hsome : words ≠ []) {options : ParseOptions}
    (hchart : options.chart = true) :
    lineText g options line =
      "chart:\n" ++ (g.chart words).listing ++ "\n" ++
        lineText g { options with chart := false } line := by
  have hlisted := lineText_of_sentence hsentence options
  have halone := lineText_of_sentence hsentence { options with chart := false }
  have htrees : treesText { options with chart := false } mark (g.chart words) =
      treesText options mark (g.chart words) := rfl
  rw [if_neg hsome, if_neg Bool.false_ne_true, String.empty_append, htrees] at halone
  rw [hlisted, if_neg hsome, if_pos hchart, halone]

/-- Without the chart, what is written are the lines of the parses. -/
theorem prints_lineText (hproductions : ∀ p ∈ g.productions, WellFormed p) (hsome : words ≠ [])
    {options : ParseOptions} (hchart : options.chart = false)
    (hroot : ∀ symbol ∈ options.root, '\n' ∉ symbol.toList) :
    Prints (lineText g options line)
      (modeLines options.all words
        (((g.chart words).trees.map Tree.text).map (wrapTree options.root mark))) := by
  obtain ⟨hwords, hmark⟩ := feed_not_mem_of_sentence hsentence
  rw [lineText_of_sentence hsentence, if_neg hsome, hchart, if_neg Bool.false_ne_true,
    String.empty_append]
  exact prints_treesText hproductions hroot hmark hwords

end Lines

/-! ## All modes -/

/-- **The modes of parsing agree.**  For a grammar that was read from a text and any line, there is
one list of parses for the words that are kept of the line.  It has as many parses as are counted
for the words, all of them different; and it determines what is written in every mode, if no root
has a line feed in it.  The parses are the lines after the number of them, or the first of them is
the only line; a list of the chart comes before; and a root puts each parse in a branch of its own,
with the punctuation of the line after it.  If no word is kept, nothing is written. -/
theorem modes_agree {source : String} {g : Grammar} (hread : Grammar.read source = .ok g)
    (line : String) :
    ∃ words mark parses, (Sentence.ofLine line).withoutNonterminals g = ⟨words, mark⟩ ∧
      parses = (g.chart words).trees.map Tree.text ∧
      parses.length = (g.chart words).parseCount ∧ parses.Nodup ∧
      (words = [] → ∀ options, lineText g options line = "") ∧
      (words ≠ [] → ∀ options : ParseOptions,
        (options.chart = true → lineText g options line =
          "chart:\n" ++ (g.chart words).listing ++ "\n" ++
            lineText g { options with chart := false } line) ∧
        (options.chart = false → options.root = none →
          Prints (lineText g options line) (modeLines options.all words parses)) ∧
        (options.chart = false → ∀ root, options.root = some root → '\n' ∉ root.toList →
          ∃ wrapped, wrapped = parses.map (fun parse =>
              "(" ++ root ++ " " ++ parse ++ " " ++ (mark.getD '.').toString ++ ")") ∧
            wrapped.Nodup ∧
            Prints (lineText g options line) (modeLines options.all words wrapped))) := by
  have hproductions := Source.wellFormed_of_readProductions (Grammar.read_eq_ok_iff.mp hread)
  rcases hsentence : (Sentence.ofLine line).withoutNonterminals g with ⟨words, mark⟩
  have hnodup := Grammar.nodup_texts hproductions words
  -- the number of parses, no words, the chart in front, no root, and a root
  refine ⟨words, mark, _, rfl, rfl, ?_, hnodup, ?_, fun hsome options => ⟨?_, ?_, ?_⟩⟩
  · rw [List.length_map, g.trees_chart, g.length_treesOf, Chart.parseCount, Grammar.size_chart]
  · intro hnone options
    rw [lineText_of_sentence hsentence, if_pos hnone]
  · exact lineText_of_chart hsentence hsome
  · intro hchart hroot
    have hlines := prints_lineText hsentence hproductions hsome hchart (by simp [hroot])
    have hsame : wrapTree options.root mark = id := by
      rw [hroot]
      rfl
    rwa [hsame, List.map_id] at hlines
  · intro hchart root hroot hfeed
    have hroot' : ∀ symbol ∈ options.root, '\n' ∉ symbol.toList := by
      simpa [hroot] using hfeed
    have hlines := prints_lineText hsentence hproductions hsome hchart hroot'
    rw [hroot] at hlines
    exact ⟨_, rfl, hnodup.map (wrapTree_injective (some root) mark), hlines⟩

theorem trees_doubling_word :
    (doubling.chart ["x"]).trees = [.branch "S" ⟨0, 1⟩ [.leaf "x" ⟨0, 1⟩]] := by
  -- no tree is listed twice, so it is enough to know which trees are listed
  refine List.perm_singleton.mp ((List.perm_ext_iff_of_nodup
    (doubling.nodup_treesOf ["x"] 0 1) (List.nodup_singleton _)).mpr ?_)
  intro t
  rw [doubling.mem_treesOf, List.mem_singleton]
  constructor
  · rintro ⟨symbol, h⟩
    cases h with
    | word rule hw =>
      obtain rfl : "x" = _ := Option.some.inj hw
      obtain ⟨p, hp, rfl, -⟩ := rule
      rcases mem_productions_doubling.mp hp with rfl | rfl <;> rfl
    | pair _ pos shorter => omega
  · rintro rfl
    exact ⟨"S", .word hasRule_doubling_word rfl⟩

/-- A word with an exclamation mark behind it has one parse, which is written after the number of
parses or alone, under a root or as it is. -/
theorem modes_agree_doubling :
    ∃ (g : Grammar) (options : ParseOptions), Grammar.read "1 S S S\n1 S x" = .ok g ∧
      options.all = true ∧ options.chart = false ∧ options.root = some "TOP" ∧
      Prints (lineText g options "x!") ["Parsed 1 tree", "(TOP (S x) !)"] ∧
      Prints (lineText g { options with all := false } "x!") ["(TOP (S x) !)"] ∧
      Prints (lineText g { options with all := false, root := none } "x!") ["(S x)"] := by
  have hread : Grammar.read "1 S S S\n1 S x" = .ok doubling := Grammar.read_twoLines
  have hx : (Sentence.ofLine "x!").withoutNonterminals doubling = ⟨["x"], some '!'⟩ := by
    have hline : Sentence.ofLine "x!" = ⟨["x"], some '!'⟩ := by decide +kernel
    rw [hline]
    simp [Sentence.withoutNonterminals, isNonterminal_doubling_word]
  -- one list of parses, from which the lines of all three modes are read off
  obtain ⟨words, mark, parses, hsentence, hparses, -, -, -, hmodes⟩ := modes_agree hread "x!"
  rw [hx, Sentence.mk.injEq] at hsentence
  obtain ⟨rfl, rfl⟩ := hsentence
  rw [trees_doubling_word] at hparses
  have hfeed : '\n' ∉ "TOP".toList := by decide
  have hwrapped : ∀ all, Prints (lineText doubling ⟨"g", false, all, false, some "TOP"⟩ "x!")
      (modeLines all ["x"] ["(TOP (S x) !)"]) := by
    intro all
    obtain ⟨_, rfl, -, hlines⟩ :=
      (hmodes (List.cons_ne_nil _ _) ⟨"g", false, all, false, some "TOP"⟩).2.2 rfl "TOP" rfl hfeed
    rw [hparses] at hlines
    exact hlines
  have hplain :=
    (hmodes (List.cons_ne_nil _ _) ⟨"g", false, false, false, none⟩).2.1 rfl rfl
  rw [hparses] at hplain
  exact ⟨doubling, ⟨"g", false, true, false, some "TOP"⟩, hread, rfl, rfl, rfl, hwrapped true,
    hwrapped false, hplain⟩

end CommandLine

end PhraseGrammar
