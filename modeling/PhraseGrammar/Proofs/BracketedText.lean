import PhraseGrammar.Proofs.CanonicalOrder
import PhraseGrammar.Proofs.PrintedGrammars

/-!
# Bracketed text is unambiguous

The bracketed text of a tree leaves out spans and nothing else: where no value of a node has a
space or a bracket in it, the text determines the tree up to its spans.  The reason is that a text
can be told from what follows it, as a value ends at a space or at a bracket, and the brackets say
where the children end.

A grammar that was read has only symbols without spaces and brackets.  So the trees of a sentence
have different texts, and the sentence can be read off each of them.

## Main statements

- `Tree.text_append_inj`: a text and what follows it determine the tree and where its text ends.
- `Tree.wordsOfText_text`: the leaves of a tree are read off its text.
- `bracketedText_unambiguous`: both, for all trees and for the trees of a sentence.
-/

namespace PhraseGrammar

open Text (EndsRun)

/-! ## Trees without spans -/

namespace Tree

mutual

/-- The tree with all its spans replaced by the empty one at zero. -/
def withoutSpans : Tree → Tree
  | leaf word _ => leaf word ⟨0, 0⟩
  | branch label _ children => branch label ⟨0, 0⟩ (withoutSpansOfAll children)

/-- The trees of a list without their spans. -/
def withoutSpansOfAll : List Tree → List Tree
  | [] => []
  | child :: rest => withoutSpans child :: withoutSpansOfAll rest

end

/-! ## Trees with plain values -/

/-- Whether a character has no part in the form of bracketed text. -/
def isPlain (c : Char) : Bool :=
  c != ' ' && c != '(' && c != ')'

/-- No value of a node has a space or a bracket in it. -/
def Plain (t : Tree) : Prop :=
  ∀ node ∈ t.nodes, ∀ c ∈ node.value.toList, c ≠ ' ' ∧ c ≠ '(' ∧ c ≠ ')'

/-- No value of a node in the list of trees has a space or a bracket in it. -/
def PlainAll (ts : List Tree) : Prop :=
  ∀ node ∈ nodesOfAll ts, ∀ c ∈ node.value.toList, c ≠ ' ' ∧ c ≠ '(' ∧ c ≠ ')'

theorem isPlain_iff {c : Char} : isPlain c = true ↔ c ≠ ' ' ∧ c ≠ '(' ∧ c ≠ ')' := by
  simp [isPlain, and_assoc]

variable {label word : String} {span : Span} {t child : Tree} {children rest : List Tree}

theorem plain_leaf : (leaf word span).Plain ↔ ∀ c ∈ word.toList, isPlain c = true := by
  simp [Plain, nodes, value, isPlain_iff]

theorem plain_branch :
    (branch label span children).Plain ↔
      (∀ c ∈ label.toList, isPlain c = true) ∧ PlainAll children := by
  simp [Plain, PlainAll, nodes, value, isPlain_iff]

theorem plainAll_nil : PlainAll [] := by
  simp [PlainAll, nodesOfAll]

theorem plainAll_cons : PlainAll (child :: rest) ↔ child.Plain ∧ PlainAll rest := by
  simp only [PlainAll, Plain, nodesOfAll, List.forall_mem_append]

/-! ## The characters of bracketed text -/

theorem toList_text_leaf : (leaf word span).text.toList = word.toList := rfl

theorem toList_text_branch :
    (branch label span children).text.toList =
      '(' :: (label.toList ++ ((childrenText children).toList ++ [')'])) := by
  simp [text]

theorem toList_childrenText_cons :
    (childrenText (child :: rest)).toList =
      ' ' :: (child.text.toList ++ (childrenText rest).toList) := by
  simp [childrenText]

/-- What may follow the text of a tree: nothing, the space before another tree, or the end of the
tree around it. -/
def Follows (rest : List Char) : Prop :=
  rest = [] ∨ (∃ rest', rest = ' ' :: rest') ∨ ∃ rest', rest = ')' :: rest'

/-- What follows a text does not begin with a plain character, so a value ends before it. -/
theorem Follows.endsRun {rest : List Char} (h : Follows rest) : EndsRun isPlain rest := by
  rcases h with rfl | ⟨rest', rfl⟩ | ⟨rest', rfl⟩ <;> simp [isPlain]

/-- Behind a label come the space before a child, or the end of the branch. -/
theorem follows_children (children : List Tree) (rest : List Char) :
    Follows ((childrenText children).toList ++ ')' :: rest) := by
  cases children with
  | nil => exact .inr (.inr ⟨rest, rfl⟩)
  | cons child children =>
    rw [toList_childrenText_cons]
    exact .inr (.inl ⟨_, rfl⟩)

/-- A value, which is plain, and what follows it do not begin like a branch. -/
theorem value_ne_bracket {cs rest rest' : List Char} (hcs : ∀ c ∈ cs, isPlain c = true)
    (hrest : Follows rest) : cs ++ rest ≠ '(' :: rest' := by
  cases cs with
  | nil =>
    rcases hrest with rfl | ⟨rest', rfl⟩ | ⟨rest', rfl⟩ <;> simp
  | cons c cs =>
    have hc : c ≠ '(' := (isPlain_iff.mp (hcs c List.mem_cons_self)).2.1
    simp [hc]

/-! ## A text determines its tree -/

mutual

/-- **Texts are told apart** from each other and from what follows them. -/
theorem text_append_inj : ∀ {t u : Tree} {rest rest' : List Char}, t.Plain → u.Plain →
    Follows rest → Follows rest' → t.text.toList ++ rest = u.text.toList ++ rest' →
    t.withoutSpans = u.withoutSpans ∧ rest = rest'
  | leaf word _, leaf word' _, rest, rest', ht, hu, hrest, hrest', h => by
    -- both words end where something other than a plain character follows
    obtain ⟨hword, heq⟩ :=
      Text.run_unique (plain_leaf.mp ht) hrest.endsRun (plain_leaf.mp hu) hrest'.endsRun h
    rw [String.toList_inj.mp hword]
    exact ⟨rfl, heq⟩
  | leaf word _, branch label' _ children', rest, rest', ht, _, hrest, _, h => by
    rw [toList_text_branch] at h
    exact absurd h (value_ne_bracket (plain_leaf.mp ht) hrest)
  | branch label _ children, leaf word' _, rest, rest', _, hu, _, hrest', h => by
    rw [toList_text_branch] at h
    exact absurd h.symm (value_ne_bracket (plain_leaf.mp hu) hrest')
  | branch label _ children, branch label' _ children', rest, rest', ht, hu, hrest, hrest', h => by
    obtain ⟨hlabel, hchildren⟩ := plain_branch.mp ht
    obtain ⟨hlabel', hchildren'⟩ := plain_branch.mp hu
    simp only [toList_text_branch, List.cons_append, List.append_assoc, List.cons.injEq, true_and,
      List.nil_append] at h
    -- the label ends where the children begin, or at the bracket
    obtain ⟨heq, h⟩ := Text.run_unique hlabel (follows_children children rest).endsRun hlabel'
      (follows_children children' rest').endsRun h
    obtain ⟨hsame, h⟩ := childrenText_append_inj hchildren hchildren' h
    rw [withoutSpans, withoutSpans, String.toList_inj.mp heq, hsame]
    exact ⟨rfl, h⟩

/-- The texts of children end at the closing bracket. -/
theorem childrenText_append_inj : ∀ {ts us : List Tree} {rest rest' : List Char},
    PlainAll ts → PlainAll us →
    (childrenText ts).toList ++ ')' :: rest = (childrenText us).toList ++ ')' :: rest' →
    withoutSpansOfAll ts = withoutSpansOfAll us ∧ rest = rest'
  | [], [], rest, rest', _, _, h => by
    exact ⟨rfl, List.tail_eq_of_cons_eq h⟩
  | [], u :: us, rest, rest', _, _, h => by
    -- a closing bracket is not the space before another child
    rw [toList_childrenText_cons] at h
    simp [childrenText] at h
  | t :: ts, [], rest, rest', _, _, h => by
    rw [toList_childrenText_cons] at h
    simp [childrenText] at h
  | t :: ts, u :: us, rest, rest', hts, hus, h => by
    obtain ⟨ht, hts⟩ := plainAll_cons.mp hts
    obtain ⟨hu, hus⟩ := plainAll_cons.mp hus
    simp only [toList_childrenText_cons, List.cons_append, List.append_assoc, List.cons.injEq,
      true_and] at h
    obtain ⟨hfirst, h⟩ := text_append_inj ht hu (follows_children ts rest)
      (follows_children us rest') h
    obtain ⟨hothers, h⟩ := childrenText_append_inj hts hus h
    rw [withoutSpansOfAll, withoutSpansOfAll, hfirst, hothers]
    exact ⟨rfl, h⟩

end

/-- Plain trees with one text are equal up to their spans. -/
theorem withoutSpans_eq_of_text_eq {t u : Tree} (ht : t.Plain) (hu : u.Plain)
    (h : t.text = u.text) : t.withoutSpans = u.withoutSpans := by
  have hchars : t.text.toList ++ [] = u.text.toList ++ [] := by rw [h]
  exact (text_append_inj ht hu (.inl rfl) (.inl rfl) hchars).1

/-! ## The words are read off the text -/

/-- A text without the closing brackets at its end. -/
def dropClosing (cs : List Char) : List Char :=
  (cs.reverse.dropWhile (· == ')')).reverse

/-- The words in bracketed characters: the pieces between spaces that do not open a bracket, without
the brackets that are closed after them. -/
def wordsOfChars (cs : List Char) : List String :=
  ((cs.splitOn ' ').filter fun piece => piece.head? != some '(').map fun piece =>
    String.ofList (dropClosing piece)

/-- The words in a bracketed text. -/
def wordsOfText (text : String) : List String :=
  wordsOfChars text.toList

/-- A space divides the words of a text. -/
theorem wordsOfChars_append_space (cs rest : List Char) :
    wordsOfChars (cs ++ ' ' :: rest) = wordsOfChars cs ++ wordsOfChars rest := by
  unfold wordsOfChars
  rw [List.splitOn_append_cons_self, List.filter_append, List.map_append]

/-- A piece without spaces is one word, or none if it opens a bracket. -/
theorem wordsOfChars_piece {cs : List Char} (h : ' ' ∉ cs) :
    wordsOfChars cs = if cs.head? = some '(' then [] else [String.ofList (dropClosing cs)] := by
  unfold wordsOfChars
  rw [List.splitOn_eq_singleton h]
  by_cases hopen : cs.head? = some '(' <;> simp [hopen]

/-- The closed brackets after plain characters are dropped, and nothing else. -/
theorem dropClosing_append {cs : List Char} (hcs : ∀ c ∈ cs, isPlain c = true) (n : Nat) :
    dropClosing (cs ++ List.replicate n ')') = cs := by
  have hclosing : ∀ c ∈ List.replicate n ')', (c == ')') = true := by
    intro c hc
    rw [List.eq_of_mem_replicate hc]
    rfl
  have hends : EndsRun (· == ')') cs.reverse := by
    intro c hc
    have hplain := isPlain_iff.mp (hcs c (List.mem_reverse.mp (List.mem_of_head? hc)))
    exact beq_eq_false_iff_ne.mpr hplain.2.2
  rw [dropClosing, List.reverse_append, List.reverse_replicate, Text.dropWhile_run hclosing hends,
    List.reverse_reverse]

/-- Plain characters with closed brackets after them are in one piece. -/
theorem space_not_mem {cs : List Char} (hcs : ∀ c ∈ cs, isPlain c = true) (n : Nat) :
    ' ' ∉ cs ++ List.replicate n ')' := by
  rw [List.mem_append]
  rintro (hspace | hspace)
  · exact absurd (hcs ' ' hspace) (by decide)
  · exact absurd (List.eq_of_mem_replicate hspace) (by decide)

/-- A word, with brackets that are closed after it, is one word. -/
theorem wordsOfChars_word {cs : List Char} (hcs : ∀ c ∈ cs, isPlain c = true) (n : Nat) :
    wordsOfChars (cs ++ List.replicate n ')') = [String.ofList cs] := by
  have hopen : (cs ++ List.replicate n ')').head? ≠ some '(' := by
    intro hhead
    rcases List.mem_append.mp (List.mem_of_head? hhead) with hmem | hmem
    · exact absurd (hcs '(' hmem) (by decide)
    · exact absurd (List.eq_of_mem_replicate hmem) (by decide)
  rw [wordsOfChars_piece (space_not_mem hcs n), if_neg hopen, dropClosing_append hcs]

/-- What opens a bracket, with brackets that are closed after it, is no word. -/
theorem wordsOfChars_label {cs : List Char} (hcs : ∀ c ∈ cs, isPlain c = true) (n : Nat) :
    wordsOfChars ('(' :: (cs ++ List.replicate n ')')) = [] := by
  have hspace : ' ' ∉ '(' :: (cs ++ List.replicate n ')') := by
    rw [List.mem_cons, not_or]
    exact ⟨by decide, space_not_mem hcs n⟩
  rw [wordsOfChars_piece hspace, List.head?_cons, if_pos rfl]

mutual

/-- The leaves of a tree are read off its text, also if brackets are closed after it. -/
theorem wordsOfChars_text : ∀ (t : Tree), t.Plain → ∀ n,
    wordsOfChars (t.text.toList ++ List.replicate n ')') = t.leaves
  | leaf word _, h, n => by
    rw [toList_text_leaf, wordsOfChars_word (plain_leaf.mp h), String.ofList_toList, leaves]
  | branch label _ [], h, n => by
    obtain ⟨hlabel, -⟩ := plain_branch.mp h
    have hlabel' := wordsOfChars_label hlabel (n + 1)
    rw [List.replicate_succ] at hlabel'
    simp only [toList_text_branch, childrenText, leaves, leavesOfAll]
    simpa using hlabel'
  | branch label _ (child :: rest), h, n => by
    obtain ⟨hlabel, hchildren⟩ := plain_branch.mp h
    have hlabel' := wordsOfChars_label hlabel 0
    rw [List.replicate_zero, List.append_nil] at hlabel'
    -- the bracket that closes the branch joins those after it
    have hchildren' := wordsOfChars_childrenText (child :: rest) hchildren (List.cons_ne_nil _ _)
      ('(' :: label.toList) (n + 1)
    rw [hlabel', List.nil_append, List.replicate_succ] at hchildren'
    rw [toList_text_branch, leaves, ← hchildren']
    simp

/-- The leaves of children are read off their text, after those of what they stand after. -/
theorem wordsOfChars_childrenText : ∀ (children : List Tree), PlainAll children →
    children ≠ [] → ∀ front n,
    wordsOfChars (front ++ ((childrenText children).toList ++ List.replicate n ')')) =
      wordsOfChars front ++ leavesOfAll children
  | [], _, ne, _, _ => absurd rfl ne
  | [child], h, _, front, n => by
    obtain ⟨hchild, -⟩ := plainAll_cons.mp h
    have hwords := wordsOfChars_text child hchild n
    rw [toList_childrenText_cons, List.cons_append, wordsOfChars_append_space]
    simp [childrenText, leavesOfAll, hwords]
  | child :: next :: rest, h, _, front, n => by
    -- only the last child has the closed brackets after it
    obtain ⟨hchild, hrest⟩ := plainAll_cons.mp h
    have hwords := wordsOfChars_text child hchild 0
    have hothers := wordsOfChars_childrenText (next :: rest) hrest (List.cons_ne_nil _ _)
      child.text.toList n
    rw [List.replicate_zero, List.append_nil] at hwords
    rw [toList_childrenText_cons, List.cons_append, wordsOfChars_append_space, List.append_assoc,
      hothers, hwords]
    rfl

end

/-- The leaves of a plain tree are read off its text. -/
theorem wordsOfText_text {t : Tree} (h : t.Plain) : wordsOfText t.text = t.leaves := by
  have hwords := wordsOfChars_text t h 0
  rwa [List.replicate_zero, List.append_nil] at hwords

end Tree

/-! ## The trees of a sentence -/

section Sentence

open Source (WellFormed IsSymbol)

variable {productions : List Production} {words : List String} {symbol : String}
  {start len : Nat} {t : Tree}

/-- The words of a stretch are those of the two parts of a cut. -/
theorem take_drop_eq_append (words : List String) (start : Nat) {k len : Nat} (h : k ≤ len) :
    (words.drop start).take len =
      (words.drop start).take k ++ (words.drop (start + k)).take (len - k) := by
  obtain ⟨l, rfl⟩ := Nat.exists_eq_add_of_le h
  rw [List.take_add, List.drop_drop, Nat.add_sub_cancel_left]

/-- The leaves of a derivation are the words that it derives. -/
theorem Derives.leaves_eq (h : Derives productions words symbol start len t) :
    t.leaves = (words.drop start).take len := by
  induction h with
  | @word symbol w start _ hword =>
    rw [List.take_one, List.head?_drop, hword]
    rfl
  | @pair symbol a b start k len left right _ _ shorter _ _ ihleft ihright =>
    rw [take_drop_eq_append words start shorter.le, ← ihleft, ← ihright]
    simp [Tree.leaves, Tree.leavesOfAll]

/-- Derivations from one place on that agree but for their spans are equal. -/
theorem Derives.eq_of_withoutSpans_eq {symbol' : String} {len' : Nat} {u : Tree}
    (ht : Derives productions words symbol start len t)
    (hu : Derives productions words symbol' start len' u)
    (h : t.withoutSpans = u.withoutSpans) : len = len' ∧ t = u := by
  induction ht generalizing symbol' len' u with
  | word =>
    cases hu with
    | word =>
      simp only [Tree.withoutSpans, Tree.withoutSpansOfAll, Tree.branch.injEq, List.cons.injEq,
        Tree.leaf.injEq] at h
      obtain ⟨rfl, -, ⟨rfl, -⟩, -⟩ := h
      exact ⟨rfl, rfl⟩
    -- a word stands alone in its branch, a pair does not
    | pair => simp [Tree.withoutSpans, Tree.withoutSpansOfAll] at h
  | @pair _ _ _ start k len _ _ _ _ shorter _ _ ihleft ihright =>
    cases hu with
    | word => simp [Tree.withoutSpans, Tree.withoutSpansOfAll] at h
    | pair _ _ shorter' hleft hright =>
      simp only [Tree.withoutSpans, Tree.withoutSpansOfAll, Tree.branch.injEq, List.cons.injEq] at h
      obtain ⟨rfl, -, hsameleft, hsameright, -⟩ := h
      -- equal left parts are equally long, so the right parts begin at one place
      obtain ⟨rfl, rfl⟩ := ihleft hleft hsameleft
      obtain ⟨hlen, rfl⟩ := ihright hright hsameright
      obtain rfl : len = len' := by omega
      exact ⟨rfl, rfl⟩

/-- The symbols that a text can state are plain. -/
theorem Source.IsSymbol.plain {s : String} (h : IsSymbol s.toList) :
    ∀ c ∈ s.toList, Tree.isPlain c = true := by
  intro c hc
  obtain ⟨hblank, -, hopen, hclose⟩ := h.2 c hc
  have hspace : c ≠ ' ' := by
    rintro rfl
    exact absurd hblank (by decide)
  exact Tree.isPlain_iff.mpr ⟨hspace, hopen, hclose⟩

/-- In a rule that a text can state, all symbols are plain. -/
theorem HasRule.plain (hproductions : ∀ p ∈ productions, WellFormed p) {rhs : RightSide}
    (h : HasRule productions symbol rhs) :
    ∀ s ∈ symbol :: rhs.symbols, ∀ c ∈ s.toList, Tree.isPlain c = true := by
  obtain ⟨p, hp, rfl, rfl⟩ := h
  exact fun s hs => ((hproductions p hp).symbols s hs).plain

/-- Productions that a text can state give plain trees. -/
theorem Derives.plain (hproductions : ∀ p ∈ productions, WellFormed p)
    (h : Derives productions words symbol start len t) : t.Plain := by
  -- each symbol comes from a rule, and the rules are those of the list
  induction h with
  | @word symbol w start rule _ =>
    have hsymbol := rule.plain hproductions symbol List.mem_cons_self
    have hword := rule.plain hproductions w (by simp [RightSide.symbols])
    have hleaf : (Tree.leaf w ⟨start, start + 1⟩).Plain := Tree.plain_leaf.mpr hword
    have hchildren := Tree.plainAll_cons.mpr ⟨hleaf, Tree.plainAll_nil⟩
    exact Tree.plain_branch.mpr ⟨hsymbol, hchildren⟩
  | @pair symbol _ _ _ _ _ _ _ rule _ _ _ _ ihleft ihright =>
    have hsymbol := rule.plain hproductions symbol List.mem_cons_self
    have hright := Tree.plainAll_cons.mpr ⟨ihright, Tree.plainAll_nil⟩
    have hchildren := Tree.plainAll_cons.mpr ⟨ihleft, hright⟩
    exact Tree.plain_branch.mpr ⟨hsymbol, hchildren⟩

/-- From one place on, such productions derive one tree with a given text. -/
theorem Derives.eq_of_text_eq (hproductions : ∀ p ∈ productions, WellFormed p)
    {symbol' : String} {len' : Nat} {u : Tree} (ht : Derives productions words symbol start len t)
    (hu : Derives productions words symbol' start len' u) (h : t.text = u.text) : t = u := by
  -- the text says all but the spans, and those follow from where the tree begins
  have hsame := Tree.withoutSpans_eq_of_text_eq (ht.plain hproductions) (hu.plain hproductions) h
  exact (ht.eq_of_withoutSpans_eq hu hsame).2

/-- The trees of a sentence are those of the cell that covers it. -/
theorem Grammar.trees_chart (g : Grammar) (words : List String) :
    (g.chart words).trees = (g.chart words).treesOf 0 words.length := rfl

/-- The trees of a sentence have different texts. -/
theorem Grammar.nodup_texts {g : Grammar} (hproductions : ∀ p ∈ g.productions, WellFormed p)
    (words : List String) : ((g.chart words).trees.map Tree.text).Nodup := by
  rw [g.trees_chart]
  apply List.Nodup.map_on _ (g.nodup_treesOf words 0 words.length)
  intro t ht u hu h
  obtain ⟨_, ht⟩ := (g.mem_treesOf words).mp ht
  obtain ⟨_, hu⟩ := (g.mem_treesOf words).mp hu
  exact ht.eq_of_text_eq hproductions hu h

/-- **Bracketed text is unambiguous.**  Trees with plain values and one text are equal up to their
spans.  Where a grammar was read from a text, the trees of a sentence have different texts, and the
words of the sentence are read off each of them. -/
theorem bracketedText_unambiguous :
    (∀ t u : Tree, t.Plain → u.Plain → t.text = u.text → t.withoutSpans = u.withoutSpans) ∧
      ∀ (source : String) (g : Grammar), Grammar.read source = .ok g → ∀ words : List String,
        ((g.chart words).trees.map Tree.text).Nodup ∧
          ∀ t ∈ (g.chart words).trees, Tree.wordsOfText t.text = words := by
  constructor
  · intro t u ht hu h
    exact Tree.withoutSpans_eq_of_text_eq ht hu h
  · intro source g hread words
    have hproductions := Source.wellFormed_of_readProductions (Grammar.read_eq_ok_iff.mp hread)
    constructor
    · exact Grammar.nodup_texts hproductions words
    · intro t ht
      rw [g.trees_chart] at ht
      obtain ⟨_, ht⟩ := (g.mem_treesOf words).mp ht
      rw [Tree.wordsOfText_text (ht.plain hproductions), ht.leaves_eq, List.drop_zero,
        List.take_length]

/-- Three words have two trees over a grammar that was read: their texts differ, and give the words
back. Trees of the second word and of the first differ by their spans alone. -/
theorem bracketedText_unambiguous_doubled :
    ∃ g : Grammar, Grammar.read "1 S S S\n1 S x" = .ok g ∧
      ((g.chart ["x", "x", "x"]).trees.map Tree.text).Nodup ∧
      (∀ t ∈ (g.chart ["x", "x", "x"]).trees, Tree.wordsOfText t.text = ["x", "x", "x"]) ∧
      (Tree.branch "S" ⟨0, 1⟩ [.leaf "x" ⟨0, 1⟩]).withoutSpans =
        (Tree.branch "S" ⟨1, 2⟩ [.leaf "x" ⟨1, 2⟩]).withoutSpans := by
  have hread := Grammar.read_twoLines
  obtain ⟨hdistinct, hwords⟩ := bracketedText_unambiguous.2 _ _ hread ["x", "x", "x"]
  have hplain : ∀ start,
      (Tree.branch "S" ⟨start, start + 1⟩ [.leaf "x" ⟨start, start + 1⟩]).Plain := by
    intro start
    simp [Tree.Plain, Tree.nodes, Tree.nodesOfAll, Tree.value]
  exact ⟨_, hread, hdistinct, hwords, bracketedText_unambiguous.1 _ _ (hplain 0) (hplain 1) rfl⟩

end Sentence

end PhraseGrammar
