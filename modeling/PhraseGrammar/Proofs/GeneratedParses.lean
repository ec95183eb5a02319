import PhraseGrammar.Proofs.Derivation
import PhraseGrammar.Proofs.Expansion

/-!
# What is generated parses back

Generating and parsing read a grammar through different tables and in opposite directions: from
a symbol down to words, and from words up to symbols.  On a closed grammar they agree.  Every
sentence that a generator writes is the text of a tree that the chart of the sentence's own words
holds for the start symbol.

The link between the two is the set of trees that a generator can build, `Generated`.  Without
closure it is larger than the set of derivations: a branch may stand over a single nonterminal,
and a pair may have a terminal in it.

## Main statements

- `generated_of_expand`: what a symbol expands to is a generated tree.
- `Generated.derives`: on a closed grammar a generated tree is a derivation of its words.
- `Generator.exists_derivation_of_sample`: so is the tree whose text a run writes.
-/

namespace PhraseGrammar

/-! ## Generated trees -/

/-- `Generated g symbol position t`: every branch of `t` applies a production, every leaf is a
symbol without productions, the root is `symbol`, and the words stand from `position` on. -/
inductive Generated (g : Grammar) : String → Nat → Tree → Prop where
  | leaf {symbol : String} {position : Nat} (h : g.productionsFor symbol = []) :
      Generated g symbol position (.leaf symbol ⟨position, position + 1⟩)
  | word {symbol w : String} {position : Nat} {t : Tree}
      (rule : HasRule g.productions symbol (.word w)) (h : Generated g w position t) :
      Generated g symbol position (Tree.over symbol position [t])
  | pair {symbol a b : String} {position : Nat} {left right : Tree}
      (rule : HasRule g.productions symbol (.pair a b)) (hleft : Generated g a position left)
      (hright : Generated g b (position + left.leaves.length) right) :
      Generated g symbol position (Tree.over symbol position [left, right])

/-- What a symbol expands to is a generated tree, for every supply and every way to choose. -/
theorem generated_of_expand {gen : Generator} {depth position : Nat} {symbol : String}
    {supply left : Random.Supply} {t : Tree}
    (h : gen.expand depth position symbol supply = (.ok t, left)) :
    Generated gen.grammar symbol position t := by
  induction hn : supply.length using Nat.strongRecOn
    generalizing depth position symbol supply left t with
  | ind n ih =>
    subst hn
    -- every draw takes a word from the supply, so the parts are expanded from shorter ones
    rcases Generator.expand_eq_ok h with
      ⟨hnone, rfl, -⟩ | ⟨ne, p, middle, children, -, hchoose, hchildren, rfl⟩
    · exact .leaf hnone
    · have hshorter := Generator.length_choose_lt hchoose
      obtain ⟨hp, hlhs⟩ :=
        gen.grammar.mem_productionsFor.mp (Generator.mem_of_choose hchoose)
      -- one child for a word, two for a pair
      cases hrhs : p.rhs with
      | word w =>
        rw [hrhs, RightSide.symbols] at hchildren
        obtain ⟨t, rest, _, rfl, ht, hrest⟩ := Generator.expandAll_cons_eq_ok hchildren
        cases hrest
        exact .word ⟨p, hp, hlhs, hrhs⟩ (ih _ hshorter ht rfl)
      | pair a b =>
        rw [hrhs, RightSide.symbols] at hchildren
        obtain ⟨l, rest, _, rfl, hl, hrest⟩ := Generator.expandAll_cons_eq_ok hchildren
        obtain ⟨r, rest, _, rfl, hr, hrest⟩ := Generator.expandAll_cons_eq_ok hrest
        cases hrest
        have hle := gen.length_expand_le (depth + 1) position a middle
        rw [hl] at hle
        exact .pair ⟨p, hp, hlhs, hrhs⟩ (ih _ hshorter hl rfl)
          (ih _ (Nat.lt_of_le_of_lt hle hshorter) hr rfl)

/-! ## Closed grammars -/

theorem HasRule.isNonterminal {g : Grammar} {symbol : String} {rhs : RightSide}
    (h : HasRule g.productions symbol rhs) : g.isNonterminal symbol = true := by
  obtain ⟨p, hp, hlhs, -⟩ := h
  exact g.isNonterminal_iff.mpr ⟨p, hp, hlhs⟩

namespace Generated

variable {g : Grammar} {symbol : String} {position : Nat} {t : Tree}

theorem eq_leaf (h : Generated g symbol position t) (hterminal : g.isNonterminal symbol = false) :
    t = .leaf symbol ⟨position, position + 1⟩ := by
  cases h with
  | leaf => rfl
  | word rule => simp [rule.isNonterminal] at hterminal
  | pair rule => simp [rule.isNonterminal] at hterminal

/-- On a closed grammar, a tree that a nonterminal generates is a derivation of its words, wherever
in a sentence they stand. -/
theorem derives (hclosed : g.IsClosed) (h : Generated g symbol position t)
    (hsymbol : g.isNonterminal symbol = true) (before after : List String)
    (hbefore : before.length = position) :
    Derives g.productions (before ++ t.leaves ++ after) symbol position t.leaves.length t := by
  induction h generalizing before after with
  | leaf hnone =>
    rw [Grammar.productionsFor_eq_nil_iff] at hnone
    simp [hnone] at hsymbol
  | @word symbol w position t rule hchild _ =>
    obtain ⟨p, hp, hlhs, hrhs⟩ := rule
    -- the word of a closed grammar is a terminal, so the child is a leaf
    obtain rfl := hchild.eq_leaf (hclosed.isNonterminal_of_word hp hrhs)
    refine .word ⟨p, hp, hlhs, hrhs⟩ ?_
    simp [Tree.over, Tree.leaves, Tree.leavesOfAll, ← hbefore]
  | @pair symbol a b position left right rule _ _ ihleft ihright =>
    obtain ⟨p, hp, hlhs, hrhs⟩ := rule
    obtain ⟨ha, hb⟩ := hclosed.isNonterminal_of_pair hp hrhs
    have hl := ihleft ha before (right.leaves ++ after) hbefore
    have hr := ihright hb (before ++ left.leaves) after (by simp [hbefore])
    have hleaves : (Tree.over symbol position [left, right]).leaves =
        left.leaves ++ right.leaves := by
      simp [Tree.over, Tree.leaves, Tree.leavesOfAll]
    have htree : Tree.over symbol position [left, right] =
        .branch symbol ⟨position, position + (left.leaves.length + right.leaves.length)⟩
          [left, right] := by
      simp [Tree.over, Tree.leavesOfAll]
    have shorter : left.leaves.length < left.leaves.length + right.leaves.length :=
      Nat.lt_add_of_pos_right hr.len_pos
    rw [hleaves, List.length_append, htree, ← List.append_assoc before]
    -- the cut comes after the words of the first child
    apply Derives.pair ⟨p, hp, hlhs, hrhs⟩ hl.len_pos shorter
    -- the words of each child are followed, or preceded, by those of the other
    · rwa [← List.append_assoc] at hl
    · rwa [Nat.add_sub_cancel_left]

end Generated

/-! ## The grammar of all binary trees over one word -/

/-- `S -> S S | "x"`, with equal weights. -/
def doubling : Grammar :=
  .ofProductions [⟨"S", .pair "S" "S", .ofMagnitude .one⟩, ⟨"S", .word "x", .ofMagnitude .one⟩]
    (List.cons_ne_nil _ _)

/-- Draws from `doubling` by fair choices, with at most two open brackets. -/
def doublingGenerator : Generator := ⟨doubling, .uniform, some 2⟩

theorem productionsFor_doubling : doubling.productionsFor "S" = doubling.productions := by
  rw [Grammar.productionsFor_eq_filter]
  rfl

theorem productionsFor_doubling_word : doubling.productionsFor "x" = [] := by
  rw [Grammar.productionsFor_eq_filter]
  rfl

theorem mem_productions_doubling {p : Production} :
    p ∈ doubling.productions ↔
      p = ⟨"S", .pair "S" "S", .ofMagnitude .one⟩ ∨ p = ⟨"S", .word "x", .ofMagnitude .one⟩ := by
  have hproductions : doubling.productions =
      [⟨"S", .pair "S" "S", .ofMagnitude .one⟩, ⟨"S", .word "x", .ofMagnitude .one⟩] := rfl
  simp [hproductions]

theorem hasRule_doubling_pair : HasRule doubling.productions "S" (.pair "S" "S") :=
  ⟨_, mem_productions_doubling.mpr (.inl rfl), rfl, rfl⟩

theorem hasRule_doubling_word : HasRule doubling.productions "S" (.word "x") :=
  ⟨_, mem_productions_doubling.mpr (.inr rfl), rfl, rfl⟩

theorem isNonterminal_doubling : doubling.isNonterminal "S" = true :=
  hasRule_doubling_word.isNonterminal

theorem isNonterminal_doubling_word : doubling.isNonterminal "x" = false :=
  doubling.productionsFor_eq_nil_iff.mp productionsFor_doubling_word

theorem productionsFor_doubling_ne_nil : doubling.productionsFor "S" ≠ [] :=
  doubling.productionsFor_ne_nil_iff.mpr isNonterminal_doubling

/-- The pair has nonterminals and the word is a terminal, so the grammar is closed. -/
theorem isClosed_doubling : doubling.IsClosed := by
  apply List.flatMap_eq_nil_iff.mpr
  intro p hp
  rcases mem_productions_doubling.mp hp with rfl | rfl
  · simp [Grammar.problemsOf, isNonterminal_doubling]
  · simp [Grammar.problemsOf, isNonterminal_doubling_word]

/-- A fair choice of a production by a word that it accepts: the lower half of the words draws the
pair, and the upper half the word. -/
theorem choose_doubling {v : UInt64} {i : Fin 2} (haccepts : Random.accepts 2 v = true)
    (hshare : Random.share 2 Nat.two_pos v = i) (maxDepth : Option Nat) (rest : Random.Supply) :
    (Generator.mk doubling .uniform maxDepth).choose (doubling.productionsFor "S")
        productionsFor_doubling_ne_nil (v :: rest) =
      (.ok (doubling.productions.get i), rest) := by
  have ne : doubling.productions ≠ [] := doubling.productions_ne_nil
  simp only [productionsFor_doubling]
  rw [← hshare]
  exact @Generator.choose_of_accepts ⟨doubling, .uniform, maxDepth⟩ rfl _ ne v haccepts rest

/-- A word from the upper half expands the symbol to the one word. -/
private theorem expand_doubling_word (position : Nat) (rest : Random.Supply) :
    doublingGenerator.expand 1 position "S" (0x8000000000000000 :: rest) =
      (.ok (Tree.over "S" position [.leaf "x" ⟨position, position + 1⟩]), rest) := by
  have hleaf : doublingGenerator.expand 2 position "x" rest = _ :=
    Generator.expand_of_terminal productionsFor_doubling_word 2 position rest
  exact Generator.expand_of_choose rfl (choose_doubling rfl rfl (some 2) rest)
    (Generator.expandAll_cons_of_ok hleaf rfl)

/-- The tree of two words that `doubling` derives. -/
def doubled : Tree :=
  .over "S" 0 [.over "S" 0 [.leaf "x" ⟨0, 1⟩], .over "S" 1 [.leaf "x" ⟨1, 2⟩]]

theorem derives_doubled : Derives doubling.productions ["x", "x"] "S" 0 2 doubled :=
  .pair hasRule_doubling_pair Nat.one_pos Nat.one_lt_two (.word hasRule_doubling_word rfl)
    (.word hasRule_doubling_word rfl)

/-- A word from the lower half and two from the upper one expand the start symbol to the tree of two
words. -/
theorem expand_doubling :
    doublingGenerator.expand 0 0 "S" [0, 0x8000000000000000, 0x8000000000000000] =
      (.ok doubled, []) := by
  have hsecond : doublingGenerator.expandAll 1 1 ["S"] [0x8000000000000000] = _ :=
    Generator.expandAll_cons_of_ok (expand_doubling_word 1 []) rfl
  have hchildren : doublingGenerator.expandAll 1 0 ["S", "S"]
      [0x8000000000000000, 0x8000000000000000] = _ :=
    Generator.expandAll_cons_of_ok (expand_doubling_word 0 _) hsecond
  exact Generator.expand_of_choose rfl (choose_doubling rfl rfl (some 2) _) hchildren

/-- The same three words make a run write the text of that tree. -/
theorem sample_doubling :
    doublingGenerator.sample "S" [0, 0x8000000000000000, 0x8000000000000000] =
      (.ok "(S (S x) (S x))", []) := by
  rw [Generator.sample_of_nonterminal productionsFor_doubling_ne_nil, expand_doubling]
  rfl

/-! ## From a generator to a chart -/

/-- On a closed grammar, what a run writes is the text of a derivation of the derivation's own
words. -/
theorem Generator.exists_derivation_of_sample {gen : Generator} (closed : gen.grammar.IsClosed)
    {start sentence : String} {supply left : Random.Supply}
    (h : gen.sample start supply = (.ok sentence, left)) :
    ∃ t, gen.expand 0 0 start supply = (.ok t, left) ∧ t.text = sentence ∧
      Derives gen.grammar.productions t.leaves start 0 t.leaves.length t := by
  obtain ⟨ne, t, hexpand, htext⟩ := Generator.exists_expand_of_sample h
  have hstart := gen.grammar.productionsFor_ne_nil_iff.mp ne
  have hderives := (generated_of_expand hexpand).derives closed hstart [] [] rfl
  rw [List.nil_append, List.append_nil] at hderives
  exact ⟨t, hexpand, htext, hderives⟩

/-- **Everything generated parses back**: on a closed grammar, a sentence that a generator writes
is the text of a tree that the chart of the tree's own words holds for the start symbol. -/
theorem exists_parse_of_sample {gen : Generator} (closed : gen.grammar.IsClosed)
    {start sentence : String} {supply left : Random.Supply}
    (h : gen.sample start supply = (.ok sentence, left)) :
    ∃ words, words ≠ [] ∧ ∃ t ∈ (gen.grammar.chart words).treesFor start,
      t.text = sentence ∧ t.leaves = words := by
  obtain ⟨t, -, htext, hderives⟩ := Generator.exists_derivation_of_sample closed h
  -- a derivation of all of the tree's own words is one that their chart holds
  have hmem : t ∈ (gen.grammar.chart t.leaves).treesFor start :=
    (gen.grammar.mem_treesFor t.leaves).mpr hderives
  exact ⟨t.leaves, List.length_pos_iff.mp hderives.len_pos, t, hmem, htext, rfl⟩

/-- Three drawn words write a sentence of two words, and the chart of these holds a tree with the
same text. -/
theorem exists_parse_doubling :
    doublingGenerator.grammar.IsClosed ∧
      doublingGenerator.sample "S" [0, 0x8000000000000000, 0x8000000000000000] =
        (.ok "(S (S x) (S x))", []) ∧
      ∃ words, words ≠ [] ∧ ∃ t ∈ (doublingGenerator.grammar.chart words).treesFor "S",
        t.text = "(S (S x) (S x))" ∧ t.leaves = words := by
  have closed : doublingGenerator.grammar.IsClosed := isClosed_doubling
  exact ⟨closed, sample_doubling, exists_parse_of_sample closed sample_doubling⟩

end PhraseGrammar
