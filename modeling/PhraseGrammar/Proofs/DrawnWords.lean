import Mathlib.Data.List.Forall2
import PhraseGrammar.Proofs.SteeredGeneration

/-!
# The words that a derivation draws

A run makes one choice for each branch of the tree that it builds, in the order in which the
branches' brackets are opened.  So the words that it draws fall into pieces, one for each bracket;
each piece leads the choice at its bracket to what stands within, whatever words come after it; and
the pieces determine the tree.  This holds for both ways to choose, and a piece does not depend on
the limit on nesting.

## Main statements

- `exists_pieces_of_expand`: an expansion has drawn a piece for each bracket of its tree.
- `Generated.expand_of_draws`: such pieces lead to the tree, if no limit is in the way.
-/

namespace PhraseGrammar

/-! ## Brackets -/

namespace Tree

/-- The bracket in which a branch is written. -/
structure Bracket where
  /-- The number of brackets that are open within this one, itself included. -/
  depth : Nat
  symbol : String
  /-- The roots of what stands within the bracket. -/
  contents : List String
deriving DecidableEq

mutual

/-- The brackets of a tree within `outer` others, in the order in which they are opened. -/
def brackets (outer : Nat) : Tree → List Bracket
  | leaf .. => []
  | branch label _ children =>
    ⟨outer + 1, label, children.map value⟩ :: bracketsOfAll (outer + 1) children

/-- The brackets of a list of trees within `outer` others. -/
def bracketsOfAll (outer : Nat) : List Tree → List Bracket
  | [] => []
  | child :: rest => brackets outer child ++ bracketsOfAll outer rest

end

mutual

theorem length_brackets : ∀ (outer : Nat) (t : Tree), (t.brackets outer).length = t.branchCount
  | _, leaf .. => rfl
  | outer, branch _ _ children => by
    rw [brackets, List.length_cons, length_bracketsOfAll, branchCount, Nat.add_comm]

theorem length_bracketsOfAll : ∀ (outer : Nat) (ts : List Tree),
    (bracketsOfAll outer ts).length = branchCountOfAll ts
  | _, [] => rfl
  | outer, child :: rest => by
    rw [bracketsOfAll, List.length_append, length_brackets, length_bracketsOfAll,
      branchCountOfAll]

end

theorem brackets_doubled :
    doubled.brackets 0 = [⟨1, "S", ["S", "S"]⟩, ⟨2, "S", ["x"]⟩, ⟨2, "S", ["x"]⟩] :=
  rfl

variable (symbol : String) (position : Nat) (children : List Tree)

/-- The outermost bracket of a branch comes first, and those of its children are one level deeper.
-/
theorem brackets_over (outer : Nat) :
    (Tree.over symbol position children).brackets outer =
      ⟨outer + 1, symbol, children.map value⟩ :: bracketsOfAll (outer + 1) children := by
  rw [Tree.over, brackets]

theorem branchHeight_over :
    (Tree.over symbol position children).branchHeight = 1 + branchHeightOfAll children := by
  rw [Tree.over, branchHeight]

end Tree

/-- What corresponds to two lists put together falls into what corresponds to each. -/
theorem exists_of_forall₂_append {α β : Type} {R : α → β → Prop} {as as' : List α} {bs : List β}
    (h : List.Forall₂ R (as ++ as') bs) :
    ∃ front back, bs = front ++ back ∧ List.Forall₂ R as front ∧ List.Forall₂ R as' back := by
  refine ⟨bs.take as.length, bs.drop as.length, (List.take_append_drop _ _).symm, ?_, ?_⟩
  · exact (List.forall₂_take_append bs as as' h.flip).flip
  · exact (List.forall₂_drop_append bs as as' h.flip).flip

/-! ## What a choice draws -/

namespace Generator

variable {gen : Generator}

/-- The words lead the choice at a bracket to what stands within, whatever comes after them. -/
def Draws (gen : Generator) (bracket : Tree.Bracket) (words : Random.Supply) : Prop :=
  ∃ (ne : gen.grammar.productionsFor bracket.symbol ≠ []) (p : Production),
    p.rhs.symbols = bracket.contents ∧
      ∀ rest, gen.choose (gen.grammar.productionsFor bracket.symbol) ne (words ++ rest) =
        (.ok p, rest)

/-- No choice is made without a word. -/
theorem Draws.length_pos {bracket : Tree.Bracket} {words : Random.Supply}
    (h : gen.Draws bracket words) : 0 < words.length := by
  obtain ⟨ne, p, -, hchoose⟩ := h
  have hlt := length_choose_lt (hchoose [])
  simpa using hlt

/-- As every bracket draws a word, there are no fewer words than brackets. -/
theorem length_le_of_draws {brackets : List Tree.Bracket} {pieces : List Random.Supply}
    (h : List.Forall₂ gen.Draws brackets pieces) : brackets.length ≤ pieces.flatten.length := by
  induction h with
  | nil => exact Nat.zero_le _
  | cons hdraws _ ih =>
    have := hdraws.length_pos
    rw [List.length_cons, List.flatten_cons, List.length_append]
    omega

/-- If there are no more words than brackets, each bracket draws one. -/
theorem singletons_of_draws {brackets : List Tree.Bracket} {pieces : List Random.Supply}
    (h : List.Forall₂ gen.Draws brackets pieces)
    (hlength : pieces.flatten.length = brackets.length) :
    pieces = pieces.flatten.map fun v => [v] := by
  induction h with
  | nil => rfl
  -- the first bracket has at least one word, and the others leave it no second
  | @cons b words brackets pieces hdraws hrest ih =>
    have hpos := hdraws.length_pos
    have hle := length_le_of_draws hrest
    rw [List.flatten_cons, List.length_append, List.length_cons] at hlength
    obtain ⟨v, rfl⟩ : ∃ v, words = [v] := List.length_eq_one_iff.mp (by omega)
    have hothers := ih (by omega)
    rw [List.flatten_cons, List.map_append, List.map_singleton, ← hothers, List.singleton_append]

/-! ## From an expansion to its pieces -/

theorem value_of_expand {depth position : Nat} {symbol : String} {supply left : Random.Supply}
    {t : Tree} (h : gen.expand depth position symbol supply = (.ok t, left)) :
    t.value = symbol := by
  rcases expand_eq_ok h with ⟨-, rfl, -⟩ | ⟨-, -, -, -, -, -, -, rfl⟩ <;> rfl

theorem values_of_expandAll {depth position : Nat} {symbols : List String}
    {supply left : Random.Supply} {ts : List Tree}
    (h : gen.expandAll depth position symbols supply = (.ok ts, left)) :
    ts.map Tree.value = symbols := by
  induction symbols generalizing position supply ts with
  | nil => cases h; rfl
  | cons symbol symbols ih =>
    obtain ⟨t, rest, middle, rfl, ht, hrest⟩ := expandAll_cons_eq_ok h
    rw [List.map_cons, value_of_expand ht, ih hrest]

section Induction

variable (one : Nat → Random.Supply → Tree → Random.Supply → Prop)
  (all : Nat → Random.Supply → List Tree → Random.Supply → Prop)

/-- What holds of the expansions of single symbols holds of those of lists. -/
private theorem expandAll_induction {bound : Nat}
    (ih : ∀ depth position symbol supply t left, supply.length < bound →
      gen.expand depth position symbol supply = (.ok t, left) → one depth supply t left)
    (nil : ∀ depth supply, all depth supply [] supply)
    (cons : ∀ {depth supply t middle ts left}, one depth supply t middle →
      all depth middle ts left → all depth supply (t :: ts) left)
    {depth position : Nat} {symbols : List String} {supply left : Random.Supply} {ts : List Tree}
    (hlt : supply.length < bound)
    (h : gen.expandAll depth position symbols supply = (.ok ts, left)) :
    all depth supply ts left := by
  induction symbols generalizing position supply ts with
  | nil => cases h; exact nil depth _
  | cons symbol symbols ihs =>
    obtain ⟨t, rest, middle, rfl, ht, hrest⟩ := expandAll_cons_eq_ok h
    have hle := gen.length_expand_le depth position symbol supply
    rw [ht] at hle
    exact cons (ih _ _ _ _ _ _ hlt ht) (ihs (Nat.lt_of_le_of_lt hle hlt) hrest)

/-- What holds of leaves, and of a branch if it holds of the list of its children, holds of every
tree that is expanded. -/
theorem expand_induction
    (leaf : ∀ depth symbol position supply,
      one depth supply (.leaf symbol ⟨position, position + 1⟩) supply)
    (branch : ∀ {depth position symbol supply p middle children left}
      (ne : gen.grammar.productionsFor symbol ≠ []), gen.exceededLimit? (depth + 1) = none →
      gen.choose (gen.grammar.productionsFor symbol) ne supply = (.ok p, middle) →
      children.map Tree.value = p.rhs.symbols → all (depth + 1) middle children left →
      one depth supply (Tree.over symbol position children) left)
    (nil : ∀ depth supply, all depth supply [] supply)
    (cons : ∀ {depth supply t middle ts left}, one depth supply t middle →
      all depth middle ts left → all depth supply (t :: ts) left)
    {depth position : Nat} {symbol : String} {supply left : Random.Supply} {t : Tree}
    (h : gen.expand depth position symbol supply = (.ok t, left)) : one depth supply t left := by
  induction hn : supply.length using Nat.strongRecOn
    generalizing depth position symbol supply left t with
  | ind n ih =>
    subst hn
    rcases expand_eq_ok h with ⟨-, rfl, rfl⟩ | ⟨ne, p, middle, children, hlimit, hchoose, hall, rfl⟩
    · exact leaf depth symbol position left
    · refine branch ne hlimit hchoose (values_of_expandAll hall) ?_
      exact expandAll_induction one all (fun _ _ _ _ _ _ hlt ht => ih _ hlt ht rfl) nil cons
        (length_choose_lt hchoose) hall

end Induction

/-- An expansion has drawn its words in pieces, one for each bracket. -/
theorem exists_pieces_of_expand {depth position : Nat} {symbol : String}
    {supply left : Random.Supply} {t : Tree}
    (h : gen.expand depth position symbol supply = (.ok t, left)) :
    ∃ pieces, List.Forall₂ gen.Draws (t.brackets depth) pieces ∧
      supply = pieces.flatten ++ left := by
  refine expand_induction
    (fun depth supply t left => ∃ pieces,
      List.Forall₂ gen.Draws (t.brackets depth) pieces ∧ supply = pieces.flatten ++ left)
    (fun depth supply ts left => ∃ pieces,
      List.Forall₂ gen.Draws (Tree.bracketsOfAll depth ts) pieces ∧
        supply = pieces.flatten ++ left) ?_ ?_ ?_ ?_ h
  · intro depth symbol position supply
    exact ⟨[], .nil, rfl⟩
  -- what the choice has taken is the piece of the bracket, in front of those of its children
  · rintro depth position symbol supply p middle children left ne - hchoose hvalues
      ⟨pieces, hpieces, rfl⟩
    obtain ⟨words, rfl, hwords⟩ := (takesFront_choose _ ne supply).exists_words_of_ok hchoose
    refine ⟨words :: pieces, ?_, by rw [List.flatten_cons, List.append_assoc]⟩
    rw [Tree.brackets_over]
    exact .cons ⟨ne, p, hvalues.symm, hwords⟩ hpieces
  · intro depth supply
    exact ⟨[], .nil, rfl⟩
  · rintro depth supply t middle ts left ⟨first, hfirst, rfl⟩ ⟨others, hothers, rfl⟩
    refine ⟨first ++ others, List.rel_append hfirst hothers, ?_⟩
    rw [List.flatten_append, List.append_assoc]

/-- No tree has higher branches than the limit on nesting allows. -/
theorem branchHeight_le_of_expand {depth position limit : Nat} {symbol : String}
    {supply left : Random.Supply} {t : Tree} (hlimit : gen.maxDepth = some limit)
    (hdepth : depth ≤ limit) (h : gen.expand depth position symbol supply = (.ok t, left)) :
    depth + t.branchHeight ≤ limit := by
  refine expand_induction
    (fun depth _ t _ => depth ≤ limit → depth + t.branchHeight ≤ limit)
    (fun depth _ ts _ => depth ≤ limit → depth + Tree.branchHeightOfAll ts ≤ limit)
    ?_ ?_ ?_ ?_ h hdepth
  · intro depth symbol position supply hdepth
    exact hdepth
  -- opening the bracket was within the limit, one level below where the branch stands
  · intro depth position symbol supply p middle children left _ hwithin _ _ hchildren _
    have := hchildren (le_of_exceededLimit?_eq_none hlimit hwithin)
    rw [Tree.branchHeight_over]
    omega
  · intro depth supply hdepth
    exact hdepth
  · intro depth supply t middle ts left hfirst hothers hdepth
    have := hfirst hdepth
    have := hothers hdepth
    rw [Tree.branchHeightOfAll]
    omega

end Generator

/-! ## From pieces to an expansion -/

namespace Generated

variable {g : Grammar} {symbol : String} {position : Nat} {t : Tree}

theorem value_eq (h : Generated g symbol position t) : t.value = symbol := by
  cases h <;> rfl

/-- What holds of leaves, and of a branch if it holds of the list of its children, holds of every
tree that can be generated. -/
theorem children_induction (one : String → Nat → Tree → Prop)
    (all : List String → Nat → List Tree → Prop)
    (leaf : ∀ {symbol position}, g.productionsFor symbol = [] →
      one symbol position (.leaf symbol ⟨position, position + 1⟩))
    (branch : ∀ {symbol position rhs children}, HasRule g.productions symbol rhs →
      children.map Tree.value = rhs.symbols → all rhs.symbols position children →
      one symbol position (Tree.over symbol position children))
    (nil : ∀ position, all [] position [])
    (cons : ∀ {symbol symbols position t ts}, Generated g symbol position t →
      one symbol position t → all symbols (position + t.leaves.length) ts →
      all (symbol :: symbols) position (t :: ts))
    (h : Generated g symbol position t) : one symbol position t := by
  induction h with
  | leaf hterminal => exact leaf hterminal
  -- the list of one child, or of two, is put together from its end
  | word rule hchild ih =>
    refine branch rule ?_ (cons hchild ih (nil _))
    rw [List.map_singleton, hchild.value_eq, RightSide.symbols]
  | pair rule hleft hright ihleft ihright =>
    refine branch rule ?_ (cons hleft ihleft (cons hright ihright (nil _)))
    rw [List.map_cons, List.map_singleton, hleft.value_eq, hright.value_eq, RightSide.symbols]

/-- Pieces of words, one for each bracket, lead to the tree, if no limit is in the way. -/
theorem expand_of_draws {gen : Generator} (h : Generated gen.grammar symbol position t)
    {depth : Nat} {pieces : List Random.Supply}
    (hpieces : List.Forall₂ gen.Draws (t.brackets depth) pieces)
    (hroom : ∀ limit, gen.maxDepth = some limit → depth + t.branchHeight ≤ limit)
    (rest : Random.Supply) :
    gen.expand depth position symbol (pieces.flatten ++ rest) = (.ok t, rest) := by
  refine h.children_induction
    (fun symbol position t => ∀ depth pieces rest,
      List.Forall₂ gen.Draws (t.brackets depth) pieces →
      (∀ limit, gen.maxDepth = some limit → depth + t.branchHeight ≤ limit) →
      gen.expand depth position symbol (pieces.flatten ++ rest) = (.ok t, rest))
    (fun symbols position ts => ∀ depth pieces rest,
      List.Forall₂ gen.Draws (Tree.bracketsOfAll depth ts) pieces →
      (∀ limit, gen.maxDepth = some limit → depth + Tree.branchHeightOfAll ts ≤ limit) →
      gen.expandAll depth position symbols (pieces.flatten ++ rest) = (.ok ts, rest))
    ?_ ?_ ?_ ?_ depth pieces rest hpieces hroom
  · intro symbol position hterminal depth pieces rest hpieces _
    cases hpieces
    exact Generator.expand_of_terminal hterminal depth position rest
  -- the piece of this bracket leads to its right-hand side, and the other pieces to the children
  · intro symbol position rhs children _ hvalues hchildren depth pieces rest hpieces hroom
    rw [Tree.brackets_over] at hpieces
    cases hpieces with
    | @cons _ words _ pieces hdraws hpieces =>
      obtain ⟨ne, p, hsymbols, hchoose⟩ := hdraws
      rw [Tree.branchHeight_over] at hroom
      have hlimit : gen.exceededLimit? (depth + 1) = none := by
        apply Generator.exceededLimit?_eq_none
        intro limit hlimit
        have := hroom limit hlimit
        omega
      rw [List.flatten_cons, List.append_assoc]
      refine Generator.expand_of_choose hlimit (hchoose _) ?_
      rw [hsymbols, hvalues]
      refine hchildren _ _ _ hpieces fun limit hlimit => ?_
      have := hroom limit hlimit
      omega
  · intro position depth pieces rest hpieces _
    cases hpieces
    rfl
  -- the pieces are divided between the first tree and the others
  · intro symbol symbols position t ts _ hfirst hothers depth pieces rest hpieces hroom
    obtain ⟨front, back, rfl, hfront, hback⟩ := exists_of_forall₂_append hpieces
    rw [Tree.branchHeightOfAll] at hroom
    rw [List.flatten_append, List.append_assoc]
    refine Generator.expandAll_cons_of_ok (hfirst _ _ _ hfront fun limit hlimit => ?_)
      (hothers _ _ _ hback fun limit hlimit => ?_)
    · have := hroom limit hlimit
      omega
    · have := hroom limit hlimit
      omega

end Generated

end PhraseGrammar
