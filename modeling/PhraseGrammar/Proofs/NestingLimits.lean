import PhraseGrammar.Proofs.Choices
import PhraseGrammar.Proofs.DrawnWords

/-!
# Limits on nesting

A limit on nesting takes no part in a choice.  So a run with a limit goes as the run without one
does until a bracket would nest too deep, and there it fails, before it draws the bracket's words.
And as a right-hand side has at most two symbols, a limit of `d` levels leaves room for `2 ^ d - 1`
brackets over `2 ^ d` words, and no run makes more choices than that, however it ends.

## Main statements

- `Generated.expand_beyond`: where an expansion with a limit fails, and what it has drawn by then.
- `limit_filters_runs`: a limit keeps a run as it is, or ends it at the first bracket beyond.
- `paysFor_limitedWork`: the room that a limit leaves pays for all choices.
- `limit_bounds_work`: bounds on the choices of every run, and on what a run writes.
-/

namespace PhraseGrammar

/-! ## The first bracket beyond a limit -/

namespace Tree

/-- `FirstBeyond limit brackets before b`: in the order in which they are opened, `b` is the first
of the brackets that nests deeper than the limit, by one level, and `before` are those before it. -/
structure FirstBeyond (limit : Nat) (brackets before : List Bracket) (b : Bracket) : Prop where
  opened : ∃ after, brackets = before ++ b :: after
  depth_eq : b.depth = limit + 1
  within : ∀ b' ∈ before, b'.depth ≤ limit

namespace FirstBeyond

variable {limit : Nat} {brackets before : List Bracket} {b : Bracket}

theorem length_le (h : FirstBeyond limit brackets before b) : before.length ≤ brackets.length := by
  obtain ⟨after, rfl⟩ := h.opened
  simp

theorem append_right (h : FirstBeyond limit brackets before b) (later : List Bracket) :
    FirstBeyond limit (brackets ++ later) before b := by
  obtain ⟨after, rfl⟩ := h.opened
  exact ⟨⟨after ++ later, by simp⟩, h.depth_eq, h.within⟩

theorem append_left (h : FirstBeyond limit brackets before b) {earlier : List Bracket}
    (hearlier : ∀ b' ∈ earlier, b'.depth ≤ limit) :
    FirstBeyond limit (earlier ++ brackets) (earlier ++ before) b := by
  obtain ⟨after, rfl⟩ := h.opened
  refine ⟨⟨after, by simp⟩, h.depth_eq, ?_⟩
  rw [List.forall_mem_append]
  exact ⟨hearlier, h.within⟩

end FirstBeyond

mutual

/-- Brackets nest as deep as the height of their tree at most. -/
theorem depth_le_of_mem_brackets : ∀ {outer : Nat} {t : Tree} {b : Bracket},
    b ∈ t.brackets outer → b.depth ≤ outer + t.branchHeight
  | _, leaf .., _, h => absurd h List.not_mem_nil
  | outer, branch _ _ children, b, h => by
    rw [brackets, List.mem_cons] at h
    rw [branchHeight]
    rcases h with rfl | h
    · exact Nat.add_le_add_left (Nat.le_add_right 1 _) outer
    · have := depth_le_of_mem_bracketsOfAll h
      omega

theorem depth_le_of_mem_bracketsOfAll : ∀ {outer : Nat} {ts : List Tree} {b : Bracket},
    b ∈ bracketsOfAll outer ts → b.depth ≤ outer + branchHeightOfAll ts
  | _, [], _, h => absurd h List.not_mem_nil
  | outer, child :: rest, b, h => by
    rw [bracketsOfAll, List.mem_append] at h
    rw [branchHeightOfAll]
    rcases h with h | h
    · have := depth_le_of_mem_brackets h
      omega
    · have := depth_le_of_mem_bracketsOfAll h
      omega

end

end Tree

/-! ## Failing at the limit -/

open PhraseGrammar.Tree (FirstBeyond bracketsOfAll branchHeightOfAll)

namespace Generator

variable {gen : Generator} {depth position limit : Nat} {symbol : String} {e : GenerateError}
  {supply middle left : Random.Supply}

/-- A bracket beyond the limit is an error, and draws nothing. -/
theorem expand_of_exceeded (ne : gen.grammar.productionsFor symbol ≠ [])
    (hlimit : gen.exceededLimit? (depth + 1) = some limit) (supply : Random.Supply) :
    gen.expand depth position symbol supply =
      (.error (.depthExceeded limit symbol), supply) := by
  rw [expand_eq, dif_pos ne, hlimit]

/-- If what stands within a bracket fails, so does the bracket. -/
theorem expand_of_choose_of_error {p : Production}
    {ne : gen.grammar.productionsFor symbol ≠ []}
    (hlimit : gen.exceededLimit? (depth + 1) = none)
    (hchoose : gen.choose (gen.grammar.productionsFor symbol) ne supply = (.ok p, middle))
    (hchildren : gen.expandAll (depth + 1) position p.rhs.symbols middle = (.error e, left)) :
    gen.expand depth position symbol supply = (.error e, left) := by
  rw [expand_eq, dif_pos ne, hlimit]
  simp only [hchoose, hchildren]

/-- If the first symbol fails, the others are not expanded. -/
theorem expandAll_cons_of_error {symbols : List String}
    (h : gen.expand depth position symbol supply = (.error e, left)) :
    gen.expandAll depth position (symbol :: symbols) supply = (.error e, left) := by
  simp only [expandAll, h]

/-- If one of the other symbols fails, all of them do. -/
theorem expandAll_cons_of_rest_error {symbols : List String} {t : Tree}
    (h : gen.expand depth position symbol supply = (.ok t, middle))
    (hrest : gen.expandAll depth (position + t.leaves.length) symbols middle = (.error e, left)) :
    gen.expandAll depth position (symbol :: symbols) supply = (.error e, left) := by
  simp only [expandAll, h, hrest]

end Generator

/-- With a piece of words for each bracket, an expansion fails at the first bracket beyond the
limit.  The pieces of the brackets before are drawn, and the others are left. -/
def FailsBeyond {α : Type} (limit : Nat) (brackets : List Tree.Bracket)
    (pieces : List Random.Supply) (rest : Random.Supply)
    (outcome : Except GenerateError α × Random.Supply) : Prop :=
  ∃ before b, FirstBeyond limit brackets before b ∧
    outcome = (.error (.depthExceeded limit b.symbol), (pieces.drop before.length).flatten ++ rest)

section FailsBeyond

variable {gen : Generator} {depth position limit : Nat} {symbol : String} {symbols : List String}
  {t : Tree} {ts : List Tree} {words : Random.Supply} {pieces front back : List Random.Supply}
  {rest : Random.Supply}

/-- A bracket that would be the first one beyond the limit draws nothing. -/
theorem failsBeyond_of_deepest (hlimit : gen.maxDepth = some depth)
    (hdraws : gen.Draws ⟨depth + 1, symbol, ts.map Tree.value⟩ words) :
    FailsBeyond depth ((Tree.over symbol position ts).brackets depth) (words :: pieces) rest
      (gen.expand depth position symbol ((words :: pieces).flatten ++ rest)) := by
  obtain ⟨ne, -, -, -⟩ := hdraws
  have hexceeded : gen.exceededLimit? (depth + 1) = some depth := by
    rw [Generator.exceededLimit?_of_limit hlimit, if_pos (Nat.lt_succ_self depth)]
  rw [Tree.brackets_over]
  exact ⟨[], _, ⟨⟨_, rfl⟩, rfl, by simp⟩, Generator.expand_of_exceeded ne hexceeded _⟩

/-- If there is room for a bracket, but not for all that stands within, the first one beyond the
limit is among those within, and the choice for the bracket itself is made. -/
theorem FailsBeyond.over (hlimit : gen.maxDepth = some limit) (hroom : depth + 1 ≤ limit)
    (hdraws : gen.Draws ⟨depth + 1, symbol, ts.map Tree.value⟩ words)
    (h : FailsBeyond limit (bracketsOfAll (depth + 1) ts) pieces rest
      (gen.expandAll (depth + 1) position (ts.map Tree.value) (pieces.flatten ++ rest))) :
    FailsBeyond limit ((Tree.over symbol position ts).brackets depth) (words :: pieces) rest
      (gen.expand depth position symbol ((words :: pieces).flatten ++ rest)) := by
  obtain ⟨ne, p, hsymbols, hchoose⟩ := hdraws
  obtain ⟨before, b, hfirst, hfails⟩ := h
  have hwithin : gen.exceededLimit? (depth + 1) = none := by
    rw [Generator.exceededLimit?_of_limit hlimit, if_neg (Nat.not_lt.mpr hroom)]
  have hroot : ∀ b' ∈ [Tree.Bracket.mk (depth + 1) symbol (ts.map Tree.value)], b'.depth ≤ limit :=
    List.forall_mem_singleton.mpr hroom
  rw [Tree.brackets_over, List.flatten_cons, List.append_assoc]
  refine ⟨_, b, hfirst.append_left hroot, ?_⟩
  refine Generator.expand_of_choose_of_error hwithin (hchoose _) ?_
  rw [hsymbols]
  exact hfails

/-- If the first tree of a list is too high, the words for the others are left. -/
theorem FailsBeyond.first (hlength : (t.brackets depth).length = front.length)
    (h : FailsBeyond limit (t.brackets depth) front (back.flatten ++ rest)
      (gen.expand depth position symbol (front.flatten ++ (back.flatten ++ rest)))) :
    FailsBeyond limit (bracketsOfAll depth (t :: ts)) (front ++ back) rest
      (gen.expandAll depth position (symbol :: symbols) ((front ++ back).flatten ++ rest)) := by
  obtain ⟨before, b, hfirst, hfails⟩ := h
  have hle : before.length ≤ front.length := hlength ▸ hfirst.length_le
  rw [bracketsOfAll, List.flatten_append, List.append_assoc]
  refine ⟨before, b, hfirst.append_right _, ?_⟩
  rw [Generator.expandAll_cons_of_error hfails, List.drop_append_of_le_length hle,
    List.flatten_append, List.append_assoc]

/-- If the first tree of a list is expanded and the others are too high, the words of all brackets of
the first are drawn. -/
theorem FailsBeyond.others (hlength : (t.brackets depth).length = front.length)
    (hfits : depth + t.branchHeight ≤ limit)
    (ht : gen.expand depth position symbol (front.flatten ++ (back.flatten ++ rest)) =
      (.ok t, back.flatten ++ rest))
    (h : FailsBeyond limit (bracketsOfAll depth ts) back rest
      (gen.expandAll depth (position + t.leaves.length) symbols (back.flatten ++ rest))) :
    FailsBeyond limit (bracketsOfAll depth (t :: ts)) (front ++ back) rest
      (gen.expandAll depth position (symbol :: symbols) ((front ++ back).flatten ++ rest)) := by
  obtain ⟨before, b, hfirst, hfails⟩ := h
  have hwithin : ∀ b' ∈ t.brackets depth, b'.depth ≤ limit := fun b' hb' =>
    Nat.le_trans (Tree.depth_le_of_mem_brackets hb') hfits
  rw [bracketsOfAll, List.flatten_append, List.append_assoc]
  refine ⟨_, b, hfirst.append_left hwithin, ?_⟩
  rw [Generator.expandAll_cons_of_rest_error ht hfails, List.length_append, hlength,
    ← List.drop_drop, List.drop_left]

end FailsBeyond

/-- A tree that is higher than the limit leaves room for is not expanded. -/
theorem Generated.expand_beyond {gen : Generator} {limit : Nat} (hlimit : gen.maxDepth = some limit)
    {symbol : String} {position : Nat} {t : Tree} (h : Generated gen.grammar symbol position t)
    {depth : Nat} {pieces : List Random.Supply}
    (hpieces : List.Forall₂ gen.Draws (t.brackets depth) pieces) (hdepth : depth ≤ limit)
    (hbeyond : limit < depth + t.branchHeight) (rest : Random.Supply) :
    FailsBeyond limit (t.brackets depth) pieces rest
      (gen.expand depth position symbol (pieces.flatten ++ rest)) := by
  -- over the tree, for all depths and pieces at once, as both change from bracket to bracket
  refine h.children_induction
    (fun symbol position t => ∀ depth pieces rest,
      List.Forall₂ gen.Draws (t.brackets depth) pieces → depth ≤ limit →
      limit < depth + t.branchHeight →
      FailsBeyond limit (t.brackets depth) pieces rest
        (gen.expand depth position symbol (pieces.flatten ++ rest)))
    (fun symbols position ts => ∀ depth pieces rest,
      List.Forall₂ gen.Draws (bracketsOfAll depth ts) pieces → depth ≤ limit →
      limit < depth + branchHeightOfAll ts →
      FailsBeyond limit (bracketsOfAll depth ts) pieces rest
        (gen.expandAll depth position symbols (pieces.flatten ++ rest)))
    ?leaf ?branch ?nil ?cons depth pieces rest hpieces hdepth hbeyond
  case leaf =>
    intro symbol position _ depth pieces rest _ hdepth hbeyond
    exact absurd hbeyond (Nat.not_lt.mpr hdepth)
  case branch =>
    intro symbol position rhs children _ hvalues hchildren depth pieces rest hpieces hdepth hbeyond
    rw [Tree.brackets_over] at hpieces
    rw [Tree.branchHeight_over, ← Nat.add_assoc] at hbeyond
    cases hpieces with
    | cons hdraws hpieces =>
      rcases Nat.lt_or_eq_of_le hdepth with hroom | rfl
      · have hfails := hchildren (depth + 1) _ rest hpieces hroom hbeyond
        rw [← hvalues] at hfails
        exact hfails.over hlimit hroom hdraws
      · exact failsBeyond_of_deepest hlimit hdraws
  case nil =>
    intro position depth pieces rest _ hdepth hbeyond
    exact absurd hbeyond (Nat.not_lt.mpr hdepth)
  case cons =>
    intro symbol symbols position t ts ht hone hothers depth pieces rest hpieces hdepth hbeyond
    obtain ⟨front, back, rfl, hfront, hback⟩ := exists_of_forall₂_append hpieces
    rw [branchHeightOfAll] at hbeyond
    -- either the first tree is too high, or one of the others is
    rcases Nat.lt_or_ge limit (depth + t.branchHeight) with hhigh | hfits
    · exact (hone depth front _ hfront hdepth hhigh).first hfront.length_eq
    · have hroom : ∀ larger, gen.maxDepth = some larger → depth + t.branchHeight ≤ larger := by
        intro larger hlarger
        rw [hlimit, Option.some.injEq] at hlarger
        exact hlarger ▸ hfits
      have hfails := hothers depth back rest hback hdepth (by omega)
      exact hfails.others hfront.length_eq hfits (ht.expand_of_draws hfront hroom _)

namespace Generator

variable {gen : Generator} {start sentence : String} {supply left : Random.Supply}

/-- The generator with another limit on nesting, or with none. -/
def limited (gen : Generator) (maxDepth : Option Nat) : Generator :=
  { gen with maxDepth }

/-- A limit that leaves room for what is built, or no limit, does not change an expansion. -/
theorem expand_limited_of_room {depth position : Nat} {symbol : String} {t : Tree}
    (h : gen.expand depth position symbol supply = (.ok t, left)) {maxDepth : Option Nat}
    (hroom : ∀ limit, maxDepth = some limit → depth + t.branchHeight ≤ limit) :
    (gen.limited maxDepth).expand depth position symbol supply = (.ok t, left) := by
  obtain ⟨pieces, hpieces, rfl⟩ := exists_pieces_of_expand h
  -- neither the trees nor the words of a choice depend on the limit
  have ht : Generated gen.grammar symbol position t := generated_of_expand h
  have ht' : Generated (gen.limited maxDepth).grammar symbol position t := ht
  have hdraws : List.Forall₂ (gen.limited maxDepth).Draws (t.brackets depth) pieces := hpieces
  exact ht'.expand_of_draws hdraws hroom left

/-- A limit that leaves room for the tree does not change the sample. -/
theorem sample_limited_of_room (ne : gen.grammar.productionsFor start ≠ []) {t : Tree}
    (h : gen.expand 0 0 start supply = (.ok t, left)) {maxDepth : Option Nat}
    (hroom : ∀ limit, maxDepth = some limit → t.branchHeight ≤ limit) :
    (gen.limited maxDepth).sample start supply = (.ok t.text, left) := by
  have ne' : (gen.limited maxDepth).grammar.productionsFor start ≠ [] := ne
  refine sample_of_expand ne' (expand_limited_of_room h ?_)
  intro limit hlimit
  rw [Nat.zero_add]
  exact hroom limit hlimit

/-- **A limit on nesting filters runs.**  If a run without a limit writes a sentence, it builds a
tree and draws a piece of the supply for each bracket of the tree.  With a limit that leaves room
for the height of the tree, the run writes the same and draws the same words.  With a lower limit it
fails at the first bracket that nests beyond the limit, with the words drawn that are drawn for the
brackets before.  So what is written within a limit is written within every larger limit, and
without one, from the same words. -/
theorem limit_filters_runs (gen : Generator) (start : String) (supply : Random.Supply) :
    (∀ sentence left, (gen.limited none).sample start supply = (.ok sentence, left) →
      ∃ t pieces, (gen.limited none).expand 0 0 start supply = (.ok t, left) ∧
        t.text = sentence ∧ List.Forall₂ gen.Draws (t.brackets 0) pieces ∧
        supply = pieces.flatten ++ left ∧
        ∀ limit,
          (t.branchHeight ≤ limit →
            (gen.limited (some limit)).sample start supply = (.ok sentence, left)) ∧
          (limit < t.branchHeight →
            ∃ before b, FirstBeyond limit (t.brackets 0) before b ∧
              (gen.limited (some limit)).sample start supply =
                (.error (.depthExceeded limit b.symbol),
                  (pieces.drop before.length).flatten ++ left))) ∧
    (∀ limit sentence left,
      (gen.limited (some limit)).sample start supply = (.ok sentence, left) →
      ∀ maxDepth, (∀ larger, maxDepth = some larger → limit ≤ larger) →
        (gen.limited maxDepth).sample start supply = (.ok sentence, left)) := by
  constructor
  · intro sentence left h
    obtain ⟨ne, t, hexpand, rfl⟩ := exists_expand_of_sample h
    obtain ⟨pieces, hpieces, hsupply⟩ := exists_pieces_of_expand hexpand
    refine ⟨t, pieces, hexpand, rfl, hpieces, hsupply, fun limit => ⟨?_, ?_⟩⟩
    · intro hfits
      apply sample_limited_of_room ne hexpand
      rintro larger ⟨⟩
      exact hfits
    -- the pieces and the tree are those of the run without a limit
    · intro hbeyond
      have ht : Generated (gen.limited none).grammar start 0 t := generated_of_expand hexpand
      have ht' : Generated (gen.limited (some limit)).grammar start 0 t := ht
      have ne' : (gen.limited (some limit)).grammar.productionsFor start ≠ [] := ne
      have hdraws : List.Forall₂ (gen.limited (some limit)).Draws (t.brackets 0) pieces := hpieces
      rw [← Nat.zero_add t.branchHeight] at hbeyond
      obtain ⟨before, b, hfirst, hfails⟩ :=
        ht'.expand_beyond rfl hdraws (Nat.zero_le limit) hbeyond left
      refine ⟨before, b, hfirst, ?_⟩
      rw [sample_of_nonterminal ne', hsupply, hfails]
      rfl
  -- what has room within a limit has room within every larger one
  · intro limit sentence left h maxDepth hlarger
    obtain ⟨ne, t, hexpand, rfl⟩ := exists_expand_of_sample h
    have hheight := branchHeight_le_of_expand rfl (Nat.zero_le limit) hexpand
    rw [Nat.zero_add] at hheight
    exact sample_limited_of_room ne hexpand fun larger hmax =>
      Nat.le_trans hheight (hlarger larger hmax)

/-- The tree of two words is two brackets high: with no limit, or one of three, the same words give
it; with a limit of one, the second bracket is an error, and its word is left. -/
theorem limit_filters_runs_doubling :
    (doublingGenerator.limited none).sample "S" [0, 0x8000000000000000, 0x8000000000000000] =
        (.ok "(S (S x) (S x))", []) ∧
      (doublingGenerator.limited (some 3)).sample "S"
        [0, 0x8000000000000000, 0x8000000000000000] = (.ok "(S (S x) (S x))", []) ∧
      (doublingGenerator.limited (some 1)).sample "S"
        [0, 0x8000000000000000, 0x8000000000000000] =
          (.error (.depthExceeded 1 "S"), [0x8000000000000000, 0x8000000000000000]) := by
  have hfilters :=
    limit_filters_runs doublingGenerator "S" [0, 0x8000000000000000, 0x8000000000000000]
  -- the generator's own limit is two
  have hlarger := hfilters.2 2 _ _ sample_doubling
  have hnone := hlarger none (fun _ h => nomatch h)
  have hthree := hlarger (some 3) (by rintro _ ⟨⟩; decide)
  obtain ⟨t, pieces, hexpand, -, hpieces, hsupply, hlimits⟩ := hfilters.1 _ _ hnone
  have hdoubled : (doublingGenerator.limited none).expand 0 0 "S"
      [0, 0x8000000000000000, 0x8000000000000000] = (.ok doubled, []) :=
    expand_limited_of_room expand_doubling (fun _ h => nomatch h)
  obtain rfl : doubled = t := by
    rw [hexpand] at hdoubled
    cases hdoubled
    rfl
  -- three words for three brackets
  rw [List.append_nil] at hsupply
  have hpieces' := singletons_of_draws hpieces (by rw [← hsupply]; rfl)
  rw [← hsupply] at hpieces'
  -- beyond a limit of one, the first of the three is the second
  obtain ⟨before, b, hfirst, hfails⟩ := (hlimits 1).2 (by decide)
  obtain ⟨after, hopened⟩ := hfirst.opened
  have hdeep := hfirst.depth_eq
  have hwithin := hfirst.within
  rw [Tree.brackets_doubled] at hopened
  rcases before with _ | ⟨b₁, _ | ⟨b₂, before⟩⟩
  · simp only [List.nil_append, List.cons.injEq] at hopened
    simp [← hopened.1] at hdeep
  · simp only [List.cons_append, List.nil_append, List.cons.injEq] at hopened
    obtain ⟨-, rfl, -⟩ := hopened
    rw [hpieces'] at hfails
    exact ⟨hnone, hthree, hfails⟩
  · simp only [List.cons_append, List.cons.injEq] at hopened
    simp [← hopened.2.1] at hwithin

/-! ## Work within a limit -/

/-- How many choices the pending work may cost, if each symbol costs as many as there is room for
below the limit. -/
def limitedWork (limit : Nat) : List Task → Nat
  | [] => 0
  | .expand _ :: rest => 2 ^ (limit - rest.count .close) - 1 + limitedWork limit rest
  | .space :: rest => limitedWork limit rest
  | .close :: rest => limitedWork limit rest

/-- The work for a symbol costs as many choices as there is room for below the brackets that are
open. -/
theorem limitedWork_symbolTasks_append (limit : Nat) (g : Grammar) (symbol : String)
    (rest : List Task) :
    limitedWork limit (symbolTasks g symbol ++ rest) =
      2 ^ (limit - rest.count .close) - 1 + limitedWork limit rest := by
  unfold symbolTasks
  split <;> rfl

/-- Symbols side by side have the same room each. -/
theorem limitedWork_flatMap_append (limit : Nat) (g : Grammar) (symbols : List String)
    (rest : List Task) :
    limitedWork limit (symbols.flatMap (symbolTasks g) ++ rest) =
      symbols.length * (2 ^ (limit - rest.count .close) - 1) + limitedWork limit rest := by
  -- the work for a symbol closes none of the open brackets, so the next symbol has the same room
  induction symbols with
  | nil => simp
  | cons symbol symbols ih =>
    rw [List.flatMap_cons, List.append_assoc, limitedWork_symbolTasks_append, ih, List.count_append,
      count_close_symbolTasks, Nat.zero_add, List.length_cons, Nat.succ_mul]
    omega

/-- A right-hand side costs less than its symbol, one level above it. -/
theorem limitedWork_rightSide_lt (g : Grammar) (rhs : RightSide) (symbol : String)
    {rest : List Task} {limit : Nat} (room : rest.count .close < limit) :
    limitedWork limit (rightSideTasks g rhs ++ .close :: rest) <
      limitedWork limit (.expand symbol :: rest) := by
  have hlength : rhs.symbols.length ≤ 2 := by
    cases rhs <;> simp [RightSide.symbols]
  -- one level deeper there is half of the room, and two symbols at most share it
  have hdouble : 2 ^ (limit - rest.count .close) =
      2 * 2 ^ (limit - (rest.count .close + 1)) := by
    rw [← Nat.pow_succ']
    congr 1
    omega
  have hone : 1 ≤ 2 ^ (limit - (rest.count .close + 1)) := Nat.one_le_two_pow
  have hcost := Nat.mul_le_mul_right (2 ^ (limit - (rest.count .close + 1)) - 1) hlength
  rw [rightSideTasks, limitedWork_flatMap_append, List.count_cons_self, limitedWork, limitedWork,
    hdouble]
  omega

/-- The room below the limit pays for the choices of a run. -/
theorem paysFor_limitedWork {limit : Nat} (hlimit : gen.maxDepth = some limit) :
    gen.PaysFor (limitedWork limit) (fun d => d.depth = d.pending.count .close) := by
  refine ⟨Advances.depth_eq, ?step, ?pos⟩
  case step =>
    intro draft next hadvances hdepth
    cases hadvances with
    | space => exact Nat.le_refl _
    | close => exact Nat.le_refl _
    | terminal hterminal => simp [choice?, hterminal, limitedWork]
    | @nonterminal symbol rest depth _ _ _ p ne hwithin hchoose =>
      have hrest : depth = rest.count .close := by simpa using hdepth
      have hroom : depth < limit := le_of_exceededLimit?_eq_none hlimit hwithin
      rw [choice?_expand ne hwithin]
      exact limitedWork_rightSide_lt gen.grammar p.rhs symbol (hrest ▸ hroom)
  -- a choice is made only where there is room for a bracket, which pays for it
  case pos =>
    intro draft hdepth hchoice
    obtain ⟨drawn, hdrawn⟩ := Option.isSome_iff_exists.mp hchoice
    obtain ⟨symbol, rest, -, hpending, hwithin, -⟩ := choose_of_choice? hdrawn
    have hrest : draft.depth = rest.count .close := by simpa [hpending] using hdepth
    have hroom : draft.depth < limit := le_of_exceededLimit?_eq_none hlimit hwithin
    have hlevel : limit - rest.count .close ≠ 0 := Nat.sub_ne_zero_of_lt (hrest ▸ hroom)
    rw [hpending, limitedWork]
    exact Nat.add_pos_left (Nat.sub_pos_of_lt (Nat.one_lt_two_pow hlevel)) _

end Generator

/-- A branch of a generated tree has at most two children, so the height of the tree bounds the
numbers of its branches and of its words. -/
theorem Generated.sizes_le_two_pow {g : Grammar} {symbol : String} {position : Nat} {t : Tree}
    (h : Generated g symbol position t) :
    t.branchCount < 2 ^ t.branchHeight ∧ t.leaves.length ≤ 2 ^ t.branchHeight := by
  induction h with
  | leaf => exact ⟨Nat.one_pos, Nat.le_refl 1⟩
  -- one level higher the bound doubles, which is enough for two children
  | word _ _ ih =>
    simp only [Tree.over, Tree.branchCount, Tree.branchCountOfAll, Tree.leaves, Tree.leavesOfAll,
      Tree.branchHeight, Tree.branchHeightOfAll, Nat.max_zero, List.append_nil]
    rw [Nat.add_comm 1, Nat.add_comm 1, Nat.pow_succ]
    omega
  | @pair _ _ _ _ left right _ _ _ ihleft ihright =>
    simp only [Tree.over, Tree.branchCount, Tree.branchCountOfAll, Tree.leaves, Tree.leavesOfAll,
      Tree.branchHeight, Tree.branchHeightOfAll, Nat.max_zero, List.append_nil,
      List.length_append]
    have hleft : 2 ^ left.branchHeight ≤ 2 ^ max left.branchHeight right.branchHeight :=
      Nat.pow_le_pow_right Nat.two_pos (Nat.le_max_left _ _)
    have hright : 2 ^ right.branchHeight ≤ 2 ^ max left.branchHeight right.branchHeight :=
      Nat.pow_le_pow_right Nat.two_pos (Nat.le_max_right _ _)
    rw [Nat.add_comm 1 (max _ _), Nat.pow_succ]
    omega

namespace Generator

/-- **A limit on nesting bounds the work.**  With a limit of `limit` levels, a run makes at most
`2 ^ limit - 1` choices and goes through at most `5 * 2 ^ limit` drafts, whatever the grammar, the
supply and the way to choose, and however the run ends.  What it writes, if it does, has at most
`2 ^ limit - 1` branches and `2 ^ limit` words. -/
theorem limit_bounds_work {gen : Generator} {limit : Nat} (hlimit : gen.maxDepth = some limit)
    (start : String) (supply : Random.Supply) :
    gen.choiceCount (Draft.begin start supply) ≤ 2 ^ limit - 1 ∧
      (gen.drafts (Draft.begin start supply)).length ≤ 5 * 2 ^ limit ∧
      ∀ sentence left, gen.sample start supply = (.ok sentence, left) →
        ∃ t, gen.expand 0 0 start supply = (.ok t, left) ∧ t.text = sentence ∧
          t.branchCount ≤ 2 ^ limit - 1 ∧ t.leaves.length ≤ 2 ^ limit := by
  have pays := paysFor_limitedWork hlimit
  have hbegin : (Draft.begin start supply).depth =
      (Draft.begin start supply).pending.count .close := by
    simp [Draft.begin]
  have hwork : limitedWork limit (Draft.begin start supply).pending = 2 ^ limit - 1 := rfl
  refine ⟨hwork ▸ pays.choiceCount_le hbegin, ?_, ?_⟩
  · have hone : 1 ≤ 2 ^ limit := Nat.one_le_two_pow
    have hlength := pays.length_drafts_le hbegin
    have hpending : (Draft.begin start supply).pending.length = 1 := rfl
    rw [hwork, hpending] at hlength
    omega
  · intro sentence left h
    obtain ⟨-, t, hexpand, htext⟩ := exists_expand_of_sample h
    have hheight := branchHeight_le_of_expand hlimit (Nat.zero_le limit) hexpand
    rw [Nat.zero_add] at hheight
    have hpow : 2 ^ t.branchHeight ≤ 2 ^ limit := Nat.pow_le_pow_right Nat.two_pos hheight
    obtain ⟨hbranches, hleaves⟩ := (generated_of_expand hexpand).sizes_le_two_pow
    exact ⟨t, hexpand, htext, Nat.le_sub_one_of_lt (Nat.lt_of_lt_of_le hbranches hpow),
      Nat.le_trans hleaves hpow⟩

/-- A limit of two brackets: three choices and twenty drafts at most, on every supply, and the
sentence of two words keeps to the bounds on its tree. -/
theorem limit_bounds_work_doubling :
    doublingGenerator.maxDepth = some 2 ∧
      (∀ supply, doublingGenerator.choiceCount (Draft.begin "S" supply) ≤ 3 ∧
        (doublingGenerator.drafts (Draft.begin "S" supply)).length ≤ 20) ∧
      ∃ t, doublingGenerator.expand 0 0 "S" [0, 0x8000000000000000, 0x8000000000000000] =
          (.ok t, []) ∧
        t.text = "(S (S x) (S x))" ∧ t.branchCount ≤ 3 ∧ t.leaves.length ≤ 4 := by
  have hlimit : doublingGenerator.maxDepth = some 2 := rfl
  refine ⟨hlimit, fun supply => ?_, ?_⟩
  · obtain ⟨hchoices, hdrafts, -⟩ := limit_bounds_work hlimit "S" supply
    exact ⟨hchoices, hdrafts⟩
  · exact (limit_bounds_work hlimit "S" _).2.2 _ _ sample_doubling

end Generator

end PhraseGrammar
