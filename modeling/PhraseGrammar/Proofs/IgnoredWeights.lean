import PhraseGrammar.Proofs.GeneratedParses

/-!
# Runs that ignore probabilities

A run looks at a probability nowhere but in a choice by weight.  What a choice contributes to a
draft is a right-hand side, and a uniform choice finds it by its place among the alternatives; so a
grammar may be exchanged for one with other probabilities, and the run does not notice.  The same is
true of a run by weight where no symbol's weights can be used: each choice falls back to a uniform
one before it looks at the supply, also where an infinite weight stands beside a negative one.

Both facts are about two generators that draw alike, `Mirrors`.  Such generators do the same in
every step, hence in every run, whatever the supply.

## Main statements

- `Random.weighted_of_unusable`: weights that cannot be used give a uniform choice.
- `Mirrors.step_eq`, `Mirrors.run_eq`: generators that draw alike take the same steps.
- `mirrors_of_sides`, `mirrors_of_unusable`: two reasons to draw alike.
- `sample_ignores_probabilities`: whole runs and batches by either generator.
-/

namespace PhraseGrammar

/-! ## Weights that cannot be used -/

namespace Double

/-- Whether a double lies below zero.  Negative zero does not. -/
def IsNegative (x : Double) : Prop :=
  ∃ m, x = signed true m ∧ m ≠ Magnitude.zero

/-- Whether a double is zero, of either sign. -/
def IsZero (x : Double) : Prop :=
  ∃ negative, x = signed negative Magnitude.zero

/-- A weight cannot be used if it is no number or lies below zero. -/
theorem nonnegative?_eq_none_iff {x : Double} :
    x.nonnegative? = none ↔ x = nan ∨ x.IsNegative := by
  cases x with
  | nan => simp [nonnegative?]
  | signed negative m => cases negative <;> simp [nonnegative?, IsNegative]

/-- Both zeros count as the magnitude zero. -/
theorem IsZero.nonnegative?_eq {x : Double} (h : x.IsZero) :
    x.nonnegative? = some Magnitude.zero := by
  obtain ⟨negative, rfl⟩ := h
  cases negative <;> rfl

end Double

namespace Random

/-- The weights allow no choice in proportion to them: one of them is negative or no number, or all
of them are zero. -/
def Unusable (weights : List Double) : Prop :=
  (∃ w ∈ weights, w = .nan ∨ w.IsNegative) ∨ ∀ w ∈ weights, w.IsZero

variable {weights : List Double}

/-- One weight that cannot be used spoils them all. -/
theorem usable?_eq_none {w : Double} (hmem : w ∈ weights) (hw : w.nonnegative? = none) :
    usable? weights = none := by
  -- from the bad weight on, no front of the list can make up for it
  induction weights with
  | nil => exact absurd hmem List.not_mem_nil
  | cons v weights ih =>
    rcases List.mem_cons.mp hmem with rfl | hrest
    · simp [usable?, hw]
    · simp [usable?, ih hrest]

/-- Sums of zeros are zero. -/
theorem exists_usable_of_zeros (h : ∀ w ∈ weights, w.IsZero) :
    ∃ ms, usable? weights = some ms ∧ total ms = Magnitude.zero := by
  -- the sum is still zero when the next weight is added
  induction weights with
  | nil => exact ⟨[], rfl, rfl⟩
  | cons w weights ih =>
    obtain ⟨hw, hweights⟩ := List.forall_mem_cons.mp h
    obtain ⟨ms, husable, htotal⟩ := ih hweights
    refine ⟨.zero :: ms, by simp [usable?, hw.nonnegative?_eq, husable], ?_⟩
    have hsum : Magnitude.zero + Magnitude.zero = Magnitude.zero := by decide +kernel
    rw [total, List.foldl_cons, hsum]
    exact htotal

/-- A choice by such weights is a uniform choice, and takes the words that one takes. -/
theorem weighted_of_unusable (h : Unusable weights) (pos : 0 < weights.length) (supply : Supply) :
    weighted weights pos supply = uniform weights.length pos supply := by
  unfold weighted
  split
  · rfl
  · next ms hms =>
    -- either there are no usable weights, or their total is zero
    rcases h with ⟨w, hmem, hw⟩ | hzeros
    · rw [usable?_eq_none hmem (Double.nonnegative?_eq_none_iff.mpr hw)] at hms
      cases hms
    · obtain ⟨zeros, husable, htotal⟩ := exists_usable_of_zeros hzeros
      obtain rfl : ms = zeros := Option.some.inj (hms.symm.trans husable)
      exact if_pos htotal

/-- Uniform choices among equally many alternatives find the same ones if these stand at the same
places. -/
theorem map_uniform_congr {α : Type} {k k' : Nat} (h : k = k') {pos : 0 < k} {pos' : 0 < k'}
    {f : Fin k → α} {f' : Fin k' → α} (hf : ∀ i, f i = f' (i.cast h)) (supply : Supply) :
    ((uniform k pos supply).1.map f, (uniform k pos supply).2) =
      ((uniform k' pos' supply).1.map f', (uniform k' pos' supply).2) := by
  subst h
  have hsame : f = f' := funext hf
  rw [hsame]

end Random

/-! ## Generators that draw alike -/

namespace Generator

/-- The right-hand side of a production that is drawn, with what is left of the supply. -/
def drawnSide (drawn : Except Random.Fault Production × Random.Supply) :
    Except Random.Fault RightSide × Random.Supply :=
  (drawn.1.map Production.rhs, drawn.2)

/-- Draws that agree fail alike, or draw productions that may differ in all but their right-hand
sides. -/
theorem cases_of_drawnSide_eq {drawn drawn' : Except Random.Fault Production × Random.Supply}
    (h : drawnSide drawn = drawnSide drawn') :
    (∃ fault left, drawn = (.error fault, left) ∧ drawn' = (.error fault, left)) ∨
      ∃ p p' left, drawn = (.ok p, left) ∧ drawn' = (.ok p', left) ∧ p.rhs = p'.rhs := by
  obtain ⟨result, left⟩ := drawn
  obtain ⟨result', left'⟩ := drawn'
  rw [drawnSide, drawnSide, Prod.mk.injEq] at h
  obtain ⟨hside, rfl⟩ := h
  cases result with
  | error fault =>
    cases result' with
    | error fault' =>
      obtain rfl : fault = fault' := Except.error.inj hside
      exact .inl ⟨fault, left, rfl, rfl⟩
    | ok p' => cases hside
  | ok p =>
    cases result' with
    | error fault' => cases hside
    | ok p' => exact .inr ⟨p, p', left, rfl, rfl, Except.ok.inj hside⟩

/-- The two generators have the same limit and the same nonterminals, and from every supply they
draw the same right-hand side for each. -/
structure Mirrors (gen gen' : Generator) : Prop where
  maxDepth_eq : gen.maxDepth = gen'.maxDepth
  isNonterminal_eq : ∀ symbol, gen.grammar.isNonterminal symbol = gen'.grammar.isNonterminal symbol
  drawnSide_eq : ∀ symbol (ne : gen.grammar.productionsFor symbol ≠ [])
    (ne' : gen'.grammar.productionsFor symbol ≠ []) supply,
    drawnSide (gen.choose _ ne supply) = drawnSide (gen'.choose _ ne' supply)

namespace Mirrors

variable {gen gen' : Generator} (h : gen.Mirrors gen')
include h

theorem productionsFor_eq_nil_iff {symbol : String} :
    gen.grammar.productionsFor symbol = [] ↔ gen'.grammar.productionsFor symbol = [] := by
  rw [Grammar.productionsFor_eq_nil_iff, Grammar.productionsFor_eq_nil_iff, h.isNonterminal_eq]

theorem rightSideTasks_eq (rhs : RightSide) :
    rightSideTasks gen.grammar rhs = rightSideTasks gen'.grammar rhs := by
  have hsymbol : symbolTasks gen.grammar = symbolTasks gen'.grammar := by
    funext symbol
    rw [symbolTasks, symbolTasks, h.isNonterminal_eq]
  rw [rightSideTasks, rightSideTasks, hsymbol]

theorem exceededLimit?_eq (depth : Nat) :
    gen.exceededLimit? depth = gen'.exceededLimit? depth := by
  rw [exceededLimit?, exceededLimit?, h.maxDepth_eq]

/-- Every step does the same to a draft. -/
theorem step_eq (draft : Draft) : gen.step draft = gen'.step draft := by
  obtain ⟨pending, depth, written, supply⟩ := draft
  cases pending with
  | nil => rfl
  | cons task rest =>
    cases task with
    | space => rfl
    | close => rfl
    | expand symbol =>
      -- only the expansion of a nonterminal draws, or asks for the limit
      by_cases ne : gen.grammar.productionsFor symbol = []
      · have hnone' := h.productionsFor_eq_nil_iff.mp ne
        simp [step, ne, hnone']
      · have ne' : gen'.grammar.productionsFor symbol ≠ [] :=
          h.productionsFor_eq_nil_iff.not.mp ne
        rw [step_expand_nonterminal ne, step_expand_nonterminal ne', stepExpand, stepExpand,
          h.exceededLimit?_eq]
        cases gen'.exceededLimit? (depth + 1) with
        | some limit => rfl
        | none =>
          rcases cases_of_drawnSide_eq (h.drawnSide_eq symbol ne ne' supply) with
            ⟨fault, left, hdrawn, hdrawn'⟩ | ⟨p, p', left, hdrawn, hdrawn', hrhs⟩
          · rw [hdrawn, hdrawn']
          · simp only [hdrawn, hdrawn', hrhs, h.rightSideTasks_eq]

/-- The work on a draft goes the same way to its end. -/
theorem run_eq (draft : Draft) : gen.run draft = gen'.run draft := by
  -- the two runs take the same steps, and so end in the same one
  induction draft using gen.run_induction with
  | @ends draft result left hends =>
    have hends' : gen'.Ends draft result left := by
      rw [← step_eq_done_iff, ← h.step_eq]
      exact hends.step_eq
    rw [hends.run_eq, hends'.run_eq]
  | @advances draft next hadvances ih =>
    have hadvances' : gen'.Advances draft next := by
      rw [← step_eq_next_iff, ← h.step_eq]
      exact hadvances.step_eq
    rw [hadvances.run_eq, ih, hadvances'.run_eq]

/-- Both write the same sample, or fail alike. -/
theorem sample_eq (start : String) (supply : Random.Supply) :
    gen.sample start supply = gen'.sample start supply := by
  rw [sample, sample, h.isNonterminal_eq, h.run_eq]

/-- Both write the same batch, or fail alike. -/
theorem generate_eq (start : String) (count : Nat) (supply : Random.Supply) :
    gen.generate start count supply = gen'.generate start count supply := by
  -- what a sample leaves is the same, so the batches go on alike
  induction count generalizing supply with
  | zero => rfl
  | succ more ih => simp only [generate, h.sample_eq, ih]

end Mirrors

theorem Mirrors.trans {gen gen' last : Generator} (h : gen.Mirrors gen') (h' : gen'.Mirrors last) :
    gen.Mirrors last where
  maxDepth_eq := h.maxDepth_eq.trans h'.maxDepth_eq
  isNonterminal_eq symbol := (h.isNonterminal_eq symbol).trans (h'.isNonterminal_eq symbol)
  drawnSide_eq symbol ne ne' supply := by
    have middle : gen'.grammar.productionsFor symbol ≠ [] :=
      h.productionsFor_eq_nil_iff.not.mp ne
    rw [h.drawnSide_eq symbol ne middle, h'.drawnSide_eq symbol middle ne']

/-! ## Two reasons to draw alike -/

/-- The grammars state the same left-hand and right-hand sides in the same order.  Nothing is said
of probabilities. -/
def SameSides (g g' : Grammar) : Prop :=
  (g.productions.map fun p => (p.lhs, p.rhs)) = g'.productions.map fun p => (p.lhs, p.rhs)

/-- A uniform choice finds the right-hand side that stands at the drawn index. -/
theorem drawnSide_choose_uniform (g : Grammar) (maxDepth : Option Nat)
    {alternatives : List Production} (ne : alternatives ≠ []) (supply : Random.Supply) :
    drawnSide (choose ⟨g, .uniform, maxDepth⟩ alternatives ne supply) =
      ((Random.uniform alternatives.length (List.length_pos_iff.mpr ne) supply).1.map
          fun i => (alternatives.get i).rhs,
        (Random.uniform alternatives.length (List.length_pos_iff.mpr ne) supply).2) := by
  simp only [drawnSide, choose]
  cases (Random.uniform alternatives.length (List.length_pos_iff.mpr ne) supply).1 <;> rfl

section Sides

variable {g g' : Grammar} (h : SameSides g g')
include h

/-- A symbol's alternatives have the same right-hand sides in the same order. -/
theorem SameSides.map_rhs_productionsFor (symbol : String) :
    (g.productionsFor symbol).map Production.rhs =
      (g'.productionsFor symbol).map Production.rhs := by
  -- the right-hand sides of a symbol can be found without the probabilities
  have hsides : ∀ ps : List Production,
      (ps.filter fun p => p.lhs = symbol).map Production.rhs =
        ((ps.map fun p => (p.lhs, p.rhs)).filter fun side => side.1 = symbol).map Prod.snd := by
    intro ps
    rw [List.filter_map, List.map_map]
    rfl
  rw [Grammar.productionsFor_eq_filter, Grammar.productionsFor_eq_filter, hsides, hsides, h]

theorem SameSides.isNonterminal_eq (symbol : String) :
    g.isNonterminal symbol = g'.isNonterminal symbol := by
  have hsides := h.map_rhs_productionsFor symbol
  rw [Bool.eq_iff_iff, ← Grammar.productionsFor_ne_nil_iff, ← Grammar.productionsFor_ne_nil_iff,
    ne_eq, ne_eq, ← List.map_eq_nil_iff (f := Production.rhs), hsides, List.map_eq_nil_iff]

/-- Uniform choices find right-hand sides by their places. -/
theorem mirrors_of_sides (maxDepth : Option Nat) :
    Mirrors ⟨g, .uniform, maxDepth⟩ ⟨g', .uniform, maxDepth⟩ where
  maxDepth_eq := rfl
  isNonterminal_eq := h.isNonterminal_eq
  drawnSide_eq symbol ne ne' supply := by
    have hsides := h.map_rhs_productionsFor symbol
    have hlength := congrArg List.length hsides
    rw [List.length_map, List.length_map] at hlength
    -- there are as many alternatives, with the same right-hand side at each place
    rw [drawnSide_choose_uniform, drawnSide_choose_uniform]
    apply Random.map_uniform_congr hlength
    intro i
    have hside := List.getElem_of_eq hsides (i := i.val) (by simp)
    simpa using hside

end Sides

/-- Alternatives with weights that cannot be used are chosen from uniformly. -/
theorem choose_of_unusable {alternatives : List Production}
    (h : Random.Unusable (alternatives.map Production.probability)) (g : Grammar)
    (maxDepth : Option Nat) (ne : alternatives ≠ []) (supply : Random.Supply) :
    choose ⟨g, .weighted, maxDepth⟩ alternatives ne supply =
      choose ⟨g, .uniform, maxDepth⟩ alternatives ne supply := by
  simp only [choose, Random.weighted_of_unusable h]
  exact Random.map_uniform_congr (List.length_map _) (fun _ => rfl) supply

/-- Where no symbol has weights to choose by, a generator by weight chooses uniformly. -/
theorem mirrors_of_unusable {g : Grammar}
    (h : ∀ p ∈ g.productions,
      Random.Unusable ((g.productionsFor p.lhs).map Production.probability))
    (maxDepth : Option Nat) : Mirrors ⟨g, .weighted, maxDepth⟩ ⟨g, .uniform, maxDepth⟩ where
  maxDepth_eq := rfl
  isNonterminal_eq _ := rfl
  drawnSide_eq symbol ne ne' supply := by
    -- the assumption is about left-hand sides, and a symbol with alternatives is one
    obtain ⟨p, hp, rfl⟩ := g.isNonterminal_iff.mp (g.productionsFor_ne_nil_iff.mp ne)
    rw [choose_of_unusable (h p hp)]

/-- **Probabilities that are ignored.**  Take two grammars that state the same left-hand and
right-hand sides in the same order, with any probabilities, and a uniform generator for each, with
the same limit on nesting.  From every start symbol and every supply, a sample and a batch of either
are the same: the same text or the same failure, and the same words left of the supply.  Where every
left-hand side of the one grammar has a weight that is negative or no number, or has weights of zero
only, its generator by weight gives the same samples and batches too. -/
theorem sample_ignores_probabilities {g g' : Grammar} (hsides : SameSides g g')
    (maxDepth : Option Nat) (start : String) (supply : Random.Supply) :
    (sample ⟨g, .uniform, maxDepth⟩ start supply = sample ⟨g', .uniform, maxDepth⟩ start supply ∧
      ∀ count, generate ⟨g, .uniform, maxDepth⟩ start count supply =
        generate ⟨g', .uniform, maxDepth⟩ start count supply) ∧
    ((∀ p ∈ g.productions,
        Random.Unusable ((g.productionsFor p.lhs).map Production.probability)) →
      sample ⟨g, .weighted, maxDepth⟩ start supply = sample ⟨g', .uniform, maxDepth⟩ start supply ∧
        ∀ count, generate ⟨g, .weighted, maxDepth⟩ start count supply =
          generate ⟨g', .uniform, maxDepth⟩ start count supply) := by
  have huniform := mirrors_of_sides hsides maxDepth
  refine ⟨⟨huniform.sample_eq start supply, fun count => huniform.generate_eq start count supply⟩, ?_⟩
  intro hunusable
  have hweighted := (mirrors_of_unusable hunusable maxDepth).trans huniform
  exact ⟨hweighted.sample_eq start supply, fun count => hweighted.generate_eq start count supply⟩

/-- The productions of `doubling`, with an infinite weight and one that is no number. -/
def spoiltDoubling : Grammar :=
  .ofProductions [⟨"S", .pair "S" "S", .ofMagnitude .infinity⟩, ⟨"S", .word "x", .nan⟩]
    (List.cons_ne_nil _ _)

/-- A weight that is no number stands beside an infinite one: the generator by weight writes what
the uniform one writes for the unspoilt grammar, from the same three words. -/
theorem sample_ignores_probabilities_spoilt :
    SameSides spoiltDoubling doubling ∧
      (∀ p ∈ spoiltDoubling.productions, Random.Unusable
        ((spoiltDoubling.productionsFor p.lhs).map Production.probability)) ∧
      sample ⟨spoiltDoubling, .weighted, some 2⟩ "S" [0, 0x8000000000000000, 0x8000000000000000] =
        (.ok "(S (S x) (S x))", []) := by
  have hsides : SameSides spoiltDoubling doubling := rfl
  have hweights : (spoiltDoubling.productionsFor "S").map Production.probability =
      [.ofMagnitude .infinity, .nan] := by
    rw [Grammar.productionsFor_eq_filter]
    rfl
  have hunusable : ∀ p ∈ spoiltDoubling.productions, Random.Unusable
      ((spoiltDoubling.productionsFor p.lhs).map Production.probability) := by
    intro p hp
    have hlhs : p.lhs = "S" := by
      rcases List.mem_pair.mp hp with rfl | rfl <;> rfl
    rw [hlhs, hweights]
    exact .inl ⟨.nan, by simp, .inl rfl⟩
  obtain ⟨-, hweighted⟩ := sample_ignores_probabilities hsides (some 2) "S"
    [0, 0x8000000000000000, 0x8000000000000000]
  exact ⟨hsides, hunusable, (hweighted hunusable).1.trans sample_doubling⟩

end Generator

end PhraseGrammar
