import PhraseGrammar.Proofs.Backpointers
import PhraseGrammar.Proofs.Choices
import PhraseGrammar.Proofs.FairShares
import PhraseGrammar.Proofs.RoundedSums

/-!
# Weighted choices by a grammar that was read

The weights of a choice are the probabilities of a symbol's productions.  Where a grammar was read
from a text they are all above zero and at most one, so they allow a choice in proportion to them:
their total is neither zero nor infinite, and a word, as a fraction of the total, falls into the
share of one of the productions.  Nothing else ever happens in a weighted run.  Each choice takes
exactly one word, and so a run draws as many words as its tree has branches.

## Main statements

- `Generator.weightedDraw_choose`: what a weighted choice does with weights that allow it.
- `Generator.length_words_of_draws`: a weighted run draws one word for each bracket.
- `Generator.sample_weighted`: weighted runs by a grammar that was read.
-/

namespace PhraseGrammar

/-! ## Weights that allow a choice -/

namespace Random

/-- The weights are the magnitudes `ms`, and these allow a choice in proportion to them: their
total is above zero and finite. -/
structure InProportion (weights : List Double) (ms : List Magnitude) : Prop where
  usable : usable? weights = some ms
  pos : Magnitude.zero < total ms
  finite : total ms < Magnitude.infinity

/-- The point below the total that a word stands for in a choice by the weights `ms`. -/
def pointOf (ms : List Magnitude) (v : UInt64) : Magnitude :=
  fractionOf (shrink (total ms) (total ms)) v

section Weights

variable {weights : List Double} {ms : List Magnitude}

/-- Probabilities are weights that can be used, each above zero and at most one. -/
theorem usable?_of_isProbability (h : ∀ w ∈ weights, w.IsProbability) :
    ∃ ms, usable? weights = some ms ∧ ∀ m ∈ ms, Magnitude.zero < m ∧ m ≤ Magnitude.one := by
  -- each weight is a magnitude, and so all of them are
  induction weights with
  | nil => exact ⟨[], rfl, List.forall_mem_nil _⟩
  | cons w weights ih =>
    obtain ⟨⟨m, rfl, hm⟩, hweights⟩ := List.forall_mem_cons.mp h
    obtain ⟨ms, husable, hms⟩ := ih hweights
    refine ⟨m :: ms, ?_, List.forall_mem_cons.mpr ⟨hm, hms⟩⟩
    simp [usable?, Double.ofMagnitude, Double.nonnegative?, husable]

/-- So they allow a choice in proportion to them. -/
theorem exists_inProportion (ne : weights ≠ []) (h : ∀ w ∈ weights, w.IsProbability) :
    ∃ ms, InProportion weights ms := by
  obtain ⟨ms, husable, hms⟩ := usable?_of_isProbability h
  have ne' : ms ≠ [] := by
    rintro rfl
    exact ne (List.length_eq_zero_iff.mp (length_usable husable).symm)
  obtain ⟨hpos, hfinite⟩ := total_bounds ne' hms
  exact ⟨ms, husable, hpos, hfinite⟩

/-- By such weights, a word is read as the index in whose share its point falls. -/
theorem InProportion.weighted_eq (h : InProportion weights ms) (pos : 0 < weights.length) :
    weighted weights pos [] = (.error .exhausted, []) ∧
      ∀ v rest, ∃ i : Fin weights.length, i.val = shareAt ms (pointOf ms v) ∧
        weighted weights pos (v :: rest) = (.ok i, rest) := by
  have hzero : total ms ≠ Magnitude.zero := by
    intro heq
    have hpos := h.pos
    rw [heq] at hpos
    exact Nat.lt_irrefl _ hpos
  have hinfinite : total ms ≠ Magnitude.infinity := by
    intro heq
    have hfinite := h.finite
    rw [heq] at hfinite
    exact Nat.lt_irrefl _ hfinite
  unfold weighted
  -- the weights can be used, and their total is neither of the two that allow no choice
  split
  · next hnone =>
    rw [h.usable] at hnone
    cases hnone
  · next ms' hsome =>
    obtain rfl : ms = ms' := Option.some.inj (h.usable.symm.trans hsome)
    rw [if_neg hzero, if_neg hinfinite]
    refine ⟨rfl, ?_⟩
    intro v rest
    rw [if_neg hzero, if_neg hinfinite]
    exact ⟨_, rfl, rfl⟩

end Weights

end Random

/-! ## Weighted choices of productions -/

namespace Generator

open PhraseGrammar.Random (InProportion pointOf shareAt total)

/-- `WeightedDraw alternatives ms supply drawn`: the choice among the alternatives takes one word
from the supply, if there is one, and draws the alternative in whose share of the weights `ms` the
word's point falls. -/
inductive WeightedDraw (alternatives : List Production) (ms : List Magnitude) :
    Random.Supply → Except Random.Fault Production × Random.Supply → Prop where
  | exhausted : WeightedDraw alternatives ms [] (.error .exhausted, [])
  | word {v : UInt64} {left : Random.Supply} {p : Production} (hpoint : pointOf ms v < total ms)
      (hindex : shareAt ms (pointOf ms v) < alternatives.length)
      (hp : alternatives[shareAt ms (pointOf ms v)]? = some p) :
      WeightedDraw alternatives ms (v :: left) (.ok p, left)

variable {gen : Generator}

section Choice

variable {alternatives : List Production} {ms : List Magnitude}

/-- By weights that allow it, a weighted choice is made in proportion to them. -/
theorem weightedDraw_choose (byWeight : gen.sampling = .weighted) (ne : alternatives ≠ [])
    (h : InProportion (alternatives.map Production.probability) ms) (supply : Random.Supply) :
    WeightedDraw alternatives ms supply (gen.choose alternatives ne supply) := by
  have pos : 0 < (alternatives.map Production.probability).length := by
    rw [List.length_map]
    exact List.length_pos_iff.mpr ne
  obtain ⟨hnone, hword⟩ := h.weighted_eq pos
  unfold choose
  simp only [byWeight]
  -- without a word there is no choice, and with one there is always one
  cases supply with
  | nil =>
    rw [hnone]
    exact .exhausted
  | cons v left =>
    obtain ⟨i, hi, hdraw⟩ := hword v left
    have hindex : shareAt ms (pointOf ms v) < alternatives.length := by
      rw [← hi, ← List.length_map Production.probability]
      exact i.isLt
    rw [hdraw]
    refine .word (Random.fractionOf_shrink_lt h.pos _ v) hindex ?_
    simp [← hi]

/-- The word and the weights say which alternative is drawn. -/
theorem WeightedDraw.eq_ok {v : UInt64} {left : Random.Supply} {p : Production}
    {drawn : Except Random.Fault Production × Random.Supply}
    (h : WeightedDraw alternatives ms (v :: left) drawn)
    (hp : alternatives[shareAt ms (pointOf ms v)]? = some p) : drawn = (.ok p, left) := by
  cases h with
  | word _ _ hp' =>
    rw [hp, Option.some.injEq] at hp'
    rw [hp']

/-- A choice that is made takes one word. -/
theorem WeightedDraw.exists_word {supply left : Random.Supply} {p : Production}
    (h : WeightedDraw alternatives ms supply (.ok p, left)) : ∃ v, supply = v :: left := by
  cases h
  exact ⟨_, rfl⟩

/-- A choice is not made only for lack of a word. -/
theorem WeightedDraw.fault_eq {supply left : Random.Supply} {fault : Random.Fault}
    (h : WeightedDraw alternatives ms supply (.error fault, left)) : fault = .exhausted := by
  cases h
  rfl

end Choice

/-! ## The words of a run -/

/-- Every choice that a run can come to has weights that allow it. -/
def AllowsChoices (g : Grammar) : Prop :=
  ∀ symbol, g.productionsFor symbol ≠ [] →
    ∃ ms, InProportion ((g.productionsFor symbol).map Production.probability) ms

/-- In a grammar that was read, every choice has weights that allow it. -/
theorem allowsChoices_of_wellFormed {g : Grammar}
    (h : ∀ p ∈ g.productions, Source.WellFormed p) : AllowsChoices g := by
  intro symbol ne
  apply Random.exists_inProportion
  · simpa using ne
  · intro w hw
    obtain ⟨p, hp, rfl⟩ := List.mem_map.mp hw
    exact (h p (g.mem_productionsFor.mp hp).1).probability

section Run

variable (byWeight : gen.sampling = .weighted) (allows : AllowsChoices gen.grammar)
include byWeight allows

theorem exists_weightedDraw {symbol : String} (ne : gen.grammar.productionsFor symbol ≠ []) :
    ∃ ms, InProportion ((gen.grammar.productionsFor symbol).map Production.probability) ms ∧
      ∀ supply, WeightedDraw (gen.grammar.productionsFor symbol) ms supply
        (gen.choose (gen.grammar.productionsFor symbol) ne supply) := by
  obtain ⟨ms, hms⟩ := allows symbol ne
  exact ⟨ms, hms, weightedDraw_choose byWeight ne hms⟩

/-- The choice at a bracket takes one word. -/
theorem Draws.length_words {bracket : Tree.Bracket} {words : Random.Supply}
    (h : gen.Draws bracket words) : words.length = 1 := by
  obtain ⟨ne, p, -, hchoose⟩ := h
  obtain ⟨ms, -, hdraws⟩ := exists_weightedDraw byWeight allows ne
  have hdraw := hdraws (words ++ [])
  rw [hchoose] at hdraw
  obtain ⟨v, hv⟩ := hdraw.exists_word
  rw [List.append_nil] at hv
  rw [hv, List.length_singleton]

/-- A weighted run draws one word for each bracket. -/
theorem length_words_of_draws {brackets : List Tree.Bracket} {pieces : List Random.Supply}
    (h : List.Forall₂ gen.Draws brackets pieces) : pieces.flatten.length = brackets.length := by
  induction h with
  | nil => rfl
  | cons hdraws _ ih =>
    rw [List.flatten_cons, List.length_append, hdraws.length_words byWeight allows, ih,
      List.length_cons, Nat.add_comm]

/-- A choice in a run is one by the weights of the symbol that it expands. -/
theorem weightedDraw_of_choice? {draft : Draft}
    {drawn : Except Random.Fault Production × Random.Supply} (h : gen.choice? draft = some drawn) :
    ∃ symbol rest ms, draft.pending = .expand symbol :: rest ∧
      InProportion ((gen.grammar.productionsFor symbol).map Production.probability) ms ∧
      WeightedDraw (gen.grammar.productionsFor symbol) ms draft.supply drawn := by
  obtain ⟨symbol, rest, ne, hpending, -, rfl⟩ := choose_of_choice? h
  obtain ⟨ms, hms, hdraws⟩ := exists_weightedDraw byWeight allows ne
  exact ⟨symbol, rest, ms, hpending, hms, hdraws draft.supply⟩

/-- A run lacks a choice only for lack of a word. -/
theorem fault_of_sample {start : String} {supply : Random.Supply} {fault : Random.Fault}
    (h : (gen.sample start supply).1 = .error (.noChoice fault)) : fault = .exhausted := by
  have hrun : (gen.run (Draft.begin start supply)).1 = .error (.noChoice fault) := by
    unfold sample at h
    split at h
    · exact Except.map_eq_error.mp h
    · cases h
  -- the run fails in its last draft, and there for its choice
  obtain ⟨last, -, hends⟩ := gen.exists_ends_of_run (Draft.begin start supply)
  rw [hrun] at hends
  cases hends with
  | @noChoice symbol rest depth written supply left fault ne _ hchoose =>
    obtain ⟨ms, -, hdraws⟩ := exists_weightedDraw byWeight allows ne
    have hdraw := hdraws supply
    rw [hchoose] at hdraw
    exact hdraw.fault_eq

end Run

/-- **Weighted runs are safe.**  Take a grammar that was read from a text, and a weighted run from
one of its nonterminals, with any limit on nesting and any supply.  All of its choices are made in
proportion to the weights, whose total is above zero and finite: from a supply that has words, the
choice takes exactly one, whose point lies below the total, and whose index is below the number of
alternatives.  So the run does not fail for its weights, and if it writes a sentence, it has drawn
as many words as the sentence's one tree has branches; where the grammar is closed, that is one less
than twice the number of the tree's leaves. -/
theorem sample_weighted {source : String} {g : Grammar} (hread : Grammar.read source = .ok g)
    {start : String} (hstart : g.isNonterminal start = true) (maxDepth : Option Nat)
    (supply : Random.Supply) :
    (∀ draft ∈ (Generator.mk g .weighted maxDepth).drafts (Draft.begin start supply), ∀ drawn,
      (Generator.mk g .weighted maxDepth).choice? draft = some drawn →
      ∃ symbol rest ms, draft.pending = .expand symbol :: rest ∧
        InProportion ((g.productionsFor symbol).map Production.probability) ms ∧
        WeightedDraw (g.productionsFor symbol) ms draft.supply drawn) ∧
    (∀ fault, ((Generator.mk g .weighted maxDepth).sample start supply).1 =
      .error (.noChoice fault) → fault = .exhausted) ∧
    ∀ sentence left,
      (Generator.mk g .weighted maxDepth).sample start supply = (.ok sentence, left) →
      ∃ t words, (∀ u, Generated g start 0 u ∧ u.text = sentence ↔ u = t) ∧
        supply = words ++ left ∧ words.length = t.branchCount ∧
        (g.IsClosed → words.length = 2 * t.leaves.length - 1) := by
  have hproductions := Source.wellFormed_of_readProductions (Grammar.read_eq_ok_iff.mp hread)
  have allows : AllowsChoices g := allowsChoices_of_wellFormed hproductions
  set gen := Generator.mk g .weighted maxDepth
  have byWeight : gen.sampling = .weighted := rfl
  refine ⟨?_, fun _ => fault_of_sample byWeight allows, ?_⟩
  · intro draft _ drawn hchoice
    exact weightedDraw_of_choice? byWeight allows hchoice
  -- the tree of the run has one bracket for each choice, and is the only one with its text
  · intro sentence left hsample
    obtain ⟨-, t, hexpand, htext⟩ := exists_expand_of_sample hsample
    have hgenerated : Generated g start 0 t := generated_of_expand hexpand
    obtain ⟨pieces, hpieces, hsupply⟩ := exists_pieces_of_expand hexpand
    have hlength : pieces.flatten.length = t.branchCount := by
      rw [length_words_of_draws byWeight allows hpieces, Tree.length_brackets]
    refine ⟨t, pieces.flatten, ?_, hsupply, hlength, ?_⟩
    · intro u
      constructor
      · rintro ⟨hu, hutext⟩
        exact hu.eq_of_text_eq hproductions hstart hgenerated (hutext.trans htext.symm)
      · rintro rfl
        exact ⟨hgenerated, htext⟩
    · intro closed
      have hderives := hgenerated.derives closed hstart [] [] rfl
      have hcount := hderives.branchCount_add_one
      omega

/-- Of two productions with weight one each, the lower half of the words draws the first, and the
upper half the second. -/
private theorem draws_doubling {v : UInt64} {p : Production}
    (hp : doubling.productions[shareAt [.one, .one] (pointOf [.one, .one] v)]? = some p)
    (depth : Nat) :
    (Generator.mk doubling .weighted none).Draws ⟨depth, "S", p.rhs.symbols⟩ [v] := by
  have hproportion : InProportion ((doubling.productionsFor "S").map Production.probability)
      [.one, .one] := by
    rw [productionsFor_doubling]
    exact ⟨rfl, by decide +kernel, by decide +kernel⟩
  refine ⟨productionsFor_doubling_ne_nil, p, rfl, ?_⟩
  intro rest
  have byWeight : (Generator.mk doubling .weighted none).sampling = .weighted := rfl
  have hdraw := weightedDraw_choose byWeight productionsFor_doubling_ne_nil hproportion (v :: rest)
  rw [← productionsFor_doubling] at hp
  exact hdraw.eq_ok hp

/-- Both productions of `doubling` have the weight one.  The word zero draws the pair and the word
`2 ^ 63` the leaf, so three words write a tree with three branches and two leaves. -/
theorem sample_weighted_doubled :
    Grammar.read "1 S S S\n1 S x" = .ok doubling ∧ doubling.isNonterminal "S" = true ∧
      (Generator.mk doubling .weighted none).sample "S"
        [0, 0x8000000000000000, 0x8000000000000000] = (.ok "(S (S x) (S x))", []) ∧
      ∃ t, ∃ words : Random.Supply,
        (∀ u, Generated doubling "S" 0 u ∧ u.text = "(S (S x) (S x))" ↔ u = t) ∧
        [0, 0x8000000000000000, 0x8000000000000000] = words ++ [] ∧
        words.length = t.branchCount ∧ words.length = 2 * t.leaves.length - 1 := by
  -- the total is two, and its greatest fraction is already below it
  have hscale : Random.shrink (total [.one, .one]) (total [.one, .one]) = total [.one, .one] := by
    rw [Random.shrink, dif_neg (by decide +kernel)]
  have hpair : shareAt [.one, .one] (pointOf [.one, .one] 0) = 0 := by
    rw [pointOf, hscale]
    decide +kernel
  have hword : shareAt [.one, .one] (pointOf [.one, .one] 0x8000000000000000) = 1 := by
    rw [pointOf, hscale]
    decide +kernel
  have hdraws : List.Forall₂ (Generator.mk doubling .weighted none).Draws (doubled.brackets 0)
      [[0], [0x8000000000000000], [0x8000000000000000]] := by
    rw [Tree.brackets_doubled]
    have hfirst := draws_doubling (by rw [hpair]; rfl) 1
    have hother := draws_doubling (by rw [hword]; rfl) 2
    exact .cons hfirst (.cons hother (.cons hother .nil))
  have hgenerated : Generated (Generator.mk doubling .weighted none).grammar "S" 0 doubled := by
    show Generated doubling "S" 0 doubled
    exact generated_of_expand expand_doubling
  have hexpand := hgenerated.expand_of_draws hdraws (fun _ hlimit => nomatch hlimit) []
  have hsample := sample_of_expand productionsFor_doubling_ne_nil hexpand
  obtain ⟨-, -, hwords⟩ := sample_weighted Grammar.read_twoLines isNonterminal_doubling none
    [0, 0x8000000000000000, 0x8000000000000000]
  obtain ⟨t, words, htree, hsupply, hbranches, hleaves⟩ := hwords _ _ hsample
  exact ⟨Grammar.read_twoLines, isNonterminal_doubling, hsample, t, words, htree, hsupply, hbranches,
    hleaves isClosed_doubling⟩

end Generator

end PhraseGrammar
