import PhraseGrammar.Grammar.Basic
import PhraseGrammar.Random.Choice

/-!
# Generators

A generator is a grammar with a way to choose among the productions of a symbol and, if wanted, a
limit on how deep expansions may nest.  This module holds the settings, the failures, and the
choice of a production from a supply of random words.
-/

namespace PhraseGrammar

/-! ## Settings and failures -/

/-- How a generator chooses among the productions of a symbol. -/
inductive Sampling where
  /-- Each production has the same chance. -/
  | uniform
  /-- A production's chance is in proportion to its probability. -/
  | weighted
deriving DecidableEq, Inhabited

/-- A grammar to generate from, and how. -/
structure Generator where
  grammar : Grammar
  sampling : Sampling := .uniform
  /-- How deep expansions may nest, if that is limited. -/
  maxDepth : Option Nat := none

/-- Why no sentence is generated. -/
inductive GenerateError where
  /-- The start symbol has no productions. -/
  | unknownStart (symbol : String)
  /-- Expanding the symbol would nest deeper than the limit. -/
  | depthExceeded (depth : Nat) (symbol : String)
  /-- A choice among productions was not made. -/
  | noChoice (fault : Random.Fault)
deriving DecidableEq

/-- The failure in words. -/
def GenerateError.message : GenerateError → String
  | unknownStart symbol => "no productions for start symbol " ++ symbol
  | depthExceeded depth symbol =>
    "generation depth exceeded " ++ toString depth ++ " while expanding " ++ symbol
  | noChoice .exhausted => "no random words left"
  | noChoice .infiniteTotal => "weights have an infinite total"

namespace Generator

/-- The generator's limit, if a nesting depth is beyond it. -/
def exceededLimit? (gen : Generator) (depth : Nat) : Option Nat :=
  gen.maxDepth.filter fun limit => limit < depth

/-! ## Choosing a production -/

/-- Draws one of the productions of a symbol. -/
def choose (gen : Generator) (alternatives : List Production) (ne : alternatives ≠ [])
    (supply : Random.Supply) : Except Random.Fault Production × Random.Supply :=
  match gen.sampling with
  | .uniform =>
    let (drawn, rest) := Random.uniform alternatives.length (List.length_pos_iff.mpr ne) supply
    (drawn.map alternatives.get, rest)
  | .weighted =>
    let weights := alternatives.map Production.probability
    have bound : weights.length = alternatives.length := List.length_map ..
    let (drawn, rest) :=
      Random.weighted weights (bound ▸ List.length_pos_iff.mpr ne) supply
    (drawn.map fun i => alternatives.get (i.cast bound), rest)

theorem length_choose_lt {gen : Generator} {alternatives : List Production}
    {ne : alternatives ≠ []} {supply rest : Random.Supply} {p : Production}
    (h : gen.choose alternatives ne supply = (.ok p, rest)) : rest.length < supply.length := by
  unfold choose at h
  split at h
  · simp only [Prod.mk.injEq] at h
    obtain ⟨hdrawn, rfl⟩ := h
    cases hu : (Random.uniform alternatives.length (List.length_pos_iff.mpr ne) supply).1 with
    | error fault => rw [hu] at hdrawn; cases hdrawn
    | ok i => exact Random.length_uniform_lt (Prod.ext hu rfl)
  · simp only [Prod.mk.injEq] at h
    obtain ⟨hdrawn, rfl⟩ := h
    cases hw : (Random.weighted (alternatives.map Production.probability)
      (by simpa using List.length_pos_iff.mpr ne) supply).1 with
    | error fault => rw [hw] at hdrawn; cases hdrawn
    | ok i => exact Random.length_weighted_lt (Prod.ext hw rfl)

end Generator

end PhraseGrammar
