import Mathlib.Algebra.Group.Nat.Defs
import PhraseGrammar.Proofs.GeneratedParses

/-!
# Every parse can be generated

A generator that chooses fairly can be steered.  For every index below a number of alternatives
there is a word that the choice accepts and that stands for the index, so a supply can be written
down that leads through any given tree: one word for each branch, in the order in which the
branches are opened.  On a closed grammar every tree of a chart is reached in this way.

## Main statements

- `exists_accepted_word`: every index of a fair choice has a word that is not passed over.
- `Derives.exists_supply`: a supply that leads through a derivation, wherever it begins.
- `exists_supply_of_parse`: the same for the trees of a chart and for whole runs.
-/

namespace PhraseGrammar

/-! ## The height of a tree -/

namespace Tree

mutual

/-- The number of branches on the longest way from the root to a leaf. -/
def branchHeight : Tree → Nat
  | leaf .. => 0
  | branch _ _ children => 1 + branchHeightOfAll children

/-- The greatest height in a list of trees. -/
def branchHeightOfAll : List Tree → Nat
  | [] => 0
  | child :: rest => max (branchHeight child) (branchHeightOfAll rest)

end

end Tree

/-! ## Steering one choice -/

namespace Random

/-- The zone of accepted words is not empty. -/
theorem le_zone {k : Nat} (pos : 0 < k) : k - 1 ≤ zone k := by
  have hshift : 0 < Nat.pow 2 (63 - k.log2) := Nat.pow_pos (by decide)
  have hle : k ≤ k * Nat.pow 2 (63 - k.log2) := Nat.le_mul_of_pos_right k hshift
  unfold zone
  omega

/-- The least multiple of `k` that reaches a multiple of `2 ^ 64` goes beyond it by less than
`k`. -/
theorem exists_multiple {k i : Nat} (hi : i < k) (hk : k ≤ 2 ^ 64) :
    ∃ q low, q * k = i * 2 ^ 64 + low ∧ low ≤ k - 1 ∧ q < 2 ^ 64 := by
  have pos : 0 < k := Nat.lt_of_le_of_lt (Nat.zero_le i) hi
  have hmod : (i * 2 ^ 64 + (k - 1)) % k < k := Nat.mod_lt _ pos
  have hdiv := Nat.div_add_mod (i * 2 ^ 64 + (k - 1)) k
  have hprod : (i * 2 ^ 64 + (k - 1)) / k * k =
      i * 2 ^ 64 + (k - 1 - (i * 2 ^ 64 + (k - 1)) % k) := by
    rw [Nat.mul_comm]
    omega
  refine ⟨_, _, hprod, Nat.sub_le _ _, ?_⟩
  -- the index is below `k`, so the multiple is below `2 ^ 64 * k`
  have hlast : i * 2 ^ 64 ≤ (k - 1) * 2 ^ 64 := Nat.mul_le_mul_right _ (by omega)
  have hall : (k - 1) * 2 ^ 64 + 2 ^ 64 = 2 ^ 64 * k := by
    omega
  have hlt : (i * 2 ^ 64 + (k - 1)) / k * k < 2 ^ 64 * k := by omega
  exact Nat.lt_of_mul_lt_mul_right hlt

/-- Every index below `k` has a word that a fair choice among `k` accepts and reads as the
index. -/
theorem exists_accepted_word {k : Nat} (pos : 0 < k) (hk : k ≤ 2 ^ 64) (i : Fin k) :
    ∃ v, accepts k v = true ∧ share k pos v = i := by
  obtain ⟨q, low, hprod, hlow, hq⟩ := exists_multiple i.isLt hk
  have hword : (UInt64.ofNat q).toNat = q := by
    rw [UInt64.toNat_ofNat']
    exact Nat.mod_eq_of_lt hq
  have hproduct : (UInt64.ofNat q).toNat * k = i.val * 2 ^ 64 + low := by rw [hword, hprod]
  have hpow : Nat.pow 2 64 = 2 ^ 64 := rfl
  have hfits : low < 2 ^ 64 := by omega
  -- the word is accepted, as its product is low enough, and its high part is the index
  refine ⟨UInt64.ofNat q, ?_, ?_⟩
  · have hpart : (i.val * 2 ^ 64 + low) % 2 ^ 64 = low := by omega
    unfold accepts
    rw [hproduct, hpow, hpart]
    exact decide_eq_true (Nat.le_trans hlow (le_zone pos))
  · apply Fin.ext
    show (UInt64.ofNat q).toNat * k / Nat.pow 2 64 = i.val
    rw [hproduct, hpow]
    omega

end Random

namespace Generator

/-- A fair choice among a symbol's productions draws the one that is wanted, given the right
word. -/
theorem exists_word_choose {gen : Generator} (fair : gen.sampling = .uniform)
    {alternatives : List Production} (ne : alternatives ≠ []) (few : alternatives.length ≤ 2 ^ 64)
    {p : Production} (hp : p ∈ alternatives) :
    ∃ v, ∀ rest, gen.choose alternatives ne (v :: rest) = (.ok p, rest) := by
  have pos : 0 < alternatives.length := List.length_pos_iff.mpr ne
  obtain ⟨i, hi⟩ := List.mem_iff_get.mp hp
  obtain ⟨v, haccepts, hshare⟩ := Random.exists_accepted_word pos few i
  refine ⟨v, ?_⟩
  intro rest
  rw [choose_of_accepts fair ne haccepts, hshare, hi]

end Generator

/-! ## Steering a whole derivation -/

section Derivations

variable {productions : List Production} {words : List String} {symbol : String}
  {start len : Nat} {t : Tree}

/-- A derivation has as many leaves as its stretch has words. -/
theorem Derives.length_leaves (h : Derives productions words symbol start len t) :
    t.leaves.length = len := by
  induction h with
  | word => rfl
  | @pair symbol a b start k len left right _ _ shorter _ _ ihleft ihright =>
    have hleaves : (Tree.branch symbol ⟨start, start + len⟩ [left, right]).leaves =
        left.leaves ++ right.leaves := by simp [Tree.leaves, Tree.leavesOfAll]
    rw [hleaves, List.length_append, ihleft, ihright]
    omega

theorem Derives.hasRule (h : Derives productions words symbol start len t) :
    ∃ rhs, HasRule productions symbol rhs := by
  cases h with
  | word rule => exact ⟨_, rule⟩
  | pair rule => exact ⟨_, rule⟩

end Derivations

section Closed

variable {g : Grammar} {symbol : String} {t : Tree}

/-- For each right-hand side of a symbol there is a word that leads a fair generator to it: before
words that lead from the right-hand side to trees, it leads from the symbol to the tree over them. -/
theorem HasRule.exists_word (few : (g.productionsFor symbol).length ≤ 2 ^ 64) {rhs : RightSide}
    (h : HasRule g.productions symbol rhs) :
    ∃ v : UInt64, ∀ {maxDepth depth position children} {supply rest : Random.Supply},
      (∀ limit, maxDepth = some limit → depth + 1 ≤ limit) →
      (Generator.mk g .uniform maxDepth).expandAll (depth + 1) position rhs.symbols supply =
        (.ok children, rest) →
      (Generator.mk g .uniform maxDepth).expand depth position symbol (v :: supply) =
        (.ok (.over symbol position children), rest) := by
  have ne : g.productionsFor symbol ≠ [] := g.productionsFor_ne_nil_iff.mpr h.isNonterminal
  obtain ⟨p, hp, hlhs, rfl⟩ := h
  have hmem : p ∈ g.productionsFor symbol := g.mem_productionsFor.mpr ⟨hp, hlhs⟩
  -- the limit on nesting plays no part in a choice
  have hfair : (Generator.mk g .uniform none).sampling = .uniform := rfl
  obtain ⟨v, hv⟩ := Generator.exists_word_choose hfair ne few hmem
  refine ⟨v, ?_⟩
  intro maxDepth depth position children supply rest hroom hchildren
  have hchoose : (Generator.mk g .uniform maxDepth).choose (g.productionsFor symbol) ne
      (v :: supply) = (.ok p, supply) := hv supply
  exact Generator.expand_of_choose (Generator.exceededLimit?_eq_none hroom) hchoose hchildren

/-- A supply leads a fair generator through a derivation, below any number of open brackets that
leaves room for its height, and whatever words come after it. -/
theorem Derives.exists_supply (closed : g.IsClosed)
    (few : ∀ symbol, (g.productionsFor symbol).length ≤ 2 ^ 64) {words : List String}
    {start len : Nat} (h : Derives g.productions words symbol start len t) :
    ∃ supply : Random.Supply, supply.length = t.branchCount ∧
      ∀ maxDepth depth rest, (∀ limit, maxDepth = some limit → depth + t.branchHeight ≤ limit) →
        (Generator.mk g .uniform maxDepth).expand depth start symbol (supply ++ rest) =
          (.ok t, rest) := by
  -- the induction is over the derivation, for all depths, limits and later words at once
  induction h with
  | @word symbol w start rule _ =>
    obtain ⟨v, hv⟩ := rule.exists_word (few symbol)
    obtain ⟨q, hq, -, hqrhs⟩ := rule
    -- the word of a closed grammar is a terminal, and draws nothing
    have hterminal : g.productionsFor w = [] :=
      g.productionsFor_eq_nil_iff.mpr (closed.isNonterminal_of_word hq hqrhs)
    refine ⟨[v], rfl, ?_⟩
    intro maxDepth depth rest hroom
    have hleaf : (Generator.mk g .uniform maxDepth).expand (depth + 1) start w rest = _ :=
      Generator.expand_of_terminal hterminal (depth + 1) start rest
    exact hv hroom (Generator.expandAll_cons_of_ok hleaf rfl)
  | @pair symbol a b start k len left right rule pos shorter hleft hright ihleft ihright =>
    obtain ⟨v, hv⟩ := rule.exists_word (few symbol)
    obtain ⟨first, hfirst, hexpandLeft⟩ := ihleft
    obtain ⟨second, hsecond, hexpandRight⟩ := ihright
    -- the choice at the root, then the words of the first part, then those of the second
    refine ⟨v :: (first ++ second), ?_, ?_⟩
    · simp only [List.length_cons, List.length_append, hfirst, hsecond, Tree.branchCount,
        Tree.branchCountOfAll]
      omega
    · intro maxDepth depth rest hroom
      simp only [Tree.branchHeight, Tree.branchHeightOfAll] at hroom
      have hlen : left.leaves.length + right.leaves.length = len := by
        rw [hleft.length_leaves, hright.length_leaves]
        omega
      have htree : Tree.branch symbol ⟨start, start + len⟩ [left, right] =
          Tree.over symbol start [left, right] := by
        simp [Tree.over, Tree.leavesOfAll, hlen]
      -- there is room for the bracket, and one level deeper for each of the parts
      have hroot : ∀ limit, maxDepth = some limit → depth + 1 ≤ limit := by
        intro limit hlimit
        have := hroom limit hlimit
        omega
      have hroomLeft : ∀ limit, maxDepth = some limit →
          depth + 1 + left.branchHeight ≤ limit := by
        intro limit hlimit
        have := hroom limit hlimit
        omega
      have hroomRight : ∀ limit, maxDepth = some limit →
          depth + 1 + right.branchHeight ≤ limit := by
        intro limit hlimit
        have := hroom limit hlimit
        omega
      have hl := hexpandLeft maxDepth (depth + 1) (second ++ rest) hroomLeft
      have hr := hexpandRight maxDepth (depth + 1) rest hroomRight
      rw [← hleft.length_leaves] at hr
      rw [htree, List.cons_append, List.append_assoc]
      exact hv hroot (Generator.expandAll_cons_of_ok hl (Generator.expandAll_cons_of_ok hr rfl))

/-! ## From a chart to a generator -/

/-- **Everything parseable can be generated**: on a closed grammar, every tree that a chart holds
for a symbol is the outcome of a fair generator's run from that symbol, on a supply with one word
for each branch, all of which are drawn.  The supply is the same for every limit on nesting that
leaves room for the tree. -/
theorem exists_supply_of_parse (closed : g.IsClosed)
    (few : ∀ symbol, (g.productionsFor symbol).length < 2 ^ 63) {words : List String}
    (h : t ∈ (g.chart words).treesFor symbol) :
    ∃ supply : Random.Supply, supply.length = t.branchCount ∧
      ∀ maxDepth, (∀ limit, maxDepth = some limit → t.branchHeight ≤ limit) →
        (Generator.mk g .uniform maxDepth).sample symbol supply = (.ok t.text, []) := by
  have hderives : Derives g.productions words symbol 0 words.length t :=
    (g.mem_treesFor words).mp h
  have few' : ∀ symbol, (g.productionsFor symbol).length ≤ 2 ^ 64 := by
    intro symbol
    have := few symbol
    omega
  obtain ⟨rhs, rule⟩ := hderives.hasRule
  have ne : g.productionsFor symbol ≠ [] := g.productionsFor_ne_nil_iff.mpr rule.isNonterminal
  obtain ⟨supply, hlength, hexpand⟩ := hderives.exists_supply closed few'
  refine ⟨supply, hlength, ?_⟩
  intro maxDepth hroom
  have hrun : (Generator.mk g .uniform maxDepth).expand 0 0 symbol supply = (.ok t, []) := by
    have := hexpand maxDepth 0 []
    rw [List.append_nil] at this
    apply this
    intro limit hlimit
    rw [Nat.zero_add]
    exact hroom limit hlimit
  have ne' : (Generator.mk g .uniform maxDepth).grammar.productionsFor symbol ≠ [] := ne
  rw [Generator.sample_of_nonterminal ne' supply, hrun]
  rfl

end Closed

/-- The tree `(S (S x) (S x))` has three branches and a height of two, so three words lead to it,
and a limit of two leaves room for it. -/
theorem exists_supply_doubling :
    doubling.IsClosed ∧ (∀ symbol, (doubling.productionsFor symbol).length < 2 ^ 63) ∧
      ∃ t ∈ (doubling.chart ["x", "x"]).treesFor "S", t.text = "(S (S x) (S x))" ∧
        ∃ supply : Random.Supply, supply.length = 3 ∧
          (Generator.mk doubling .uniform (some 2)).sample "S" supply =
            (.ok "(S (S x) (S x))", []) := by
  have few : ∀ symbol, (doubling.productionsFor symbol).length < 2 ^ 63 := by
    intro symbol
    have hle : (doubling.productionsFor symbol).length ≤ 2 := by
      rw [Grammar.productionsFor_eq_filter]
      exact List.length_filter_le _ _
    omega
  have hmem := (doubling.mem_treesFor ["x", "x"]).mpr derives_doubled
  obtain ⟨supply, hlength, hsample⟩ := exists_supply_of_parse isClosed_doubling few hmem
  refine ⟨isClosed_doubling, few, _, hmem, rfl, supply, hlength, ?_⟩
  apply hsample
  intro limit hlimit
  cases hlimit
  decide

end PhraseGrammar
