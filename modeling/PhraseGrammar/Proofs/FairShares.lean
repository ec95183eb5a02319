import Mathlib.Algebra.BigOperators.Fin
import Mathlib.Data.Set.Card.Arithmetic
import Mathlib.Order.Interval.Finset.Nat
import PhraseGrammar.Proofs.BracketedText
import PhraseGrammar.Proofs.DrawnWords

/-!
# Fair choices share the words out evenly

A fair choice among `k` alternatives reads a word as an index if the word's product with `k` falls
into the front part of the index's stretch of `2 ^ 64`.  That part is `k * 2 ^ n` long, where `n` is
the number of leading zeros of `k`, so `2 ^ n` multiples of `k` fall into it, whatever the index.

A supply with one word for each bracket leads a fair generator to a tree if every word is read at
its bracket as one of the productions that are wanted there.  The words are free of each other, so
the number of such supplies is a product over the brackets.  Where a grammar was read from a text, no
other tree has the same text, and the product counts the supplies on which a run writes that text.

## Main statements

- `Random.encard_uniform`: each index of a fair choice has the same number of words.
- `encard_forall₂`: the number of lists whose entries are chosen place by place.
- `Generated.eq_of_text_eq`: where a grammar was read, a text determines the generated tree.
- `Generated.encard_supplies`: the number of supplies that lead to a text.
-/

namespace PhraseGrammar

/-! ## The words of one choice -/

namespace Random

/-- The number of zeros before the first one in a number as a 64-bit word. -/
def leadingZeros (k : Nat) : Nat :=
  (BitVec.ofNat 64 k).clz.toNat

section Indices

variable {k : Nat} {pos : 0 < k} {v : UInt64} {i : Fin k}

/-- The leading zeros of a number that fits are counted by its binary logarithm. -/
theorem leadingZeros_eq (pos : 0 < k) (few : k < 2 ^ 64) : leadingZeros k = 63 - k.log2 := by
  have hword : (BitVec.ofNat 64 k).toNat = k := by
    rw [BitVec.toNat_ofNat]
    exact Nat.mod_eq_of_lt few
  have hne : BitVec.ofNat 64 k ≠ 0#64 := by
    intro h
    rw [h] at hword
    exact absurd hword (Nat.ne_of_lt pos)
  -- the number lies between two powers of two, which its leading zeros and its logarithm both name
  have hlt : leadingZeros k < 64 := BitVec.lt_def.mp (BitVec.clz_lt_iff_ne_zero.mpr hne)
  have hge : 2 ^ (64 - 1 - leadingZeros k) ≤ (BitVec.ofNat 64 k).toNat :=
    BitVec.two_pow_sub_clz_le_toNat_of_ne_zero (by decide) hne
  have hbelow : (BitVec.ofNat 64 k).toNat < 2 ^ (64 - leadingZeros k) :=
    BitVec.toNat_lt_two_pow_sub_clz
  have hexponent : 64 - leadingZeros k = 64 - 1 - leadingZeros k + 1 := by omega
  rw [hword] at hge
  rw [hword, hexponent] at hbelow
  have hlog : k.log2 = 64 - 1 - leadingZeros k :=
    (Nat.log2_eq_iff (Nat.ne_of_gt pos)).mpr ⟨hge, hbelow⟩
  omega

/-- A number without its leading zeros still fits into 64 bits. -/
theorem mul_two_pow_leadingZeros_le (pos : 0 < k) (few : k < 2 ^ 64) :
    k * 2 ^ leadingZeros k ≤ 2 ^ 64 := by
  have hlog : k.log2 < 64 := (Nat.log2_lt (Nat.ne_of_gt pos)).mpr few
  have hexponent : k.log2 + 1 + (63 - k.log2) = 64 := by omega
  calc k * 2 ^ leadingZeros k
      = k * 2 ^ (63 - k.log2) := by rw [leadingZeros_eq pos few]
    _ ≤ 2 ^ (k.log2 + 1) * 2 ^ (63 - k.log2) :=
        Nat.mul_le_mul_right _ (Nat.le_of_lt Nat.lt_log2_self)
    _ = 2 ^ 64 := by rw [← Nat.pow_add, hexponent]

/-- One word makes a choice if it is accepted, and then that of its share. -/
theorem uniform_singleton_iff :
    uniform k pos [v] = (.ok i, []) ↔ accepts k v = true ∧ share k pos v = i := by
  by_cases haccepts : accepts k v
  · simp [uniform, haccepts]
  · simp [uniform, haccepts]

/-- A word is read as an index if its product falls into the front of the index's stretch. -/
theorem uniform_singleton_iff_bounds (few : k < 2 ^ 64) :
    uniform k pos [v] = (.ok i, []) ↔
      i * 2 ^ 64 ≤ v.toNat * k ∧ v.toNat * k < i * 2 ^ 64 + k * 2 ^ leadingZeros k := by
  have hle := mul_two_pow_leadingZeros_le pos few
  have hpos : 0 < k * 2 ^ leadingZeros k := Nat.mul_pos pos (Nat.two_pow_pos _)
  have haccepts : accepts k v = true ↔ v.toNat * k % 2 ^ 64 ≤ k * 2 ^ leadingZeros k - 1 := by
    rw [leadingZeros_eq pos few]
    exact decide_eq_true_iff
  have hshare : share k pos v = i ↔ v.toNat * k / 2 ^ 64 = i := Fin.ext_iff
  -- the quotient by `2 ^ 64` is the index, and the remainder is in the front part
  rw [uniform_singleton_iff, haccepts, hshare]
  omega

/-- Words are counted like the numbers they stand for. -/
theorem encard_words_between {low high : Nat} (h : high ≤ 2 ^ 64) :
    {v : UInt64 | low ≤ v.toNat ∧ v.toNat < high}.encard = (high - low : Nat) := by
  have hset : {v : UInt64 | low ≤ v.toNat ∧ v.toNat < high} =
      Set.preimage UInt64.toNat (Finset.Ico low high : Finset Nat) := by
    ext v
    simp
  have hinjective : Function.Injective UInt64.toNat := fun _ _ => UInt64.toNat_inj.mp
  have hrange : ((Finset.Ico low high : Finset Nat) : Set Nat) ⊆ Set.range UInt64.toNat := by
    intro n hn
    have hlt : n < high := (Finset.mem_Ico.mp hn).2
    exact ⟨UInt64.ofNat n, UInt64.toNat_ofNat_of_lt' (Nat.lt_of_lt_of_le hlt h)⟩
  -- every number below `2 ^ 64` is that of one word
  rw [hset, Set.encard_preimage_of_injective_subset_range hinjective hrange,
    Set.encard_coe_eq_coe_finsetCard, Nat.card_Ico]

/-- The multiples of `k` from a bound on are `m` in a row before they go beyond it by `k * m`. -/
theorem multiples_between_iff {q low bound m n : Nat} (hq : q * k = bound + low)
    (hlow : low ≤ k - 1) (pos : 0 < k) :
    bound ≤ n * k ∧ n * k < bound + k * m ↔ q ≤ n ∧ n < q + m := by
  -- multiples are `k` apart, and the first of them goes beyond the bound by less than that
  constructor
  · rintro ⟨hge, hlt⟩
    constructor
    · by_contra hbefore
      have := Nat.mul_le_mul_right k (Nat.succ_le_of_lt (Nat.lt_of_not_le hbefore))
      rw [Nat.succ_mul] at this
      omega
    · apply Nat.lt_of_mul_lt_mul_right (a := k)
      rw [Nat.add_mul, Nat.mul_comm m]
      omega
  · rintro ⟨hge, hlt⟩
    have hfirst := Nat.mul_le_mul_right k hge
    have hlast := Nat.mul_le_mul_right k (Nat.succ_le_of_lt hlt)
    rw [Nat.succ_mul, Nat.add_mul, Nat.mul_comm m] at hlast
    omega

/-- Each index below `k` is read off as many words: `2 ^ n`, if `k` has `n` leading zeros. -/
theorem encard_uniform (pos : 0 < k) (few : k < 2 ^ 64) (i : Fin k) :
    {v | uniform k pos [v] = (.ok i, [])}.encard = (2 ^ leadingZeros k : Nat) := by
  -- the index's stretch is first reached by `q * k`, which goes beyond its start by less than `k`
  obtain ⟨q, low, hq, hlow, -⟩ := exists_multiple i.isLt (Nat.le_of_lt few)
  have hset : {v | uniform k pos [v] = (.ok i, [])} =
      {v : UInt64 | q ≤ v.toNat ∧ v.toNat < q + 2 ^ leadingZeros k} := by
    ext v
    exact (uniform_singleton_iff_bounds few).trans (multiples_between_iff hq hlow pos)
  have hle : q + 2 ^ leadingZeros k ≤ 2 ^ 64 := by
    have hshift := mul_two_pow_leadingZeros_le pos few
    have hindex := Nat.mul_le_mul_right (2 ^ 64) (Nat.succ_le_of_lt i.isLt)
    have hpow : 0 < 2 ^ leadingZeros k := Nat.two_pow_pos _
    have hlast : (q + 2 ^ leadingZeros k - 1) * k < 2 ^ 64 * k := by
      rw [Nat.sub_mul, Nat.add_mul, Nat.mul_comm (2 ^ leadingZeros k)]
      omega
    have := Nat.lt_of_mul_lt_mul_right hlast
    omega
  rw [hset, encard_words_between hle, Nat.add_sub_cancel_left]

end Indices

/-- No word is read as two indices, so the words that are read as entries of some kind are counted
entry by entry. -/
theorem encard_uniform_of_kind {α : Type} (as : List α) (pos : 0 < as.length)
    (few : as.length < 2 ^ 64) (kind : α → Prop) [DecidablePred kind] :
    {v | ∃ i : Fin as.length, kind as[i] ∧ uniform as.length pos [v] = (.ok i, [])}.encard =
      (as.countP kind * 2 ^ leadingZeros as.length : Nat) := by
  have hset : {v | ∃ i : Fin as.length, kind as[i] ∧ uniform as.length pos [v] = (.ok i, [])} =
      ⋃ i : Fin as.length, {v | kind as[i] ∧ uniform as.length pos [v] = (.ok i, [])} := by
    ext v
    simp
  have hdisjoint : Pairwise (Function.onFun Disjoint fun i : Fin as.length =>
      {v | kind as[i] ∧ uniform as.length pos [v] = (.ok i, [])}) := by
    intro i j hne
    refine Set.disjoint_left.mpr ?_
    rintro v ⟨-, hi⟩ ⟨-, hj⟩
    rw [hi] at hj
    cases hj
    exact hne rfl
  have hwords : ∀ i : Fin as.length,
      {v | kind as[i] ∧ uniform as.length pos [v] = (.ok i, [])}.encard =
        if kind as[i] then ((2 ^ leadingZeros as.length : Nat) : ℕ∞) else 0 := by
    intro i
    split
    · next h => simpa only [h, true_and] using encard_uniform pos few i
    · next h => simp only [h, false_and, Set.ofPred_false, Set.encard_empty]
  -- index by index: as many words for each entry of the kind, and none for any other
  calc _ = ∑ i : Fin as.length,
        if kind as[i] then ((2 ^ leadingZeros as.length : Nat) : ℕ∞) else 0 := by
        rw [hset, Set.encard_iUnion_of_finite hdisjoint, finsum_eq_sum_of_fintype]
        exact Finset.sum_congr rfl fun i _ => hwords i
    _ = (as.map fun a => if kind a then ((2 ^ leadingZeros as.length : Nat) : ℕ∞) else 0).sum :=
        Fin.sum_univ_fun_getElem as fun a =>
          if kind a then ((2 ^ leadingZeros as.length : Nat) : ℕ∞) else 0
    _ = _ := by
        rw [List.sum_map_ite]
        simp [List.countP_eq_length_filter]

end Random

/-! ## The words of many choices -/

/-- If each entry of a list may be chosen from those that correspond to the entry at its place in
another list, the numbers of choices multiply. -/
theorem encard_forall₂ {α β : Type} (R : α → β → Prop) (as : List α) :
    {bs | List.Forall₂ R as bs}.encard = (as.map fun a => {b | R a b}.encard).prod := by
  induction as with
  | nil =>
    have hset : {bs : List β | List.Forall₂ R [] bs} = {[]} := by
      ext bs
      simp
    rw [hset, Set.encard_singleton, List.map_nil, List.prod_nil]
  -- a list is its first entry and the others, each chosen by itself
  | cons a as ih =>
    have hset : {bs | List.Forall₂ R (a :: as) bs} =
        (fun pair : β × List β => pair.1 :: pair.2) ''
          ({b | R a b} ×ˢ {bs | List.Forall₂ R as bs}) := by
      ext bs
      constructor
      · rintro ⟨⟩
        exact ⟨(_, _), ⟨‹_›, ‹_›⟩, rfl⟩
      · rintro ⟨⟨b, bs⟩, ⟨hb, hbs⟩, rfl⟩
        exact .cons hb hbs
    have hinjective : Function.Injective fun pair : β × List β => pair.1 :: pair.2 := by
      rintro ⟨b, bs⟩ ⟨b', bs'⟩ h
      cases h
      rfl
    rw [hset, hinjective.encard_image, Set.encard_prod, ih, List.map_cons, List.prod_cons]

/-! ## The words of a bracket -/

namespace Grammar

variable (g : Grammar) (b : Tree.Bracket)

/-- How many of the productions of a bracket's symbol have what stands within the bracket on their
right-hand sides. -/
def occurrences : Nat :=
  (g.productionsFor b.symbol).countP fun p => p.rhs.symbols = b.contents

/-- A fair choice among the productions of a bracket's symbol reads the word as one that has what
stands within the bracket on its right-hand side. -/
def Picks (v : UInt64) : Prop :=
  ∃ (pos : 0 < (g.productionsFor b.symbol).length) (i : Fin (g.productionsFor b.symbol).length),
    (g.productionsFor b.symbol)[i].rhs.symbols = b.contents ∧
      Random.uniform _ pos [v] = (.ok i, [])

/-- At a bracket, the words that lead to its contents are counted alternative by alternative. -/
theorem encard_picks (few : (g.productionsFor b.symbol).length < 2 ^ 64) :
    {v | g.Picks b v}.encard =
      (g.occurrences b * 2 ^ Random.leadingZeros (g.productionsFor b.symbol).length : Nat) := by
  -- where there are no productions, nothing is picked and nothing occurs
  by_cases pos : 0 < (g.productionsFor b.symbol).length
  · have hwords := Random.encard_uniform_of_kind (g.productionsFor b.symbol) pos few
      fun p => p.rhs.symbols = b.contents
    simpa only [Picks, occurrences, pos, exists_true_left] using hwords
  · have hnone : g.productionsFor b.symbol = [] := by simpa using pos
    simp [Picks, occurrences, hnone]

end Grammar

/-- The words that a fair choice reads at a bracket lead to what stands within. -/
theorem Generator.draws_singleton_iff {gen : Generator} (fair : gen.sampling = .uniform)
    {b : Tree.Bracket} {v : UInt64} : gen.Draws b [v] ↔ gen.grammar.Picks b v := by
  constructor
  · rintro ⟨ne, p, hsymbols, hchoose⟩
    have hchoose : gen.choose (gen.grammar.productionsFor b.symbol) ne [v] = (.ok p, []) :=
      hchoose []
    by_cases haccepts : Random.accepts (gen.grammar.productionsFor b.symbol).length v
    · rw [choose_of_accepts fair ne haccepts] at hchoose
      cases hchoose
      exact ⟨List.length_pos_iff.mpr ne, _, hsymbols,
        Random.uniform_singleton_iff.mpr ⟨haccepts, rfl⟩⟩
    · simp [choose, fair, Random.uniform, haccepts, Except.map] at hchoose
  · rintro ⟨pos, i, hsymbols, hi⟩
    obtain ⟨haccepts, rfl⟩ := Random.uniform_singleton_iff.mp hi
    exact ⟨List.length_pos_iff.mp pos, _, hsymbols, choose_of_accepts fair _ haccepts⟩

/-! ## Trees with one text -/

namespace Generated

variable {g : Grammar} {symbol : String} {position : Nat} {t : Tree}

theorem plain (hproductions : ∀ p ∈ g.productions, Source.WellFormed p)
    (h : Generated g symbol position t) (hsymbol : ∀ c ∈ symbol.toList, Tree.isPlain c = true) :
    t.Plain := by
  induction h with
  | leaf => exact Tree.plain_leaf.mpr hsymbol
  | @word symbol w position t rule _ ih =>
    have hword := ih (rule.plain hproductions w (by simp [RightSide.symbols]))
    exact Tree.plain_branch.mpr ⟨hsymbol, Tree.plainAll_cons.mpr ⟨hword, Tree.plainAll_nil⟩⟩
  | @pair symbol a b position left right rule _ _ ihleft ihright =>
    have hleft := ihleft (rule.plain hproductions a (by simp [RightSide.symbols]))
    have hright := ihright (rule.plain hproductions b (by simp [RightSide.symbols]))
    have hchildren := Tree.plainAll_cons.mpr ⟨hright, Tree.plainAll_nil⟩
    exact Tree.plain_branch.mpr ⟨hsymbol, Tree.plainAll_cons.mpr ⟨hleft, hchildren⟩⟩

/-- Where a tree begins and the lengths of its parts say what its spans are. -/
theorem eq_of_withoutSpans_eq {symbol' : String} {u : Tree} (ht : Generated g symbol position t)
    (hu : Generated g symbol' position u) (h : t.withoutSpans = u.withoutSpans) : t = u := by
  -- the shape of a tree says which rule is at its root, so unequal rules are told apart
  induction ht generalizing symbol' u with
  | leaf =>
    cases hu with
    | leaf =>
      simp only [Tree.withoutSpans, Tree.leaf.injEq] at h
      rw [h.1]
    | word => simp [Tree.over, Tree.withoutSpans] at h
    | pair => simp [Tree.over, Tree.withoutSpans] at h
  | word _ _ ih =>
    cases hu with
    | leaf => simp [Tree.over, Tree.withoutSpans] at h
    | word _ hchild =>
      simp only [Tree.over, Tree.withoutSpans, Tree.withoutSpansOfAll, Tree.branch.injEq,
        List.cons.injEq] at h
      obtain ⟨rfl, -, hsame, -⟩ := h
      rw [ih hchild hsame]
    | pair => simp [Tree.over, Tree.withoutSpans, Tree.withoutSpansOfAll] at h
  | pair _ _ _ ihleft ihright =>
    cases hu with
    | leaf => simp [Tree.over, Tree.withoutSpans] at h
    | word => simp [Tree.over, Tree.withoutSpans, Tree.withoutSpansOfAll] at h
    | pair _ hleft hright =>
      simp only [Tree.over, Tree.withoutSpans, Tree.withoutSpansOfAll, Tree.branch.injEq,
        List.cons.injEq] at h
      obtain ⟨rfl, -, hsameleft, hsameright, -⟩ := h
      -- equal left parts are equally long, so the right parts begin at one place
      obtain rfl := ihleft hleft hsameleft
      rw [ihright hright hsameright]

/-- Where a grammar was read from a text, a nonterminal generates one tree with a given text. -/
theorem eq_of_text_eq (hproductions : ∀ p ∈ g.productions, Source.WellFormed p)
    (hsymbol : g.isNonterminal symbol = true) {u : Tree} (ht : Generated g symbol position t)
    (hu : Generated g symbol position u) (h : t.text = u.text) : t = u := by
  have hplain : ∀ c ∈ symbol.toList, Tree.isPlain c = true := by
    obtain ⟨p, hp, rfl⟩ := g.isNonterminal_iff.mp hsymbol
    exact ((hproductions p hp).symbols p.lhs List.mem_cons_self).plain
  have hsame := Tree.withoutSpans_eq_of_text_eq (ht.plain hproductions hplain)
    (hu.plain hproductions hplain) h
  exact ht.eq_of_withoutSpans_eq hu hsame

/-! ## The supplies for a tree -/

theorem occurrences_pos (h : Generated g symbol position t) (outer : Nat) :
    ∀ b ∈ t.brackets outer, 0 < g.occurrences b := by
  refine h.children_induction
    (fun _ _ t => ∀ outer, ∀ b ∈ t.brackets outer, 0 < g.occurrences b)
    (fun _ _ ts => ∀ outer, ∀ b ∈ Tree.bracketsOfAll outer ts, 0 < g.occurrences b)
    ?leaf ?branch ?nil ?cons outer
  case leaf =>
    intro symbol position _ outer b hb
    exact absurd hb List.not_mem_nil
  case branch =>
    rintro symbol position rhs children ⟨p, hp, hlhs, rfl⟩ hvalues hchildren outer b hb
    rw [Tree.brackets_over, List.mem_cons] at hb
    -- the production at the root is an occurrence, and all other brackets are those of children
    rcases hb with rfl | hb
    · have hmem : p ∈ g.productionsFor symbol := g.mem_productionsFor.mpr ⟨hp, hlhs⟩
      exact List.countP_pos_iff.mpr ⟨p, hmem, decide_eq_true hvalues.symm⟩
    · exact hchildren _ b hb
  case nil =>
    intro position outer b hb
    exact absurd hb List.not_mem_nil
  case cons =>
    intro symbol symbols position t ts _ hone hothers outer b hb
    rcases List.mem_append.mp hb with hb | hb
    · exact hone outer b hb
    · exact hothers outer b hb

/-- A supply with one word for each bracket leads a fair generator to a tree exactly if every word
is read as what stands within its bracket. -/
theorem expand_iff_forall₂_picks (h : Generated g symbol position t) {supply : Random.Supply}
    (hlength : supply.length = t.branchCount) :
    (Generator.mk g .uniform none).expand 0 position symbol supply = (.ok t, []) ↔
      List.Forall₂ g.Picks (t.brackets 0) supply := by
  have hpicks : (fun b v => (Generator.mk g .uniform none).Draws b [v]) = g.Picks := by
    funext b v
    exact propext (Generator.draws_singleton_iff rfl)
  -- as there are as many words as brackets, each piece is a single word
  constructor
  · intro hexpand
    obtain ⟨pieces, hpieces, hsupply⟩ := Generator.exists_pieces_of_expand hexpand
    rw [List.append_nil] at hsupply
    have hone : pieces.flatten.length = (t.brackets 0).length := by
      rw [← hsupply, hlength, Tree.length_brackets]
    rw [Generator.singletons_of_draws hpieces hone, ← hsupply, List.forall₂_map_right_iff,
      hpicks] at hpieces
    exact hpieces
  · intro hforall
    have hpieces : List.Forall₂ (Generator.mk g .uniform none).Draws (t.brackets 0)
        (supply.map fun v => [v]) := by
      rw [List.forall₂_map_right_iff, hpicks]
      exact hforall
    have h' : Generated (Generator.mk g .uniform none).grammar symbol position t := h
    have hexpand := h'.expand_of_draws hpieces (fun _ hlimit => nomatch hlimit) []
    rwa [List.append_nil, ← List.flatMap_def, List.flatMap_singleton'] at hexpand

/-- **Fair generation is exact.**  Take a tree that a nonterminal generates by a grammar that was
read from a text, and the supplies with one word for each branch of the tree.  Those on which a fair
run writes the tree's text and draws all words are counted by a product over the branches: the
occurrences of what stands in the bracket, times two to the number of leading zeros of the number of
alternatives.  For such a supply it is enough that each word is read at its own bracket as one of the
wanted productions, and at every bracket all alternatives are read off equally many words. -/
theorem encard_supplies {source : String} {g : Grammar} (hread : Grammar.read source = .ok g)
    {start : String} {t : Tree} (ht : Generated g start 0 t) (hstart : g.isNonterminal start = true)
    (few : ∀ b ∈ t.brackets 0, (g.productionsFor b.symbol).length < 2 ^ 64) :
    {supply : Random.Supply | supply.length = t.branchCount ∧
        (Generator.mk g .uniform none).sample start supply = (.ok t.text, [])}.encard =
      (((t.brackets 0).map fun b =>
        g.occurrences b * 2 ^ Random.leadingZeros (g.productionsFor b.symbol).length).prod : Nat) ∧
    (∀ supply : Random.Supply, supply.length = t.branchCount →
      ((Generator.mk g .uniform none).sample start supply = (.ok t.text, []) ↔
        List.Forall₂ g.Picks (t.brackets 0) supply)) ∧
    ∀ b ∈ t.brackets 0, 0 < g.occurrences b ∧
      ∀ (pos : 0 < (g.productionsFor b.symbol).length) (i : Fin _),
        {v | Random.uniform (g.productionsFor b.symbol).length pos [v] = (.ok i, [])}.encard =
          (2 ^ Random.leadingZeros (g.productionsFor b.symbol).length : Nat) := by
  have hproductions := Source.wellFormed_of_readProductions (Grammar.read_eq_ok_iff.mp hread)
  have ne : (Generator.mk g .uniform none).grammar.productionsFor start ≠ [] :=
    g.productionsFor_ne_nil_iff.mpr hstart
  have hsample : ∀ supply : Random.Supply, supply.length = t.branchCount →
      ((Generator.mk g .uniform none).sample start supply = (.ok t.text, []) ↔
        List.Forall₂ g.Picks (t.brackets 0) supply) := by
    intro supply hlength
    rw [← ht.expand_iff_forall₂_picks hlength]
    constructor
    · intro h
      obtain ⟨-, u, hexpand, htext⟩ := Generator.exists_expand_of_sample h
      -- no other tree has this text
      obtain rfl := eq_of_text_eq hproductions hstart (generated_of_expand hexpand) ht htext
      exact hexpand
    · exact Generator.sample_of_expand ne
  refine ⟨?_, hsample, fun b hb =>
    ⟨ht.occurrences_pos 0 b hb, fun pos i => Random.encard_uniform pos (few b hb) i⟩⟩
  -- the words are chosen bracket by bracket, so their numbers multiply
  have hset : {supply : Random.Supply | supply.length = t.branchCount ∧
      (Generator.mk g .uniform none).sample start supply = (.ok t.text, [])} =
      {supply | List.Forall₂ g.Picks (t.brackets 0) supply} := by
    ext supply
    constructor
    · rintro ⟨hlength, h⟩
      exact (hsample supply hlength).mp h
    · intro h
      have hlength : supply.length = t.branchCount := by
        rw [← h.length_eq, Tree.length_brackets]
      exact ⟨hlength, (hsample supply hlength).mpr h⟩
  rw [hset, encard_forall₂, Nat.cast_list_prod, List.map_map]
  congr 1
  exact List.map_congr_left fun b hb => g.encard_picks b (few b hb)

/-- The tree of two words has three brackets, each with two alternatives of which one is wanted: of
the `2 ^ 192` supplies with three words, `2 ^ 186` lead to its text. -/
theorem encard_supplies_doubled :
    Grammar.read "1 S S S\n1 S x" = .ok doubling ∧ Generated doubling "S" 0 doubled ∧
      doubling.isNonterminal "S" = true ∧
      (∀ b ∈ doubled.brackets 0, (doubling.productionsFor b.symbol).length < 2 ^ 64) ∧
      {supply : Random.Supply | supply.length = 3 ∧
        (Generator.mk doubling .uniform none).sample "S" supply =
          (.ok "(S (S x) (S x))", [])}.encard = (2 ^ 186 : Nat) := by
  have hread : Grammar.read "1 S S S\n1 S x" = .ok doubling := Grammar.read_twoLines
  have hdoubled : Generated doubling "S" 0 doubled := generated_of_expand expand_doubling
  have hlength : (doubling.productionsFor "S").length = 2 := by
    rw [productionsFor_doubling]
    rfl
  have few : ∀ b ∈ doubled.brackets 0, (doubling.productionsFor b.symbol).length < 2 ^ 64 := by
    simp [Tree.brackets_doubled, hlength]
  have hpair : doubling.occurrences ⟨1, "S", ["S", "S"]⟩ = 1 := by
    rw [Grammar.occurrences, productionsFor_doubling]
    rfl
  have hword : doubling.occurrences ⟨2, "S", ["x"]⟩ = 1 := by
    rw [Grammar.occurrences, productionsFor_doubling]
    rfl
  have hzeros : Random.leadingZeros 2 = 62 := by decide
  have hcount := (encard_supplies hread hdoubled isNonterminal_doubling few).1
  simp only [Tree.brackets_doubled, List.map_cons, List.map_nil, hpair, hword, hlength, hzeros] at hcount
  exact ⟨hread, hdoubled, isNonterminal_doubling, few, hcount⟩

end Generated

end PhraseGrammar
