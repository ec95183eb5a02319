import Mathlib.Algebra.BigOperators.Intervals
import Mathlib.Combinatorics.Enumerative.Catalan.Basic
import PhraseGrammar.Proofs.Derivation
import PhraseGrammar.Proofs.InPlaceFilling

/-!
# How many derivations a stretch has

The entries of a cell come pair by pair: each left entry with each right entry, and for both the
symbols that expand to the pair of their heads.  Counted by their own heads they come rule by rule
instead: a symbol heads as many entries of a stretch as the pairs that it expands to have entries
for the two parts of a cut, over all cuts.  The two agree because a grammar names no symbol twice
for one pair, however often its productions do.

The counts by head satisfy a recursion over the length of the stretch that speaks of productions
and words alone, `derivationCount`.

## Main statements

- `count_heads_joined`: the symbols for all pairs of two lists, counted by one of them.
- `headCount_eq`: the entries of a stretch that a symbol heads are counted by the recursion.
- `entryCount_chart`: the entries of a filled chart are those of all stretches.
- `derivation_counts`: the counts of a filled chart, from the recursion.
-/

namespace PhraseGrammar

/-! ## The recursion -/

/-- The two symbols of a pair. -/
def RightSide.pair? : RightSide → Option (String × String)
  | word _ => none
  | pair a b => some (a, b)

/-- The pairs that a symbol expands to, each once. -/
def pairsOf (productions : List Production) (symbol : String) : Finset (String × String) :=
  ((productions.filter fun p => p.lhs = symbol).filterMap fun p => p.rhs.pair?).toFinset

/-- The number of derivations, headed by a symbol, of the `len` words from `start`.  A word has one
if the symbol expands to it.  For a longer stretch the derivations of the two parts are multiplied,
for every cut and every pair that the symbol expands to. -/
def derivationCount (productions : List Production) (words : List String) (symbol : String)
    (start len : Nat) : Nat :=
  if len = 1 then
    if ∃ w ∈ words[start]?, HasRule productions symbol (.word w) then 1 else 0
  else
    ∑ k ∈ (Finset.Ico 1 len).attach, ∑ pair ∈ pairsOf productions symbol,
      derivationCount productions words pair.1 start k *
        derivationCount productions words pair.2 (start + k) (len - k)
termination_by len
decreasing_by
  all_goals
    have hk := Finset.mem_Ico.mp k.property
    omega

section Recursion

variable {productions : List Production} {words : List String} {symbol : String}

theorem mem_pairsOf {a b : String} :
    (a, b) ∈ pairsOf productions symbol ↔ HasRule productions symbol (.pair a b) := by
  simp only [pairsOf, List.mem_toFinset, List.mem_filterMap, List.mem_filter, decide_eq_true_eq,
    HasRule, and_assoc]
  refine exists_congr fun p => and_congr_right fun _ => and_congr_right fun _ => ?_
  cases p.rhs <;> simp [RightSide.pair?]

/-- Over one word a symbol heads one derivation, or none. -/
theorem derivationCount_word (start : Nat) :
    derivationCount productions words symbol start 1 =
      if ∃ w ∈ words[start]?, HasRule productions symbol (.word w) then 1 else 0 := by
  rw [derivationCount, if_pos rfl]

/-- Over any other stretch, the derivations are counted cut by cut and pair by pair. -/
theorem derivationCount_cuts {len : Nat} (h : len ≠ 1) (start : Nat) :
    derivationCount productions words symbol start len =
      ∑ k ∈ Finset.Ico 1 len, ∑ pair ∈ pairsOf productions symbol,
        derivationCount productions words pair.1 start k *
          derivationCount productions words pair.2 (start + k) (len - k) := by
  rw [derivationCount, if_neg h]
  exact Finset.sum_attach (Finset.Ico 1 len) fun k => ∑ pair ∈ pairsOf productions symbol,
    derivationCount productions words pair.1 start k *
      derivationCount productions words pair.2 (start + k) (len - k)

theorem derivationCount_eq_zero (h : ∀ rhs, ¬ HasRule productions symbol rhs) (start len : Nat) :
    derivationCount productions words symbol start len = 0 := by
  by_cases hlen : len = 1
  · subst hlen
    simp [derivationCount_word, h]
  · have hnone : pairsOf productions symbol = ∅ :=
      Finset.eq_empty_of_forall_notMem fun pair hpair => h _ (mem_pairsOf.mp hpair)
    simp [derivationCount_cuts hlen, hnone]

end Recursion

/-! ## Counting by heads -/

/-- The number of entries of a stretch that a symbol heads. -/
def Chart.headCount (c : Chart) (start len : Nat) (symbol : String) : Nat :=
  ((c.entries start len).map Entry.lhs).count symbol

theorem flatMap_zipIdx {α : Type} (es : List Entry) (f : Entry → List α) :
    (es.zipIdx.flatMap fun e => f e.1) = es.flatMap f := by
  conv_rhs => rw [← List.zipIdx_map_fst 0 es, List.flatMap_map]

namespace Grammar

variable (g : Grammar)

/-- The heads of joined entries depend on the heads of both parts only. -/
theorem map_lhs_joinings (start leftLen rightLen : Nat) (left right : List Entry) :
    (g.joinings start leftLen rightLen left right).map Entry.lhs =
      (left.map Entry.lhs).flatMap fun a => (right.map Entry.lhs).flatMap (g.lhsForPair a) := by
  have hheads : (g.joinings start leftLen rightLen left right).map Entry.lhs =
      left.zipIdx.flatMap fun l => right.zipIdx.flatMap fun r => g.lhsForPair l.1.lhs r.1.lhs := by
    simp [joinings, List.map_flatMap, Function.comp_def]
  have hright : ∀ a, (right.zipIdx.flatMap fun r => g.lhsForPair a r.1.lhs) =
      (right.map Entry.lhs).flatMap (g.lhsForPair a) := by
    intro a
    rw [flatMap_zipIdx right fun r => g.lhsForPair a r.lhs, List.flatMap_map]
  simp only [hheads, hright]
  rw [flatMap_zipIdx left fun l => (right.map Entry.lhs).flatMap (g.lhsForPair l.lhs),
    List.flatMap_map]

/-- A symbol is named once for a right-hand side that it expands to, however often productions say
so. -/
theorem count_heads (symbol : String) (rhs : RightSide) :
    (g.headsOf rhs).count symbol = if HasRule g.productions symbol rhs then 1 else 0 := by
  rw [(g.nodup_headsOf rhs).count]
  simp only [g.mem_headsOf_iff_hasRule]

/-- The symbols that expand to a pair with a given first symbol. -/
theorem count_heads_second (symbol a : String) (seconds : List String) :
    (seconds.flatMap (g.lhsForPair a)).count symbol =
      ∑ pair ∈ pairsOf g.productions symbol,
        if a = pair.1 then seconds.count pair.2 else 0 := by
  induction seconds with
  | nil => simp
  | cons b seconds ih =>
    have hone : (g.lhsForPair a b).count symbol =
        ∑ pair ∈ pairsOf g.productions symbol, if (a, b) = pair then 1 else 0 := by
      rw [Finset.sum_ite_eq]
      simp only [mem_pairsOf]
      exact g.count_heads symbol (.pair a b)
    rw [List.flatMap_cons, List.count_append, ih, hone, ← Finset.sum_add_distrib]
    apply Finset.sum_congr rfl
    rintro ⟨a', b'⟩ -
    -- the one pair that a second symbol completes, or another
    by_cases ha : a = a' <;> by_cases hb : b = b' <;> simp [ha, hb, Nat.add_comm]

/-- The symbols that expand to the pairs of two lists, counted by one of them. -/
theorem count_heads_joined (symbol : String) (firsts seconds : List String) :
    (firsts.flatMap fun a => seconds.flatMap (g.lhsForPair a)).count symbol =
      ∑ pair ∈ pairsOf g.productions symbol, firsts.count pair.1 * seconds.count pair.2 := by
  induction firsts with
  | nil => simp
  | cons a firsts ih =>
    rw [List.flatMap_cons, List.count_append, ih, count_heads_second, ← Finset.sum_add_distrib]
    apply Finset.sum_congr rfl
    rintro ⟨a', b'⟩ -
    by_cases ha : a = a' <;> simp [ha, Nat.add_mul, Nat.add_comm]

variable (words : List String)

/-- The entries of a stretch that a symbol heads are counted by the recursion, by induction on the
length of the stretch. -/
theorem headCount_eq (symbol : String) (start len : Nat) :
    (g.chart words).headCount start len symbol =
      derivationCount g.productions words symbol start len := by
  induction len using Nat.strongRecOn generalizing symbol start with
  | ind len ih =>
    rcases Nat.lt_trichotomy len 1 with hlt | rfl | hgt
    · obtain rfl : len = 0 := Nat.lt_one_iff.mp hlt
      rw [derivationCount_cuts Nat.zero_ne_one]
      rfl
    · rw [derivationCount_word, Chart.headCount, entries_chart_word]
      cases words[start]? with
      | none => simp
      | some w =>
        have hcount : (g.preterminalsFor w).count symbol = _ := g.count_heads symbol (.word w)
        simpa [wordEntries, Function.comp_def] using hcount
    · rw [derivationCount_cuts hgt.ne', Chart.headCount, entries_chart_cuts g words hgt,
        List.map_flatMap, List.count_flatMap]
      -- counting goes through the cuts as the recursion does
      show ∑ k ∈ Finset.Ico 1 len, _ = _
      apply Finset.sum_congr rfl
      intro k hk
      obtain ⟨pos, shorter⟩ := Finset.mem_Ico.mp hk
      rw [Function.comp_apply, map_lhs_joinings, count_heads_joined]
      apply Finset.sum_congr rfl
      intro pair _
      -- both parts are shorter
      rw [← ih k shorter, ← ih (len - k) (by omega)]
      rfl

/-- The symbols that have productions. -/
def leftSides : Finset String :=
  (g.productions.map Production.lhs).toFinset

/-- Symbols without productions head no derivation of any stretch. -/
theorem mem_leftSides_or_derivationCount (symbol : String) (start len : Nat) :
    symbol ∈ g.leftSides ∨ derivationCount g.productions words symbol start len = 0 := by
  by_cases h : symbol ∈ g.leftSides
  · exact .inl h
  · right
    apply derivationCount_eq_zero
    rintro rhs ⟨p, hp, rfl, -⟩
    exact h (List.mem_toFinset.mpr (List.mem_map_of_mem hp))

/-- The entries of a stretch, counted by their heads. -/
theorem cellSize_eq_sum (start len : Nat) :
    (g.chart words).cellSize start len =
      ∑ symbol ∈ g.leftSides, derivationCount g.productions words symbol start len := by
  have hheads : ∀ symbol ∈ (((g.chart words).entries start len).map Entry.lhs : Multiset String),
      symbol ∈ g.leftSides := by
    intro symbol hmem
    refine (g.mem_leftSides_or_derivationCount words symbol start len).resolve_right ?_
    rw [← g.headCount_eq words]
    exact (List.count_pos_iff.mpr hmem).ne'
  -- every entry is counted under its head, and under no other
  have hsum := Multiset.sum_count_eq_card hheads
  rw [Chart.cellSize_eq_length]
  simp only [Multiset.coe_count, Multiset.coe_card, List.length_map] at hsum
  rw [← hsum]
  exact Finset.sum_congr rfl fun symbol _ => g.headCount_eq words symbol start len

/-! ## All entries -/

theorem map_size_row {shorter : Nat} {row : Array Cell}
    (hrow : (g.chart words).rows[shorter]? = some row) :
    row.toList.map Cell.size =
      (List.range (words.length - shorter)).map fun start =>
        (g.chart words).cellSize start (shorter + 1) := by
  apply List.ext_getElem?
  intro start
  have hcell : (g.chart words).cell? start (shorter + 1) = row[start]? := by
    rw [Chart.cell?, Chart.cellIn?, hrow, Option.bind_some]
  have hsome : ((g.chart words).cell? start (shorter + 1)).isSome = true ↔
      0 < shorter + 1 ∧ start + (shorter + 1) ≤ words.length := g.isSome_cell?_chart words
  rw [hcell] at hsome
  rw [List.getElem?_map, List.getElem?_map, Array.getElem?_toList]
  by_cases hstart : start < words.length - shorter
  · obtain ⟨cell, hget⟩ := Option.isSome_iff_exists.mp (hsome.mpr (by omega))
    simp [List.getElem?_range hstart, Chart.cellSize, hcell, hget]
  · have hnone : row[start]? = none := by
      rw [← Option.not_isSome_iff_eq_none, hsome]
      omega
    rw [hnone, List.getElem?_eq_none (by simpa using hstart)]
    rfl

/-- The entries of a filled chart are those of all stretches of the sentence. -/
theorem entryCount_chart :
    (g.chart words).entryCount =
      ∑ len ∈ Finset.Icc 1 words.length, ∑ start ∈ Finset.range (words.length + 1 - len),
        (g.chart words).cellSize start len := by
  have hsize : (g.chart words).rows.size = words.length := g.size_rowsUpTo words words.length
  have hrows : (g.chart words).rows.toList.map (fun row => (row.toList.map Cell.size).sum) =
      (List.range' 1 words.length).map fun len =>
        ((List.range (words.length + 1 - len)).map fun start =>
          (g.chart words).cellSize start len).sum := by
    apply List.ext_getElem
    · simp [hsize]
    intro shorter hlt hlt'
    rw [List.length_map, Array.length_toList] at hlt
    have hcells := g.map_size_row words (Array.getElem?_eq_getElem hlt)
    simp [hcells, Nat.add_comm 1 shorter]
  have hcells : (g.chart words).entryCount =
      (((g.chart words).rows.toList.flatMap Array.toList).map Cell.size).sum := by
    rw [Chart.entryCount, List.sum, List.foldr_map]
  rw [hcells, List.map_flatMap, List.flatMap_def, List.sum_flatten, List.map_map]
  exact congrArg List.sum hrows

/-! ## All binary trees over one word -/

section Doubling

variable (s x : String) (p q : Double)

/-- The pair of its own symbols is the only one that the symbol expands to. -/
theorem pairsOf_doubling :
    pairsOf [⟨s, .pair s s, p⟩, ⟨s, .word x, q⟩] s = {(s, s)} := by
  simp [pairsOf, RightSide.pair?]

/-- A symbol that expands to two of itself or to a word has the Catalan numbers of derivations. -/
theorem derivationCount_doubling {start len n : Nat} (pos : 0 < len) (fits : start + len ≤ n) :
    derivationCount [⟨s, .pair s s, p⟩, ⟨s, .word x, q⟩] (List.replicate n x) s start len =
      catalan (len - 1) := by
  induction len using Nat.strongRecOn generalizing start with
  | ind len ih =>
    -- one word is derived in one way; more words are cut as the recursion of the Catalan numbers
    -- does it
    rcases Nat.eq_or_lt_of_le (Nat.succ_le_of_lt pos) with rfl | hlen
    · have hword : (List.replicate n x)[start]? = some x := by
        rw [List.getElem?_replicate_of_lt (by omega)]
      rw [derivationCount_word, hword]
      simp [HasRule]
    · obtain ⟨m, rfl⟩ : ∃ m, len = m + 2 := ⟨len - 2, by omega⟩
      have hsucc : m + 2 - 1 = m + 1 := rfl
      have hcatalan : catalan (m + 1) =
          ∑ k ∈ Finset.range (m + 1), catalan k * catalan (m - k) := by
        rw [catalan_succ, Finset.sum_range]
      rw [derivationCount_cuts hlen.ne', hsucc, hcatalan, Finset.sum_Ico_eq_sum_range, hsucc]
      apply Finset.sum_congr rfl
      intro k hk
      have hk : k < m + 1 := Finset.mem_range.mp hk
      -- the first part has one word more than the index of its Catalan number
      have hfirst : 1 + k - 1 = k := Nat.add_sub_cancel_left 1 k
      have hsecond : m + 2 - (1 + k) - 1 = m - k := by omega
      rw [pairsOf_doubling, Finset.sum_singleton, ih (1 + k) (by omega) (by omega) (by omega),
        ih (m + 2 - (1 + k)) (by omega) (by omega) (by omega), hfirst, hsecond]

end Doubling

/-- **Derivation counts.**  A symbol heads as many entries of a stretch as the recursion counts:
one or none for a word, and for a longer stretch the sum, over all cuts and all distinct pairs that
the symbol expands to, of the products of the counts for the two parts.  Summed over the symbols,
and for the whole table over the stretches too, these are the number of parses and the number of
entries; symbols without productions contribute nothing.  A symbol that expands to two of itself or
to a word has the Catalan numbers of parses on the repetitions of the word. -/
theorem derivation_counts (g : Grammar) (words : List String) :
    (∀ symbol start len, (g.chart words).headCount start len symbol =
      derivationCount g.productions words symbol start len) ∧
    (g.chart words).parseCount =
      ∑ symbol ∈ g.leftSides, derivationCount g.productions words symbol 0 words.length ∧
    (g.chart words).entryCount =
      ∑ symbol ∈ g.leftSides, ∑ len ∈ Finset.Icc 1 words.length,
        ∑ start ∈ Finset.range (words.length + 1 - len),
          derivationCount g.productions words symbol start len ∧
    (∀ symbol start len, symbol ∈ g.leftSides ∨
      derivationCount g.productions words symbol start len = 0) ∧
    ∀ s x p q n, ((ofProductions [⟨s, .pair s s, p⟩, ⟨s, .word x, q⟩]
      (List.cons_ne_nil _ _)).chart (List.replicate (n + 1) x)).parseCount = catalan n := by
  refine ⟨g.headCount_eq words, g.cellSize_eq_sum words 0 words.length, ?_,
    g.mem_leftSides_or_derivationCount words, ?_⟩
  -- stretches are summed within symbols, where the table has symbols within stretches
  · rw [entryCount_chart, Finset.sum_comm]
    apply Finset.sum_congr rfl
    intro len _
    rw [Finset.sum_comm]
    exact Finset.sum_congr rfl fun start _ => g.cellSize_eq_sum words start len
  · intro s x p q n
    have hsides : (ofProductions [⟨s, .pair s s, p⟩, ⟨s, .word x, q⟩]
        (List.cons_ne_nil _ _)).leftSides = {s} := by
      simp [leftSides, ofProductions]
    have hcount := derivationCount_doubling s x p q (Nat.succ_pos n)
      (Nat.le_of_eq (Nat.zero_add (n + 1)))
    rw [Chart.parseCount, size_chart, cellSize_eq_sum, hsides, Finset.sum_singleton,
      List.length_replicate]
    exact hcount

end Grammar

end PhraseGrammar
