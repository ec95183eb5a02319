import Mathlib.Data.Set.Card
import PhraseGrammar.Proofs.Derivation

/-!
# The canonical order of the derivations of a stretch

The derivations of one stretch are compared by the length of their first child, then by the first
children, then by the second children, and last by the place that the grammar gives to their
roots.  A filled chart lists the trees of every cell in this order, strictly increasing; so no
tree is listed twice, the number of entries is the number of derivations, and the first tree is
the least.

Distinct entries do not make distinct trees by themselves, since an entry holds positions in other
cells.  The order carries over from entries to trees by induction on the length of the stretch.
-/

namespace PhraseGrammar

/-- The number of positions that a span covers. -/
def Span.length (s : Span) : Nat :=
  s.stop - s.start

namespace Grammar

variable {g : Grammar}

/-! ## The order on trees -/

/-- The canonical order.  Trees over one word compare by their roots' place among the symbols that
expand to the word.  Other trees compare by the length of their first child, then by their first
children, then by their second children, then by their roots' place among the symbols that expand
to the pair of their children's heads. -/
inductive Precedes (g : Grammar) : Tree → Tree → Prop where
  | word {x y w : String} {s s' : Span}
      (h : (g.preterminalsFor w).idxOf x < (g.preterminalsFor w).idxOf y) :
      Precedes g (.branch x s [.leaf w s']) (.branch y s [.leaf w s'])
  | cut {x y : String} {s : Span} {l r l' r' : Tree} (h : l.span.length < l'.span.length) :
      Precedes g (.branch x s [l, r]) (.branch y s [l', r'])
  | first {x y : String} {s : Span} {l r l' r' : Tree} (h : Precedes g l l') :
      Precedes g (.branch x s [l, r]) (.branch y s [l', r'])
  | second {x y : String} {s : Span} {l r r' : Tree} (h : Precedes g r r') :
      Precedes g (.branch x s [l, r]) (.branch y s [l, r'])
  | root {x y : String} {s : Span} {l r : Tree}
      (h : (g.lhsForPair l.value r.value).idxOf x < (g.lhsForPair l.value r.value).idxOf y) :
      Precedes g (.branch x s [l, r]) (.branch y s [l, r])

namespace Precedes

/-- Only trees over one span are compared. -/
theorem span_eq {t u : Tree} (h : g.Precedes t u) : t.span = u.span := by
  cases h <;> rfl

theorem ne {t u : Tree} (h : g.Precedes t u) : t ≠ u := by
  induction h with
  | word h =>
    intro heq
    cases heq
    exact Nat.lt_irrefl _ h
  | cut h =>
    intro heq
    cases heq
    exact Nat.lt_irrefl _ h
  | first h ih =>
    intro heq
    cases heq
    exact ih rfl
  | second h ih =>
    intro heq
    cases heq
    exact ih rfl
  | root h =>
    intro heq
    cases heq
    exact Nat.lt_irrefl _ h

theorem trans {t u v : Tree} (htu : g.Precedes t u) (huv : g.Precedes u v) : g.Precedes t v := by
  -- of the two places where the trees first differ, the earlier one decides
  induction htu generalizing v with
  | word h =>
    cases huv with
    | word h' => exact .word (Nat.lt_trans h h')
  | cut h =>
    cases huv with
    | cut h' => exact .cut (Nat.lt_trans h h')
    | first h' => exact .cut (h'.span_eq ▸ h)
    | second _ => exact .cut h
    | root _ => exact .cut h
  | first h ih =>
    cases huv with
    | cut h' => exact .cut (h.span_eq ▸ h')
    | first h' => exact .first (ih h')
    | second _ => exact .first h
    | root _ => exact .first h
  | second h ih =>
    cases huv with
    | cut h' => exact .cut h'
    | first h' => exact .first h'
    | second h' => exact .second (ih h')
    | root _ => exact .second h
  | root h =>
    cases huv with
    | cut h' => exact .cut h'
    | first h' => exact .first h'
    | second h' => exact .second h'
    | root h' => exact .root (Nat.lt_trans h h')

theorem asymm {t u : Tree} (htu : g.Precedes t u) (hut : g.Precedes u t) : False :=
  (htu.trans hut).ne rfl

end Precedes

/-! ## The order on entries -/

/-- The order in which a filled chart adds the entries of a stretch. -/
inductive EntryPrecedes (g : Grammar) (c : Chart) (start len : Nat) : Entry → Entry → Prop where
  | word {x y w : String} (h : (g.preterminalsFor w).idxOf x < (g.preterminalsFor w).idxOf y) :
      EntryPrecedes g c start len ⟨x, .word w⟩ ⟨y, .word w⟩
  | cut {x y : String} {k k' i i' j j' : Nat} (h : k < k') :
      EntryPrecedes g c start len
        ⟨x, .split ⟨start, k, i⟩ ⟨start + k, len - k, j⟩⟩
        ⟨y, .split ⟨start, k', i'⟩ ⟨start + k', len - k', j'⟩⟩
  | first {x y : String} {k i i' j j' : Nat} (h : i < i') :
      EntryPrecedes g c start len
        ⟨x, .split ⟨start, k, i⟩ ⟨start + k, len - k, j⟩⟩
        ⟨y, .split ⟨start, k, i'⟩ ⟨start + k, len - k, j'⟩⟩
  | second {x y : String} {k i j j' : Nat} (h : j < j') :
      EntryPrecedes g c start len
        ⟨x, .split ⟨start, k, i⟩ ⟨start + k, len - k, j⟩⟩
        ⟨y, .split ⟨start, k, i⟩ ⟨start + k, len - k, j'⟩⟩
  | root {x y : String} {k i j : Nat} {l r : Entry} (hleft : c.get? ⟨start, k, i⟩ = some l)
      (hright : c.get? ⟨start + k, len - k, j⟩ = some r)
      (h : (g.lhsForPair l.lhs r.lhs).idxOf x < (g.lhsForPair l.lhs r.lhs).idxOf y) :
      EntryPrecedes g c start len
        ⟨x, .split ⟨start, k, i⟩ ⟨start + k, len - k, j⟩⟩
        ⟨y, .split ⟨start, k, i⟩ ⟨start + k, len - k, j⟩⟩

/-! ## Cells are filled in order -/

/-- In a list without repetitions, what comes later is found later. -/
private theorem pairwise_idxOf {xs : List String} (h : xs.Nodup) :
    xs.Pairwise fun x y => xs.idxOf x < xs.idxOf y := by
  apply List.pairwise_iff_getElem.mpr
  intro i j hi hj hij
  rw [h.idxOf_getElem i hi, h.idxOf_getElem j hj]
  exact hij

private theorem pairwise_zipIdx (es : List Entry) : es.zipIdx.Pairwise fun a b => a.2 < b.2 := by
  have hrange := List.pairwise_lt_range' (s := 0) (n := es.length)
  rw [← List.zipIdx_map_snd 0 es] at hrange
  exact List.pairwise_map.mp hrange

/-- The entries over a word are in the order of the symbols that expand to it. -/
theorem pairwise_wordEntries (c : Chart) (start len : Nat) (w : String) :
    (g.wordEntries w).Pairwise (g.EntryPrecedes c start len) := by
  have hnodup : (g.preterminalsFor w).Nodup := g.nodup_headsOf (.word w)
  unfold wordEntries
  apply List.pairwise_map.mpr
  apply (pairwise_idxOf hnodup).imp
  intro x y h
  exact .word h

/-- One cut adds its entries by the left entry, then the right entry, then the symbol. -/
theorem pairwise_joinings (c : Chart) (start len k : Nat) :
    (g.joinings start k (len - k) (c.entries start k) (c.entries (start + k) (len - k))).Pairwise
      (g.EntryPrecedes c start len) := by
  unfold joinings
  apply List.pairwise_flatMap.mpr
  constructor
  · intro ⟨l, i⟩ hl
    apply List.pairwise_flatMap.mpr
    constructor
    -- the same two entries: the symbols are in the order of the pair's heads
    · intro ⟨r, j⟩ hr
      have hleft : c.get? ⟨start, k, i⟩ = some l := by
        rw [Chart.get?_eq_getElem?]
        exact List.mk_mem_zipIdx_iff_getElem?.mp hl
      have hright : c.get? ⟨start + k, len - k, j⟩ = some r := by
        rw [Chart.get?_eq_getElem?]
        exact List.mk_mem_zipIdx_iff_getElem?.mp hr
      have hnodup : (g.lhsForPair l.lhs r.lhs).Nodup := g.nodup_headsOf (.pair l.lhs r.lhs)
      apply List.pairwise_map.mpr
      apply (pairwise_idxOf hnodup).imp
      intro x y h
      exact .root hleft hright h
    -- the same left entry, and two right entries
    · apply (pairwise_zipIdx _).imp
      intro ⟨r, j⟩ ⟨r', j'⟩ hj e he e' he'
      obtain ⟨x, -, rfl⟩ := List.mem_map.mp he
      obtain ⟨y, -, rfl⟩ := List.mem_map.mp he'
      exact .second hj
  -- two left entries
  · apply (pairwise_zipIdx _).imp
    intro ⟨l, i⟩ ⟨l', i'⟩ hi e he e' he'
    obtain ⟨⟨r, j⟩, -, he⟩ := List.mem_flatMap.mp he
    obtain ⟨⟨r', j'⟩, -, he'⟩ := List.mem_flatMap.mp he'
    obtain ⟨x, -, rfl⟩ := List.mem_map.mp he
    obtain ⟨y, -, rfl⟩ := List.mem_map.mp he'
    exact .first hi

/-- The entries of every cell are in order: a cell over words has one lookup, any other goes through
its cuts. -/
theorem pairwise_entries (g : Grammar) (words : List String) (start len : Nat) :
    ((g.chart words).entries start len).Pairwise
      (g.EntryPrecedes (g.chart words) start len) := by
  -- no words, one word, or at least two
  rcases Nat.lt_trichotomy len 1 with hlt | rfl | hgt
  · obtain rfl : len = 0 := by omega
    exact List.Pairwise.nil
  · rw [entries_chart_word]
    cases words[start]? with
    | none => exact List.Pairwise.nil
    | some w => exact pairwise_wordEntries _ _ _ w
  · rw [entries_chart_split g words hgt]
    apply List.pairwise_flatMap.mpr
    constructor
    · intro k _
      exact pairwise_joinings _ start len (k + 1)
    -- two cuts
    · apply List.pairwise_lt_range.imp
      intro k k' hk e he e' he'
      obtain ⟨i, j, l, r, -, -, x, -, rfl⟩ := g.mem_joinings.mp he
      obtain ⟨i', j', l', r', -, -, y, -, rfl⟩ := g.mem_joinings.mp he'
      exact .cut (Nat.succ_lt_succ hk)

/-! ## From entries to trees -/

/-- The trees of a cell compare as their positions do. -/
theorem precedes_of_lt (g : Grammar) (words : List String) {start len i j : Nat} {t u : Tree}
    (hij : i < j) (ht : (g.chart words).treeAt? ⟨start, len, i⟩ = some t)
    (hu : (g.chart words).treeAt? ⟨start, len, j⟩ = some u) : g.Precedes t u := by
  induction len using Nat.strongRecOn generalizing start i j t u with
  | ind len ih =>
    obtain ⟨e, he, -⟩ := g.derives_of_treeAt? words ht
    obtain ⟨e', he', -⟩ := g.derives_of_treeAt? words hu
    have hlic := g.licenses_of_get? words he
    -- the two entries compare as their positions do; the trees compare at the same place
    have hee' : g.EntryPrecedes (g.chart words) start len e e' := by
      rw [Chart.get?_eq_getElem?] at he he'
      obtain ⟨hi, rfl⟩ := List.getElem?_eq_some_iff.mp he
      obtain ⟨hj, rfl⟩ := List.getElem?_eq_some_iff.mp he'
      exact List.pairwise_iff_getElem.mp (pairwise_entries g words start len) i j hi hj hij
    cases hee' with
    | word h =>
      rw [Chart.treeAt?_of_word he, Option.some.injEq] at ht
      rw [Chart.treeAt?_of_word he', Option.some.injEq] at hu
      subst ht hu
      exact .word h
    -- the first children have different lengths
    | cut h =>
      obtain ⟨l, r, hl, -, rfl⟩ := Chart.children_of_treeAt? ht he
      obtain ⟨l', r', hl', -, rfl⟩ := Chart.children_of_treeAt? hu he'
      apply Precedes.cut
      rw [Chart.span_of_treeAt? hl, Chart.span_of_treeAt? hl']
      simpa [Span.length, EntryRef.span, EntryRef.stop] using h
    | first h =>
      obtain ⟨l, r, hl, -, rfl⟩ := Chart.children_of_treeAt? ht he
      obtain ⟨l', r', hl', -, rfl⟩ := Chart.children_of_treeAt? hu he'
      -- that the entry is licensed makes the parts shorter, for the induction hypothesis
      cases hlic with
      | split pos shorter => exact .first (ih _ shorter h hl hl')
    | second h =>
      obtain ⟨l, r, hl, hr, rfl⟩ := Chart.children_of_treeAt? ht he
      obtain ⟨l', r', hl', hr', rfl⟩ := Chart.children_of_treeAt? hu he'
      obtain rfl : l = l' := Option.some.inj (hl.symm.trans hl')
      cases hlic with
      | split pos shorter => exact .second (ih _ (by omega) h hr hr')
    | root hleft hright h =>
      obtain ⟨l, r, hl, hr, rfl⟩ := Chart.children_of_treeAt? ht he
      obtain ⟨l', r', hl', hr', rfl⟩ := Chart.children_of_treeAt? hu he'
      obtain rfl : l = l' := Option.some.inj (hl.symm.trans hl')
      obtain rfl : r = r' := Option.some.inj (hr.symm.trans hr')
      rw [← Chart.value_of_treeAt? hl hleft, ← Chart.value_of_treeAt? hr hright] at h
      exact .root h

/-! ## The trees of a cell -/

/-- The trees of a cell are strictly increasing. -/
theorem pairwise_treesOf (g : Grammar) (words : List String) (start len : Nat) :
    ((g.chart words).treesOf start len).Pairwise g.Precedes := by
  apply List.pairwise_iff_getElem.mpr
  intro i j hi hj hij
  have ht := g.getElem?_treesOf words start len i
  have hu := g.getElem?_treesOf words start len j
  rw [List.getElem?_eq_getElem hi] at ht
  rw [List.getElem?_eq_getElem hj] at hu
  exact g.precedes_of_lt words hij ht.symm hu.symm

theorem nodup_treesOf (g : Grammar) (words : List String) (start len : Nat) :
    ((g.chart words).treesOf start len).Nodup :=
  (pairwise_treesOf g words start len).imp Precedes.ne

/-- Any two derivations of one stretch compare. -/
theorem precedes_total {words : List String} {start len : Nat} {t u : Tree}
    (ht : t ∈ g.derivations words start len) (hu : u ∈ g.derivations words start len) :
    t = u ∨ g.Precedes t u ∨ g.Precedes u t := by
  obtain ⟨_, ht⟩ := ht
  obtain ⟨_, hu⟩ := hu
  obtain ⟨i, -, -, -, hi⟩ := ht.exists_treeAt?
  obtain ⟨j, -, -, -, hj⟩ := hu.exists_treeAt?
  rcases Nat.lt_trichotomy i j with hij | rfl | hji
  · exact .inr (.inl (g.precedes_of_lt words hij hi hj))
  · exact .inl (Option.some.inj (hi.symm.trans hj))
  · exact .inr (.inr (g.precedes_of_lt words hji hj hi))

/-- A cell has as many entries as its stretch has derivations. -/
theorem encard_derivations (g : Grammar) (words : List String) (start len : Nat) :
    (g.derivations words start len).encard = (g.chart words).cellSize start len := by
  classical
  -- the derivations are the trees that are listed, and none of them is listed twice
  have hset : g.derivations words start len =
      (((g.chart words).treesOf start len).toFinset : Set Tree) := by
    ext t
    simp [g.mem_treesOf words]
  rw [hset, Set.encard_coe_eq_coe_finsetCard,
    List.toFinset_card_of_nodup (nodup_treesOf g words start len), g.length_treesOf words]

/-- The first tree of a sentence is its least derivation. -/
theorem firstTree?_eq_some_iff (g : Grammar) (words : List String) (t : Tree) :
    (g.chart words).firstTree? = some t ↔
      t ∈ g.derivations words 0 words.length ∧
        ∀ u ∈ g.derivations words 0 words.length, u = t ∨ g.Precedes t u := by
  unfold Chart.firstTree?
  rw [size_chart]
  constructor
  · intro ht
    obtain ⟨e, -, hderives⟩ := g.derives_of_treeAt? words ht
    refine ⟨⟨e.lhs, hderives⟩, ?_⟩
    -- every other derivation stands at a later position
    intro u hu
    obtain ⟨_, hu⟩ := hu
    obtain ⟨j, -, -, -, hj⟩ := hu.exists_treeAt?
    rcases Nat.eq_zero_or_pos j with rfl | pos
    · exact .inl (Option.some.inj (hj.symm.trans ht))
    · exact .inr (g.precedes_of_lt words pos ht hj)
  · intro h
    obtain ⟨⟨_, ht⟩, hleast⟩ := h
    obtain ⟨i, -, -, -, hi⟩ := ht.exists_treeAt?
    -- the tree at position zero exists, and cannot come before the least one
    have hsize := Chart.lt_cellSize_of_treeAt? hi
    obtain ⟨e, he⟩ := (g.chart words).exists_get?_of_lt (r := ⟨0, words.length, 0⟩)
      (Nat.lt_of_le_of_lt (Nat.zero_le i) hsize)
    obtain ⟨u, hu, -⟩ := g.exists_treeAt?_of_get? words he
    obtain ⟨e', -, hderives⟩ := g.derives_of_treeAt? words hu
    rcases hleast u ⟨e'.lhs, hderives⟩ with rfl | hprecedes
    · exact hu
    · rcases Nat.eq_zero_or_pos i with rfl | pos
      · exact hi
      · exact (hprecedes.asymm (g.precedes_of_lt words pos hu hi)).elim

/-- **Canonical order**: the trees of every cell of a filled chart are strictly increasing in an
order that is strict and total on the derivations of a stretch; so none is listed twice, the
number of parses is the number of derivations of the sentence, and the first tree is the least
derivation. -/
theorem trees_strictly_increasing (g : Grammar) (words : List String) :
    (∀ start len,
      ((g.chart words).refs start len).map (g.chart words).treeAt? =
          ((g.chart words).treesOf start len).map some ∧
        ((g.chart words).treesOf start len).Pairwise g.Precedes ∧
        ((g.chart words).treesOf start len).Nodup) ∧
    ((∀ t, ¬ g.Precedes t t) ∧ (∀ t u v, g.Precedes t u → g.Precedes u v → g.Precedes t v) ∧
      ∀ start len, ∀ t ∈ g.derivations words start len, ∀ u ∈ g.derivations words start len,
        t = u ∨ g.Precedes t u ∨ g.Precedes u t) ∧
    (g.derivations words 0 words.length).encard = (g.chart words).parseCount ∧
    ∀ t, (g.chart words).firstTree? = some t ↔
      t ∈ g.derivations words 0 words.length ∧
        ∀ u ∈ g.derivations words 0 words.length, u = t ∨ g.Precedes t u := by
  -- what cells list, then the three laws of the order, then the number of parses and the first tree
  refine ⟨fun start len => ⟨?_, ?_, ?_⟩, ⟨?_, ?_, ?_⟩, ?_, ?_⟩
  · exact g.map_treeAt?_refs words start len
  · exact pairwise_treesOf g words start len
  · exact nodup_treesOf g words start len
  · exact fun t h => h.ne rfl
  · exact fun t u v => Precedes.trans
  · exact fun start len t ht u hu => precedes_total ht hu
  · exact encard_derivations g words 0 words.length
  · exact firstTree?_eq_some_iff g words

end Grammar

end PhraseGrammar
