import Mathlib.Data.Set.Defs
import PhraseGrammar.Proofs.FilledChart

/-!
# Derivations and the forest of a filled chart

A *derivation* of a stretch of a sentence is a tree in which every branch applies a production.
The definition below speaks of productions, words and trees alone.  The chart finds exactly the
derivations: reading out the entries of a cell gives a derivation each, and every derivation is
read out somewhere.

## Main statements

- `derives_of_treeAt?`: what is read out of a filled chart is a derivation (soundness).
- `Derives.exists_treeAt?`: every derivation is read out (completeness).
- `exists_treeAt?_of_get?`: every entry of a filled chart has a tree.
- `mem_treesOf`, `mem_treesFor`: the trees of a cell, and of a start symbol, are its derivations.
-/

namespace PhraseGrammar

/-! ## Derivations -/

/-- Some production of the list, with any probability, expands the symbol to the right-hand
side. -/
def HasRule (productions : List Production) (symbol : String) (rhs : RightSide) : Prop :=
  ∃ p ∈ productions, p.lhs = symbol ∧ p.rhs = rhs

instance (productions : List Production) (symbol : String) (rhs : RightSide) :
    Decidable (HasRule productions symbol rhs) :=
  inferInstanceAs (Decidable (∃ p ∈ productions, p.lhs = symbol ∧ p.rhs = rhs))

/-- `Derives productions words symbol start len t`: the tree `t` is a derivation, headed by
`symbol`, of the `len` words from `start`. -/
inductive Derives (productions : List Production) (words : List String) :
    String → Nat → Nat → Tree → Prop where
  /-- A symbol over the one word that it expands to. -/
  | word {symbol w : String} {start : Nat}
      (rule : HasRule productions symbol (.word w)) (hword : words[start]? = some w) :
      Derives productions words symbol start 1
        (.branch symbol ⟨start, start + 1⟩ [.leaf w ⟨start, start + 1⟩])
  /-- A symbol over derivations of the two parts of a cut, headed by the pair that the symbol
  expands to. -/
  | pair {symbol a b : String} {start k len : Nat} {left right : Tree}
      (rule : HasRule productions symbol (.pair a b)) (pos : 0 < k) (shorter : k < len)
      (hleft : Derives productions words a start k left)
      (hright : Derives productions words b (start + k) (len - k) right) :
      Derives productions words symbol start len
        (.branch symbol ⟨start, start + len⟩ [left, right])

namespace Derives

variable {productions : List Production} {words : List String} {symbol : String}
  {start len : Nat} {t : Tree}

theorem len_pos (h : Derives productions words symbol start len t) : 0 < len := by
  cases h with
  | word => exact Nat.one_pos
  | pair _ pos shorter => exact Nat.lt_trans pos shorter

/-- A derivation stays one over a list that has all the rules of the first. -/
theorem mono {productions' : List Production}
    (hrules : ∀ symbol rhs, HasRule productions symbol rhs → HasRule productions' symbol rhs)
    (h : Derives productions words symbol start len t) :
    Derives productions' words symbol start len t := by
  induction h with
  | word rule hword => exact .word (hrules _ _ rule) hword
  | pair rule pos shorter _ _ ihleft ihright =>
    exact .pair (hrules _ _ rule) pos shorter ihleft ihright

end Derives

/-- The heads that a grammar finds for a right-hand side are those of its rules. -/
theorem Grammar.mem_headsOf_iff_hasRule (g : Grammar) {symbol : String} {rhs : RightSide} :
    symbol ∈ g.headsOf rhs ↔ HasRule g.productions symbol rhs :=
  g.mem_headsOf

namespace Chart

variable {c : Chart}

/-! ## Reading out one tree -/

theorem treeAt?_of_word {r : EntryRef} {symbol w : String}
    (h : c.get? r = some ⟨symbol, .word w⟩) :
    c.treeAt? r = some (.branch symbol r.span [.leaf w r.span]) := by
  rw [treeAt?, h]

/-- Under an entry for two shorter stretches, the trees of both are read out. -/
theorem treeAt?_of_split {r first second : EntryRef} {symbol : String} {left right : Tree}
    (h : c.get? r = some ⟨symbol, .split first second⟩) (hfirst : first.len < r.len)
    (hsecond : second.len < r.len) (hleft : c.treeAt? first = some left)
    (hright : c.treeAt? second = some right) :
    c.treeAt? r = some (.branch symbol r.span [left, right]) := by
  rw [treeAt?, h]
  simp [hfirst, hsecond, hleft, hright]

/-- A tree that is read out comes from a word entry, or from the trees of two shorter
stretches. -/
theorem treeAt?_cases {r : EntryRef} {t : Tree} (h : c.treeAt? r = some t) :
    (∃ symbol w, c.get? r = some ⟨symbol, .word w⟩ ∧
      t = .branch symbol r.span [.leaf w r.span]) ∨
    (∃ symbol first second left right, c.get? r = some ⟨symbol, .split first second⟩ ∧
      c.treeAt? first = some left ∧ c.treeAt? second = some right ∧
      t = .branch symbol r.span [left, right]) := by
  rw [treeAt?] at h
  cases hget : c.get? r with
  | none => simp [hget] at h
  | some e =>
    obtain ⟨symbol, derivation⟩ := e
    -- a word gives a leaf at once; a split needs both of its parts, and these to be shorter
    cases derivation with
    | word w =>
      simp only [hget, Option.some.injEq] at h
      exact .inl ⟨symbol, w, rfl, h.symm⟩
    | split first second =>
      simp only [hget] at h
      split at h
      · cases hleft : c.treeAt? first with
        | none => simp [hleft] at h
        | some left =>
          cases hright : c.treeAt? second with
          | none => simp [hleft, hright] at h
          | some right =>
            simp only [hleft, hright, Option.bind_eq_bind, Option.bind_some, Option.pure_def,
              Option.some.injEq] at h
            exact .inr ⟨symbol, first, second, left, right, rfl, hleft, hright, h.symm⟩
      · cases h

/-- The tree of an entry for two stretches stands over the trees of both. -/
theorem children_of_treeAt? {r first second : EntryRef} {t : Tree} {symbol : String}
    (h : c.treeAt? r = some t) (hget : c.get? r = some ⟨symbol, .split first second⟩) :
    ∃ left right, c.treeAt? first = some left ∧ c.treeAt? second = some right ∧
      t = .branch symbol r.span [left, right] := by
  rcases treeAt?_cases h with ⟨_, _, he, -⟩ | ⟨_, _, _, left, right, he, hleft, hright, ht⟩
  · rw [he] at hget
    cases hget
  · rw [he] at hget
    cases hget
    exact ⟨left, right, hleft, hright, ht⟩

theorem span_of_treeAt? {r : EntryRef} {t : Tree} (h : c.treeAt? r = some t) :
    t.span = r.span := by
  rcases treeAt?_cases h with ⟨_, _, _, rfl⟩ | ⟨_, _, _, _, _, _, _, _, rfl⟩ <;> rfl

theorem value_of_treeAt? {r : EntryRef} {t : Tree} {e : Entry} (h : c.treeAt? r = some t)
    (hget : c.get? r = some e) : t.value = e.lhs := by
  rcases treeAt?_cases h with ⟨_, _, he, rfl⟩ | ⟨_, _, _, _, _, he, _, _, rfl⟩
  all_goals
    rw [he, Option.some.injEq] at hget
    subst hget
    rfl

/-- Trees are read out at positions of the cell only. -/
theorem lt_cellSize_of_treeAt? {r : EntryRef} {t : Tree} (h : c.treeAt? r = some t) :
    r.idx < c.cellSize r.start r.len := by
  by_contra hge
  have hnone : c.get? r = none := c.get?_eq_none_iff.mpr (Nat.not_lt.mp hge)
  rw [treeAt?, hnone] at h
  cases h

end Chart

namespace Grammar

variable (g : Grammar) (words : List String)

/-- Every entry of a filled chart is there for a reason, a word or two entries of shorter stretches.
-/
theorem licenses_of_get? {start len idx : Nat} {e : Entry}
    (h : (g.chart words).get? ⟨start, len, idx⟩ = some e) :
    g.Licenses (g.chart words) start len e :=
  (g.mem_entries_chart words).mp ((g.chart words).mem_entries.mpr ⟨idx, h⟩)

/-- What there is a reason for has an address in the filled chart. -/
theorem Licenses.exists_get? {g : Grammar} {words : List String} {start len : Nat} {e : Entry}
    (h : g.Licenses (g.chart words) start len e) :
    ∃ idx, (g.chart words).get? ⟨start, len, idx⟩ = some e :=
  (g.chart words).mem_entries.mp ((g.mem_entries_chart words).mpr h)

/-- Every entry of a filled chart has a tree, with the entry's head at its root. -/
theorem exists_treeAt?_of_get? {start len idx : Nat} {e : Entry}
    (h : (g.chart words).get? ⟨start, len, idx⟩ = some e) :
    ∃ t, (g.chart words).treeAt? ⟨start, len, idx⟩ = some t ∧ t.value = e.lhs := by
  -- the entries that an entry refers to belong to shorter stretches
  induction len using Nat.strongRecOn generalizing start idx e with
  | ind len ih =>
    cases g.licenses_of_get? words h with
    | word => exact ⟨_, Chart.treeAt?_of_word h, rfl⟩
    | @split k _ i j l r symbol pos shorter hleft hright =>
      have shorter' : len - k < len := Nat.sub_lt (Nat.lt_trans pos shorter) pos
      obtain ⟨left, hl, -⟩ := ih k shorter hleft
      obtain ⟨right, hr, -⟩ := ih (len - k) shorter' hright
      exact ⟨_, Chart.treeAt?_of_split h shorter shorter' hl hr, rfl⟩

/-! ## Soundness -/

/-- **Soundness**: a tree that is read out of a filled chart is a derivation, headed by the symbol
of its entry. -/
theorem derives_of_treeAt? {start len idx : Nat} {t : Tree}
    (h : (g.chart words).treeAt? ⟨start, len, idx⟩ = some t) :
    ∃ e, (g.chart words).get? ⟨start, len, idx⟩ = some e ∧
      Derives g.productions words e.lhs start len t := by
  -- by the length of the stretch; the tree and the entry come from the same place in the table
  induction len using Nat.strongRecOn generalizing start idx t with
  | ind len ih =>
    rcases Chart.treeAt?_cases h with
      ⟨symbol, w, hget, rfl⟩ | ⟨symbol, first, second, left, right, hget, hleft, hright, rfl⟩
    · refine ⟨_, hget, ?_⟩
      cases g.licenses_of_get? words hget with
      | word hword hsymbol => exact .word (g.mem_headsOf_iff_hasRule.mp hsymbol) hword
    · refine ⟨_, hget, ?_⟩
      cases g.licenses_of_get? words hget with
      | @split k _ _ _ _ _ _ pos shorter hl hr hsymbol =>
        have shorter' : len - k < len := Nat.sub_lt (Nat.lt_trans pos shorter) pos
        -- the entries that the trees of the parts come from are those that license this one
        obtain ⟨el, hel, dl⟩ := ih k shorter hleft
        obtain ⟨er, her, dr⟩ := ih (len - k) shorter' hright
        rw [hl, Option.some.injEq] at hel
        rw [hr, Option.some.injEq] at her
        subst hel her
        exact .pair (g.mem_headsOf_iff_hasRule.mp hsymbol) pos shorter dl dr

end Grammar

/-! ## Completeness -/

/-- **Completeness**: every derivation is read out of the filled chart, at an entry headed by its
symbol. -/
theorem Derives.exists_treeAt? {g : Grammar} {words : List String} {symbol : String}
    {start len : Nat} {t : Tree} (h : Derives g.productions words symbol start len t) :
    ∃ idx e, (g.chart words).get? ⟨start, len, idx⟩ = some e ∧ e.lhs = symbol ∧
      (g.chart words).treeAt? ⟨start, len, idx⟩ = some t := by
  -- what a rule allows over parts that have been found is licensed, so it has an address too
  induction h with
  | word rule hword =>
    have hlic : g.Licenses (g.chart words) _ _ _ :=
      .word hword (g.mem_headsOf_iff_hasRule.mpr rule)
    obtain ⟨idx, hget⟩ := hlic.exists_get?
    exact ⟨idx, _, hget, rfl, Chart.treeAt?_of_word hget⟩
  | @pair symbol a b start k len left right rule pos shorter _ _ ihleft ihright =>
    obtain ⟨i, el, hel, rfl, hleft⟩ := ihleft
    obtain ⟨j, er, her, rfl, hright⟩ := ihright
    have hlic : g.Licenses (g.chart words) _ _ _ :=
      .split pos shorter hel her (g.mem_headsOf_iff_hasRule.mpr rule)
    obtain ⟨idx, hget⟩ := hlic.exists_get?
    have shorter' : len - k < len := Nat.sub_lt (Nat.lt_trans pos shorter) pos
    exact ⟨idx, _, hget, rfl, Chart.treeAt?_of_split hget shorter shorter' hleft hright⟩

/-! ## The trees of a cell -/

/-- The trees of a stretch, in the order of its entries. -/
def Chart.treesOf (c : Chart) (start len : Nat) : List Tree :=
  (c.refs start len).filterMap c.treeAt?

namespace Grammar

variable (g : Grammar) (words : List String)

/-- The derivations of a stretch, whatever their head. -/
def derivations (start len : Nat) : Set Tree :=
  {t | ∃ symbol, Derives g.productions words symbol start len t}

/-- In a filled chart no address of an entry is without a tree. -/
theorem map_treeAt?_refs (start len : Nat) :
    ((g.chart words).refs start len).map (g.chart words).treeAt? =
      ((g.chart words).treesOf start len).map some := by
  -- every address has an entry, and every entry a tree
  have hsome : ∀ r ∈ (g.chart words).refs start len, ∃ t, (g.chart words).treeAt? r = some t := by
    intro r hr
    obtain ⟨idx, hidx, rfl⟩ := List.mem_map.mp hr
    obtain ⟨e, he⟩ := (g.chart words).exists_get?_of_lt (r := ⟨start, len, idx⟩)
      (List.mem_range.mp hidx)
    obtain ⟨t, ht, -⟩ := g.exists_treeAt?_of_get? words he
    exact ⟨t, ht⟩
  unfold Chart.treesOf
  generalize (g.chart words).refs start len = refs at hsome
  induction refs with
  | nil => rfl
  | cons r rest ih =>
    obtain ⟨t, ht⟩ := hsome r List.mem_cons_self
    rw [List.map_cons, List.filterMap_cons_some ht, List.map_cons, ht,
      ih fun r' hr' => hsome r' (List.mem_cons_of_mem r hr')]

theorem length_treesOf (start len : Nat) :
    ((g.chart words).treesOf start len).length = (g.chart words).cellSize start len := by
  have hlength := congrArg List.length (g.map_treeAt?_refs words start len)
  simpa [Chart.refs] using hlength.symm

/-- The trees of a cell stand in the order of its positions. -/
theorem getElem?_treesOf (start len idx : Nat) :
    ((g.chart words).treesOf start len)[idx]? =
      (g.chart words).treeAt? ⟨start, len, idx⟩ := by
  rcases Nat.lt_or_ge idx ((g.chart words).cellSize start len) with hlt | hge
  · have hmap := congrArg (·[idx]?) (g.map_treeAt?_refs words start len)
    simp only [List.getElem?_map, Chart.refs, List.getElem?_range hlt, Option.map_some] at hmap
    cases htree : ((g.chart words).treesOf start len)[idx]? with
    | none => simp [htree] at hmap
    | some t => simpa [htree] using hmap.symm
  · rw [List.getElem?_eq_none (g.length_treesOf words start len ▸ hge), Chart.treeAt?,
      (g.chart words).get?_eq_none_iff.mpr hge]

/-- The trees that a cell lists are the derivations of its stretch. -/
theorem mem_treesOf {start len : Nat} {t : Tree} :
    t ∈ (g.chart words).treesOf start len ↔ t ∈ g.derivations words start len := by
  rw [List.mem_iff_getElem?]
  simp only [getElem?_treesOf]
  constructor
  · intro h
    obtain ⟨idx, htree⟩ := h
    obtain ⟨e, -, hderives⟩ := g.derives_of_treeAt? words htree
    exact ⟨e.lhs, hderives⟩
  · intro h
    obtain ⟨symbol, hderives⟩ := h
    obtain ⟨idx, -, -, -, htree⟩ := hderives.exists_treeAt?
    exact ⟨idx, htree⟩

/-- The trees that a filled chart gives for a symbol are the derivations that it heads. -/
theorem mem_treesFor {symbol : String} {t : Tree} :
    t ∈ (g.chart words).treesFor symbol ↔
      Derives g.productions words symbol 0 words.length t := by
  unfold Chart.treesFor Chart.top?
  rw [size_chart]
  -- the cell of the whole sentence keeps the positions that the symbol heads
  constructor
  · intro hmem
    cases hcell : (g.chart words).cell? 0 words.length with
    | none => simp [hcell] at hmem
    | some cell =>
      simp only [hcell, List.mem_filterMap] at hmem
      obtain ⟨idx, hidx, htree⟩ := hmem
      obtain ⟨e, hget, rfl⟩ := (g.mem_indicesOf words hcell).mp hidx
      obtain ⟨e', hget', hderives⟩ := g.derives_of_treeAt? words htree
      rw [hget, Option.some.injEq] at hget'
      exact hget' ▸ hderives
  · intro hderives
    obtain ⟨idx, e, hget, rfl, htree⟩ := hderives.exists_treeAt?
    cases hcell : (g.chart words).cell? 0 words.length with
    | none => simp [Chart.get?, hcell] at hget
    | some cell =>
      exact List.mem_filterMap.mpr ⟨idx, (g.mem_indicesOf words hcell).mpr ⟨e, hget, rfl⟩, htree⟩

/-- A tree is read out of a cell of a filled chart iff it is a derivation of the cell's
stretch. -/
theorem exists_treeAt?_iff_derives (start len : Nat) (t : Tree) :
    (∃ idx < (g.chart words).cellSize start len,
      (g.chart words).treeAt? ⟨start, len, idx⟩ = some t) ↔ t ∈ g.derivations words start len := by
  rw [← g.mem_treesOf words, List.mem_iff_getElem?]
  simp only [getElem?_treesOf]
  constructor
  · intro h
    obtain ⟨idx, -, htree⟩ := h
    exact ⟨idx, htree⟩
  · intro h
    obtain ⟨idx, htree⟩ := h
    -- only a position in the cell has a tree
    exact ⟨idx, Chart.lt_cellSize_of_treeAt? htree, htree⟩

end Grammar

end PhraseGrammar
