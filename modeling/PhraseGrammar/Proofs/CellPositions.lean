import PhraseGrammar.Proofs.FilledChart

/-!
# The positions that a cell keeps

A cell holds its entries twice: as an array, in the order in which they were added, and as lists of
positions, one for each head.  An addition changes both, and has to number the entry by the size
that the array has before it.  Then the lists stay in step with the array: every position is in
exactly one of them, the one of its entry's head, and each list is in increasing order, so that its
first position is that of the first entry with the head.

## Main statements

- `Indexed.add`, `Indexed.addAll`: additions keep the lists in step with the array.
- `Indexed.find?_eq`: what is looked up by the first position is the first entry with the head.
- `Grows.addAll`: additions leave what was there in its place.
- `positions_of_additions`: all of it for a cell that is made by additions.
-/

namespace PhraseGrammar.Cell

variable {cell later : Cell} {es : List Entry}

/-! ## Lists in step with the array -/

/-- The cell holds the entries of a list in their order, and keeps for every symbol the positions of
the entries that it heads, in increasing order. -/
structure Indexed (cell : Cell) (es : List Entry) : Prop where
  toList_eq : cell.toList = es
  increasing : ∀ symbol, (cell.indicesOf symbol).Pairwise (· < ·)
  mem_iff : ∀ symbol idx,
    idx ∈ cell.indicesOf symbol ↔ ∃ e, es[idx]? = some e ∧ e.lhs = symbol

/-- The one position that an addition brings is the size before it, under the entry's head. -/
theorem mem_indicesOf_add (cell : Cell) (e : Entry) (symbol : String) (idx : Nat) :
    idx ∈ (cell.add e).indicesOf symbol ↔
      idx ∈ cell.indicesOf symbol ∨ idx = cell.size ∧ e.lhs = symbol := by
  rw [indicesOf_add]
  split
  · next h => simp [h]
  · next h => simp [h]

theorem indexed_empty : Indexed empty [] where
  toList_eq := rfl
  increasing symbol := by simp [indicesOf, empty]
  mem_iff symbol idx := by simp [indicesOf, empty]

namespace Indexed

theorem size_eq (h : cell.Indexed es) : cell.size = es.length := by
  rw [← length_toList, h.toList_eq]

/-- An entry is found at its position in the list. -/
theorem get?_eq (h : cell.Indexed es) (idx : Nat) : cell.get? idx = es[idx]? := by
  rw [← h.toList_eq]
  exact Array.getElem?_toList.symm

theorem lt_length (h : cell.Indexed es) {symbol : String} {idx : Nat}
    (hidx : idx ∈ cell.indicesOf symbol) : idx < es.length := by
  obtain ⟨e, he, -⟩ := (h.mem_iff symbol idx).mp hidx
  exact (List.getElem?_eq_some_iff.mp he).1

/-- An addition files the position of its entry, and no other, under the entry's head. -/
theorem add (h : cell.Indexed es) (e : Entry) : (cell.add e).Indexed (es ++ [e]) where
  toList_eq := by rw [toList_add, h.toList_eq]
  increasing symbol := by
    rw [indicesOf_add]
    split
    · -- the new position is the size, and all that are kept lie below it
      apply List.pairwise_append.mpr
      refine ⟨h.increasing symbol, List.pairwise_singleton _ _, ?_⟩
      intro idx hidx last hlast
      rw [List.mem_singleton.mp hlast, h.size_eq]
      exact h.lt_length hidx
    · exact h.increasing symbol
  mem_iff symbol idx := by
    rw [mem_indicesOf_add, h.mem_iff, h.size_eq]
    constructor
    -- a position of an old entry, or the new one
    · rintro (⟨x, hx, rfl⟩ | ⟨rfl, rfl⟩)
      · have hlt := (List.getElem?_eq_some_iff.mp hx).1
        exact ⟨x, (List.getElem?_append_left hlt).trans hx, rfl⟩
      · exact ⟨e, List.getElem?_concat_length, rfl⟩
    · rintro ⟨x, hx, rfl⟩
      -- likewise from the longer list: the position lies in the old part, or is the last
      rcases Nat.lt_or_ge idx es.length with hlt | hge
      · rw [List.getElem?_append_left hlt] at hx
        exact .inl ⟨x, hx, rfl⟩
      · rw [List.getElem?_append_right hge, List.getElem?_singleton] at hx
        split at hx
        · next hzero =>
          cases hx
          exact .inr ⟨Nat.le_antisymm (Nat.sub_eq_zero_iff_le.mp hzero) hge, rfl⟩
        · cases hx

/-- Any number of additions keep the lists in step with the array. -/
theorem addAll (h : cell.Indexed es) (more : List Entry) :
    (more.foldl Cell.add cell).Indexed (es ++ more) := by
  induction more generalizing cell es with
  | nil => simpa using h
  | cons e more ih =>
    rw [List.foldl_cons, List.append_cons]
    exact ih (h.add e)

/-! ## What follows for the lookups -/

/-- Positions are kept for the entries that are there, and for no others. -/
theorem lt_length_iff (h : cell.Indexed es) (idx : Nat) :
    idx < es.length ↔ ∃ symbol, idx ∈ cell.indicesOf symbol := by
  constructor
  · intro hlt
    exact ⟨es[idx].lhs, (h.mem_iff _ _).mpr ⟨es[idx], List.getElem?_eq_getElem hlt, rfl⟩⟩
  · rintro ⟨symbol, hidx⟩
    exact h.lt_length hidx

/-- No position is kept for two symbols. -/
theorem disjoint (h : cell.Indexed es) {a b : String} (hab : a ≠ b) :
    (cell.indicesOf a).Disjoint (cell.indicesOf b) := by
  intro idx ha hb
  obtain ⟨e, he, rfl⟩ := (h.mem_iff a idx).mp ha
  obtain ⟨e', he', rfl⟩ := (h.mem_iff b idx).mp hb
  rw [he, Option.some.injEq] at he'
  exact hab (congrArg Entry.lhs he')

/-- There is an entry at the first position that is kept for a symbol. -/
theorem map_get?_head? (h : cell.Indexed es) (symbol : String) :
    (cell.indicesOf symbol).head?.map cell.get? = (cell.find? symbol).map some := by
  rw [find?]
  cases hlist : cell.indicesOf symbol with
  | nil => rfl
  | cons idx rest =>
    have hidx : idx ∈ cell.indicesOf symbol := by rw [hlist]; exact List.mem_cons_self
    obtain ⟨e, he, -⟩ := (h.mem_iff symbol idx).mp hidx
    simp [h.get?_eq, he]

/-- The entry at the first position of a symbol is the first entry that the symbol heads. -/
theorem find?_eq (h : cell.Indexed es) (symbol : String) :
    cell.find? symbol = es.find? fun e => e.lhs = symbol := by
  have hmem := h.mem_iff symbol
  have hincreasing := h.increasing symbol
  rw [find?]
  cases hlist : cell.indicesOf symbol with
  -- no position is kept, so no entry has this head
  | nil =>
    have hnone : es.find? (fun e => e.lhs = symbol) = none := by
      rw [List.find?_eq_none]
      intro e he hlhs
      obtain ⟨idx, hidx⟩ := List.mem_iff_getElem?.mp he
      have hkept := (hmem idx).mpr ⟨e, hidx, of_decide_eq_true hlhs⟩
      rw [hlist] at hkept
      exact List.not_mem_nil hkept
    rw [hnone]
    rfl
  | cons first rest =>
    rw [hlist] at hmem hincreasing
    obtain ⟨e, hget, hlhs⟩ := (hmem first).mp List.mem_cons_self
    obtain ⟨hlt, he⟩ := List.getElem?_eq_some_iff.mp hget
    have hfind : es.find? (fun e => e.lhs = symbol) = some e := by
      rw [List.find?_eq_some_iff_getElem]
      refine ⟨decide_eq_true hlhs, first, hlt, he, ?_⟩
      -- an earlier entry with this head would have its position in front of the first
      intro earlier hearlier
      have hnot : earlier ∉ first :: rest := by
        intro hkept
        rcases List.mem_cons.mp hkept with rfl | hrest
        · exact Nat.lt_irrefl _ hearlier
        · exact Nat.lt_asymm hearlier (List.rel_of_pairwise_cons hincreasing hrest)
      rw [hmem] at hnot
      simp only [Bool.not_eq_true', decide_eq_false_iff_not]
      intro hhead
      exact hnot ⟨_, List.getElem?_eq_getElem _, hhead⟩
    rw [hfind, List.head?_cons, Option.bind_some, h.get?_eq, hget]

end Indexed

/-! ## What was there stays in its place -/

/-- The later cell has the entries of the other at the same positions, and each of its lists goes on
where the other's ended. -/
structure Grows (cell later : Cell) : Prop where
  entries : cell.toList <+: later.toList
  positions : ∀ symbol, cell.indicesOf symbol <+: later.indicesOf symbol

namespace Grows

theorem refl (cell : Cell) : cell.Grows cell :=
  ⟨List.prefix_refl _, fun _ => List.prefix_refl _⟩

theorem trans {last : Cell} (h : cell.Grows later) (h' : later.Grows last) : cell.Grows last :=
  ⟨h.entries.trans h'.entries, fun symbol => (h.positions symbol).trans (h'.positions symbol)⟩

/-- An addition puts its entry behind the others, and its position behind those of its head. -/
theorem add (cell : Cell) (e : Entry) : cell.Grows (cell.add e) where
  entries := by
    rw [toList_add]
    exact List.prefix_append _ _
  positions symbol := by
    rw [indicesOf_add]
    split
    · exact List.prefix_append _ _
    · exact List.prefix_refl _

/-- Any additions leave what was there in its place. -/
theorem addAll (cell : Cell) (more : List Entry) : cell.Grows (more.foldl Cell.add cell) := by
  induction more generalizing cell with
  | nil => exact refl cell
  | cons e more ih => exact (add cell e).trans (ih (cell.add e))

end Grows

/-- **The positions of a cell.**  Add any entries, one after the other, to an empty cell.  It holds
them in this order, and keeps for every symbol the positions of those that the symbol heads, in
increasing order, so that every position of an entry is kept for exactly one symbol.  What it finds
for a symbol is the first of the symbol's entries, and the position by which it looks is always one
of an entry.  Whatever is added later, every entry stays at its position, and every position at its
place among those of its symbol. -/
theorem positions_of_additions (es : List Entry) :
    (ofList es).toList = es ∧
      (∀ symbol, ((ofList es).indicesOf symbol).Pairwise (· < ·)) ∧
      (∀ symbol idx,
        idx ∈ (ofList es).indicesOf symbol ↔ ∃ e, es[idx]? = some e ∧ e.lhs = symbol) ∧
      (∀ idx, idx < (ofList es).size ↔ ∃! symbol, idx ∈ (ofList es).indicesOf symbol) ∧
      (∀ symbol, (ofList es).find? symbol = es.find? fun e => e.lhs = symbol) ∧
      (∀ symbol, ((ofList es).indicesOf symbol).head?.map (ofList es).get? =
        ((ofList es).find? symbol).map some) ∧
      ∀ more : List Entry, (ofList es).Grows (more.foldl add (ofList es)) := by
  have hindexed : (ofList es).Indexed es := indexed_empty.addAll es
  refine ⟨hindexed.toList_eq, hindexed.increasing, hindexed.mem_iff, ?_, hindexed.find?_eq,
    hindexed.map_get?_head?, Grows.addAll (ofList es)⟩
  intro idx
  rw [hindexed.size_eq]
  -- the entry at a position has one head, and positions of two heads have none in common
  constructor
  · intro hlt
    obtain ⟨symbol, hidx⟩ := (hindexed.lt_length_iff idx).mp hlt
    refine ⟨symbol, hidx, ?_⟩
    intro other hother
    by_contra hne
    exact hindexed.disjoint hne hother hidx
  · rintro ⟨symbol, hidx, -⟩
    exact hindexed.lt_length hidx

end PhraseGrammar.Cell
