import Mathlib.Data.List.Basic
import PhraseGrammar.Chart.Forest
import PhraseGrammar.Proofs.Lookup

/-!
# The cells of a filled chart

A chart is filled row by row, and each row is computed from the rows before it.  This module
shows that the finished chart satisfies the same equations *within itself*: no row changes after
it has been added, so a cell may be read as if all its parts had been looked up in the finished
chart.

## Main statements

- `cell?_chart_word`, `cell?_chart_split`: the cells of a filled chart, from its own cells.
- `entries_chart_word`, `entries_chart_split`: the same for the entries, in order.
- `cell?_chart`, `isSome_cell?_chart`: which cells exist, each made from its list of entries.
- `mem_entries_chart`: the entries of a filled chart are those that the grammar licenses.
-/

namespace PhraseGrammar

/-! ## Cells as lists of entries -/

namespace Cell

theorem ofList_concat (es : List Entry) (e : Entry) :
    ofList (es ++ [e]) = (ofList es).add e := by
  simp [ofList, List.foldl_append]

theorem toList_add (cell : Cell) (e : Entry) : (cell.add e).toList = cell.toList ++ [e] := by
  simp [toList, add]

theorem length_toList (cell : Cell) : cell.toList.length = cell.size :=
  Array.length_toList

@[simp] theorem toList_ofList (es : List Entry) : (ofList es).toList = es := by
  induction es using List.reverseRecOn with
  | nil => rfl
  | append_singleton es e ih => rw [ofList_concat, toList_add, ih]

@[simp] theorem size_ofList (es : List Entry) : (ofList es).size = es.length := by
  rw [← length_toList, toList_ofList]

theorem indicesOf_add (cell : Cell) (e : Entry) (symbol : String) :
    (cell.add e).indicesOf symbol =
      if e.lhs = symbol then cell.indicesOf symbol ++ [cell.size] else cell.indicesOf symbol := by
  simp only [indicesOf, add, Std.HashMap.getD_alter]
  by_cases h : e.lhs = symbol
  · subst h
    simp [Std.HashMap.getD_eq_getD_getElem?, size]
  · simp [h]

/-- The positions kept for a head are those of its entries, in increasing order. -/
theorem indicesOf_ofList (es : List Entry) (symbol : String) :
    (ofList es).indicesOf symbol =
      (es.zipIdx.filter fun entry => entry.1.lhs = symbol).map Prod.snd := by
  induction es using List.reverseRecOn with
  | nil => simp [ofList, empty, indicesOf]
  -- from the end of the list, since an addition comes last
  | append_singleton es e ih =>
    rw [ofList_concat, indicesOf_add, ih, size_ofList, List.zipIdx_append, List.filter_append,
      List.map_append]
    by_cases h : e.lhs = symbol <;> simp [h]

/-- A position is kept for a head if the entry at it has this head. -/
theorem mem_indicesOf_ofList {es : List Entry} {symbol : String} {idx : Nat} :
    idx ∈ (ofList es).indicesOf symbol ↔ ∃ e, es[idx]? = some e ∧ e.lhs = symbol := by
  rw [indicesOf_ofList]
  simp only [List.mem_map, List.mem_filter, decide_eq_true_eq, Prod.exists, exists_eq_right,
    List.mk_mem_zipIdx_iff_getElem?]

end Cell

namespace Chart

variable (c : Chart)

/-- The entries of a stretch; a stretch that does not exist has none. -/
def entries (start len : Nat) : List Entry :=
  ((c.cell? start len).map Cell.toList).getD []

theorem get?_eq_getElem? (r : EntryRef) : c.get? r = (c.entries r.start r.len)[r.idx]? := by
  unfold get? entries
  cases c.cell? r.start r.len <;> simp [Cell.get?, Cell.toList]

theorem cellSize_eq_length (start len : Nat) :
    c.cellSize start len = (c.entries start len).length := by
  unfold cellSize entries
  cases c.cell? start len <;> simp [Cell.size, Cell.toList]

/-- There is no entry from the size of the cell on. -/
theorem get?_eq_none_iff {r : EntryRef} :
    c.get? r = none ↔ c.cellSize r.start r.len ≤ r.idx := by
  rw [get?_eq_getElem?, cellSize_eq_length, List.getElem?_eq_none_iff]

/-- There is an entry at every position below the size of the cell. -/
theorem exists_get?_of_lt {r : EntryRef} (h : r.idx < c.cellSize r.start r.len) :
    ∃ e, c.get? r = some e := by
  rw [← Option.ne_none_iff_exists', ne_eq, get?_eq_none_iff]
  omega

/-- The entries of a stretch are those that stand at some address. -/
theorem mem_entries {start len : Nat} {e : Entry} :
    e ∈ c.entries start len ↔ ∃ idx, c.get? ⟨start, len, idx⟩ = some e := by
  simp only [get?_eq_getElem?, List.mem_iff_getElem?]

end Chart

namespace Grammar

variable (g : Grammar) (words : List String)

/-! ## Rows do not change -/

/-- After the first row, each row is computed from those before it. -/
theorem rowsUpTo_succ {count : Nat} (pos : 0 < count) :
    g.rowsUpTo words (count + 1) =
      (g.rowsUpTo words count).push
        (g.splitRow words.length (count + 1) (g.rowsUpTo words count)) := by
  cases count with
  | zero => exact absurd pos (Nat.lt_irrefl 0)
  | succ shorter => rfl

@[simp] theorem size_rowsUpTo (count : Nat) : (g.rowsUpTo words count).size = count := by
  induction count with
  | zero => rfl
  | succ count ih =>
    -- the first row is that of the words, the others are computed from those before
    rcases Nat.eq_zero_or_pos count with rfl | pos
    · rfl
    · rw [rowsUpTo_succ g words pos, Array.size_push, ih]

/-- A cell is the same in all rows from its own on. -/
theorem cellIn?_rowsUpTo {start len count : Nat} (h : len ≤ count) :
    Chart.cellIn? (g.rowsUpTo words count) start len =
      Chart.cellIn? (g.rowsUpTo words len) start len := by
  cases len with
  | zero => rfl
  | succ shorter =>
    -- rows are added one at a time, down to the one that the cell is in
    induction count with
    | zero => omega
    | succ count ih =>
      rcases Nat.eq_or_lt_of_le h with heq | hlt
      · rw [heq]
      -- the row that is added last comes after the row of the stretch
      · have pos : 0 < count := by omega
        rw [← ih (by omega), rowsUpTo_succ g words pos]
        simp only [Chart.cellIn?]
        rw [Array.getElem?_push_lt (by simp; omega)]
        simp [show shorter < count by omega]

/-- The first row has a cell for each word. -/
theorem cellIn?_rowsUpTo_one (start : Nat) :
    Chart.cellIn? (g.rowsUpTo words 1) start 1 =
      words[start]?.map fun word => Cell.ofList (g.wordEntries word) := by
  simp [rowsUpTo, Chart.cellIn?, wordRow]

/-- A later row has a cell for every stretch of its length that lies in the sentence. -/
theorem cellIn?_rowsUpTo_succ {count : Nat} (pos : 0 < count) (start : Nat) :
    Chart.cellIn? (g.rowsUpTo words (count + 1)) start (count + 1) =
      if start + (count + 1) ≤ words.length then
        some (Cell.ofList (g.splitEntries (g.rowsUpTo words count) start (count + 1)))
      else none := by
  have hlast : (g.rowsUpTo words (count + 1))[count]? =
      some (g.splitRow words.length (count + 1) (g.rowsUpTo words count)) := by
    rw [rowsUpTo_succ g words pos, Array.getElem?_push]
    simp
  simp only [Chart.cellIn?, hlast, Option.bind_some, splitRow, List.getElem?_toArray,
    List.getElem?_map]
  -- a row has a cell for every start that leaves room for the stretch
  by_cases h : start + (count + 1) ≤ words.length
  · rw [if_pos h, List.getElem?_range (by omega)]
    rfl
  · rw [if_neg h, List.getElem?_eq_none (by simp; omega)]
    rfl

/-- The entries of a stretch depend on the cells of shorter stretches only. -/
theorem splitEntries_congr {rows rows' : Array (Array Cell)} {len : Nat}
    (h : ∀ start shorter, shorter < len →
      Chart.cellIn? rows start shorter = Chart.cellIn? rows' start shorter) (start : Nat) :
    g.splitEntries rows start len = g.splitEntries rows' start len := by
  unfold splitEntries
  apply List.flatMap_congr
  intro k hk
  have hk : k < len - 1 := List.mem_range.mp hk
  have hleft := h start (k + 1) (by omega)
  have hright := h (start + (k + 1)) (len - (k + 1)) (by omega)
  simp only [hleft, hright]

/-! ## The cells of the finished chart -/

@[simp] theorem size_chart : (g.chart words).size = words.length := rfl

theorem cell?_chart_of_length_lt {len : Nat} (h : words.length < len) (start : Nat) :
    (g.chart words).cell? start len = none := by
  cases len with
  | zero => rfl
  | succ shorter =>
    simp only [Chart.cell?, chart, Chart.cellIn?]
    rw [Array.getElem?_eq_none (by simp; omega)]
    rfl

/-- The cell over a word has the symbols that expand to the word. -/
theorem cell?_chart_word (start : Nat) :
    (g.chart words).cell? start 1 =
      words[start]?.map fun word => Cell.ofList (g.wordEntries word) := by
  rcases Nat.lt_or_ge words.length 1 with h | h
  · rw [cell?_chart_of_length_lt g words h, List.getElem?_eq_none (by omega)]
    rfl
  · exact (cellIn?_rowsUpTo g words h).trans (cellIn?_rowsUpTo_one g words start)

/-- The cell of a longer stretch is made from cells of the same chart. -/
theorem cell?_chart_split {len : Nat} (hlen : 1 < len) (start : Nat) :
    (g.chart words).cell? start len =
      if start + len ≤ words.length then
        some (Cell.ofList (g.splitEntries (g.chart words).rows start len))
      else none := by
  obtain ⟨count, rfl⟩ : ∃ count, len = count + 1 := ⟨len - 1, by omega⟩
  rcases Nat.lt_or_ge words.length (count + 1) with h | h
  · rw [cell?_chart_of_length_lt g words h, if_neg (by omega)]
  · have hrows : g.splitEntries (g.rowsUpTo words count) start (count + 1) =
        g.splitEntries (g.chart words).rows start (count + 1) := by
      -- both have the rows that the shorter stretches are in
      apply splitEntries_congr
      intro start shorter hshorter
      have hcount : shorter ≤ count := Nat.le_of_lt_succ hshorter
      have hlength : shorter ≤ words.length := Nat.le_trans hcount (Nat.le_of_succ_le h)
      rw [cellIn?_rowsUpTo g words hcount]
      exact (cellIn?_rowsUpTo g words hlength).symm
    rw [← hrows, ← cellIn?_rowsUpTo_succ g words (by omega) start]
    exact cellIn?_rowsUpTo g words h

/-- There is no cell for a stretch without words, or one that goes beyond the sentence. -/
theorem cell?_chart_eq_none {start len : Nat} (h : len = 0 ∨ words.length < start + len) :
    (g.chart words).cell? start len = none := by
  rcases Nat.lt_trichotomy len 1 with hlt | rfl | hgt
  · obtain rfl : len = 0 := Nat.lt_one_iff.mp hlt
    rfl
  · rw [cell?_chart_word, List.getElem?_eq_none (by omega)]
    rfl
  · rw [cell?_chart_split g words hgt, if_neg (by omega)]

/-! ## The entries of the finished chart -/

/-- The entries that join two lists of entries: one of `leftLen` words from `start`, and one of
`rightLen` words after it. -/
def joinings (start leftLen rightLen : Nat) (left right : List Entry) : List Entry :=
  left.zipIdx.flatMap fun (l, i) =>
    right.zipIdx.flatMap fun (r, j) =>
      (g.lhsForPair l.lhs r.lhs).map fun lhs =>
        ⟨lhs, .split ⟨start, leftLen, i⟩ ⟨start + leftLen, rightLen, j⟩⟩

theorem joinings_nil_right (start leftLen rightLen : Nat) (left : List Entry) :
    g.joinings start leftLen rightLen left [] = [] := by
  simp [joinings]

/-- Two cells of a chart are joined by their entries; where one does not exist, nothing is. -/
theorem joinedEntries_of_cells (c : Chart) (start leftLen rightLen : Nat) :
    (match c.cell? start leftLen, c.cell? (start + leftLen) rightLen with
      | some left, some right => g.joinedEntries start leftLen rightLen left right
      | _, _ => []) =
      g.joinings start leftLen rightLen (c.entries start leftLen)
        (c.entries (start + leftLen) rightLen) := by
  unfold Chart.entries
  cases c.cell? start leftLen with
  | none => rfl
  | some left =>
    cases c.cell? (start + leftLen) rightLen with
    | none => exact (g.joinings_nil_right start leftLen rightLen _).symm
    | some right => rfl

/-- The entries over a word are those of the word, if there is one. -/
theorem entries_chart_word (start : Nat) :
    (g.chart words).entries start 1 = (words[start]?.map g.wordEntries).getD [] := by
  unfold Chart.entries
  rw [cell?_chart_word]
  cases words[start]? <;> simp

theorem entries_chart_of_length_lt {start len : Nat} (h : words.length < start + len) :
    (g.chart words).entries start len = [] := by
  unfold Chart.entries
  rw [cell?_chart_eq_none g words (.inr h)]
  rfl

/-- The entries of a longer stretch join those of its two parts, for every cut in order. -/
theorem entries_chart_split {len : Nat} (hlen : 1 < len) (start : Nat) :
    (g.chart words).entries start len =
      (List.range (len - 1)).flatMap fun k =>
        g.joinings start (k + 1) (len - (k + 1)) ((g.chart words).entries start (k + 1))
          ((g.chart words).entries (start + (k + 1)) (len - (k + 1))) := by
  rcases Nat.lt_or_ge words.length (start + len) with hlong | hfits
  · rw [entries_chart_of_length_lt g words hlong]
    symm
    apply List.flatMap_eq_nil_iff.mpr
    intro k hk
    -- the second part ends where the stretch does, beyond the sentence
    have hk : k < len - 1 := List.mem_range.mp hk
    have hright : words.length < start + (k + 1) + (len - (k + 1)) := by omega
    rw [entries_chart_of_length_lt g words hright, joinings_nil_right]
  · have hcell : (g.chart words).entries start len =
        g.splitEntries (g.chart words).rows start len := by
      unfold Chart.entries
      rw [cell?_chart_split g words hlen, if_pos hfits]
      simp
    rw [hcell]
    unfold splitEntries
    apply List.flatMap_congr
    intro k _
    exact joinedEntries_of_cells g (g.chart words) start (k + 1) (len - (k + 1))

/-- A filled chart has a cell for every stretch of the sentence that holds a word, made from the
list of its entries. -/
theorem cell?_chart {start len : Nat} (pos : 0 < len) (fits : start + len ≤ words.length) :
    (g.chart words).cell? start len =
      some (Cell.ofList ((g.chart words).entries start len)) := by
  rcases Nat.eq_or_lt_of_le (Nat.succ_le_of_lt pos) with rfl | hlen
  · have hword : words[start]? = some words[start] := List.getElem?_eq_getElem fits
    rw [entries_chart_word, cell?_chart_word, hword]
    rfl
  · have hcell := g.cell?_chart_split words hlen start
    rw [if_pos fits] at hcell
    simp [Chart.entries, hcell]

/-- The cells of a filled chart are those of the stretches that hold a word. -/
theorem isSome_cell?_chart {start len : Nat} :
    ((g.chart words).cell? start len).isSome = true ↔ 0 < len ∧ start + len ≤ words.length := by
  by_cases h : 0 < len ∧ start + len ≤ words.length
  · simp [g.cell?_chart words h.1 h.2, h]
  · have hnone : len = 0 ∨ words.length < start + len := by omega
    simp [g.cell?_chart_eq_none words hnone, h]

/-- The positions that a cell of the finished chart keeps for a symbol are those of the entries
that the symbol heads. -/
theorem mem_indicesOf {start len idx : Nat} {symbol : String} {cell : Cell}
    (h : (g.chart words).cell? start len = some cell) :
    idx ∈ cell.indicesOf symbol ↔
      ∃ e, (g.chart words).get? ⟨start, len, idx⟩ = some e ∧ e.lhs = symbol := by
  obtain ⟨pos, fits⟩ := (g.isSome_cell?_chart words).mp (Option.isSome_of_eq_some h)
  -- no cell is made otherwise than from a list of entries
  obtain rfl : Cell.ofList ((g.chart words).entries start len) = cell :=
    Option.some.inj ((g.cell?_chart words pos fits).symm.trans h)
  rw [Cell.mem_indicesOf_ofList, Chart.get?_eq_getElem?]

/-! ## Licensed entries -/

/-- What the grammar licenses as an entry of a stretch of a chart: a symbol over a word that it
expands to, or a symbol over two entries whose heads it expands to, at the two parts of a cut. -/
inductive Licenses (c : Chart) (start : Nat) : Nat → Entry → Prop where
  | word {w symbol : String} (hword : c.words[start]? = some w)
      (hsymbol : symbol ∈ g.preterminalsFor w) : Licenses c start 1 ⟨symbol, .word w⟩
  | split {k len i j : Nat} {left right : Entry} {symbol : String}
      (pos : 0 < k) (shorter : k < len)
      (hleft : c.get? ⟨start, k, i⟩ = some left)
      (hright : c.get? ⟨start + k, len - k, j⟩ = some right)
      (hsymbol : symbol ∈ g.lhsForPair left.lhs right.lhs) :
      Licenses c start len ⟨symbol, .split ⟨start, k, i⟩ ⟨start + k, len - k, j⟩⟩

/-- Entries are joined from one entry of each part and a symbol for the pair of their heads. -/
theorem mem_joinings {start leftLen rightLen : Nat} {left right : List Entry} {e : Entry} :
    e ∈ g.joinings start leftLen rightLen left right ↔
      ∃ i j l r, left[i]? = some l ∧ right[j]? = some r ∧
        ∃ symbol ∈ g.lhsForPair l.lhs r.lhs,
          e = ⟨symbol, .split ⟨start, leftLen, i⟩ ⟨start + leftLen, rightLen, j⟩⟩ := by
  simp only [joinings, List.mem_flatMap, List.mem_map, Prod.exists, List.mk_mem_zipIdx_iff_getElem?]
  constructor
  · intro h
    obtain ⟨l, i, hl, r, j, hr, symbol, hsymbol, he⟩ := h
    exact ⟨i, j, l, r, hl, hr, symbol, hsymbol, he.symm⟩
  · intro h
    obtain ⟨i, j, l, r, hl, hr, symbol, hsymbol, he⟩ := h
    exact ⟨l, i, hl, r, j, hr, symbol, hsymbol, he.symm⟩

/-- The entries of a filled chart are the licensed ones. -/
theorem mem_entries_chart {start len : Nat} {e : Entry} :
    e ∈ (g.chart words).entries start len ↔ g.Licenses (g.chart words) start len e := by
  constructor
  · intro he
    -- a stretch of no words has no entries, one word has those of the word, more words are cut
    rcases Nat.lt_trichotomy len 1 with hlt | rfl | hgt
    · obtain rfl : len = 0 := by omega
      cases he
    · rw [entries_chart_word] at he
      cases hword : words[start]? with
      | none => simp [hword] at he
      | some w =>
        simp only [hword, Option.map_some, Option.getD_some, wordEntries, List.mem_map] at he
        obtain ⟨symbol, hsymbol, rfl⟩ := he
        exact .word hword hsymbol
    · rw [entries_chart_split g words hgt] at he
      simp only [List.mem_flatMap, List.mem_range, mem_joinings] at he
      obtain ⟨k, hk, i, j, l, r, hl, hr, symbol, hsymbol, rfl⟩ := he
      have hshorter : k + 1 < len := Nat.add_lt_of_lt_sub hk
      apply Licenses.split (Nat.succ_pos k) hshorter _ _ hsymbol
      · rw [Chart.get?_eq_getElem?]
        exact hl
      · rw [Chart.get?_eq_getElem?]
        exact hr
  · intro hlic
    cases hlic with
    | @word w symbol hword hsymbol =>
      have hword : words[start]? = some w := hword
      rw [entries_chart_word]
      simpa [hword, wordEntries] using hsymbol
    | @split k len i j l r symbol pos shorter hleft hright hsymbol =>
      -- the cuts are counted from zero, the lengths of first parts from one
      obtain ⟨k, rfl⟩ := Nat.exists_eq_succ_of_ne_zero (Nat.ne_of_gt pos)
      rw [Chart.get?_eq_getElem?] at hleft hright
      have hlen : 1 < len := Nat.lt_of_le_of_lt pos shorter
      rw [entries_chart_split g words hlen]
      simp only [List.mem_flatMap, List.mem_range, mem_joinings]
      exact ⟨k, Nat.lt_sub_of_add_lt shorter, i, j, l, r, hleft, hright, symbol, hsymbol, rfl⟩

end Grammar

end PhraseGrammar
