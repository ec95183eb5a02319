import PhraseGrammar.Proofs.Derivation

/-!
# A stretch does not depend on the words around it

The cell of a stretch is made from the cells of its parts, and those of single words from the words.
So words before and after a sentence change nothing about the sentence's own cells but where they
are: in the chart of the longer sentence they have the same entries in the same order, and all
addresses in them begin as much later as there are words in front.  The trees that are read out are
the same, with their spans moved.

## Main statements

- `entries_chart_shift`: the entries of a stretch, from those of the shorter sentence.
- `treeAt?_chart_shift`: the same for the trees.
-/

namespace PhraseGrammar

/-! ## Moving to a later place -/

/-- The span that begins and ends `offset` positions later. -/
def Span.shift (offset : Nat) (s : Span) : Span :=
  ⟨offset + s.start, offset + s.stop⟩

/-- The address of a stretch that begins `offset` words later. -/
def EntryRef.shift (offset : Nat) (r : EntryRef) : EntryRef :=
  ⟨offset + r.start, r.len, r.idx⟩

/-- Where an entry came from, with its addresses moved. -/
def Derivation.shift (offset : Nat) : Derivation → Derivation
  | word w => word w
  | split first second => split (first.shift offset) (second.shift offset)

/-- The entry with its addresses moved. -/
def Entry.shift (offset : Nat) (e : Entry) : Entry :=
  ⟨e.lhs, e.derivation.shift offset⟩

theorem EntryRef.span_shift (offset : Nat) (r : EntryRef) :
    (r.shift offset).span = r.span.shift offset := by
  simp [span, stop, shift, Span.shift, Nat.add_assoc]

namespace Tree

mutual

/-- The tree with all its spans moved. -/
def shift (offset : Nat) : Tree → Tree
  | leaf word span => leaf word (span.shift offset)
  | branch label span children => branch label (span.shift offset) (shiftAll offset children)

/-- The trees of a list with all their spans moved. -/
def shiftAll (offset : Nat) : List Tree → List Tree
  | [] => []
  | child :: rest => shift offset child :: shiftAll offset rest

end

end Tree

namespace Grammar

variable (g : Grammar)

/-! ## The entries of a stretch -/

/-- Entries of moved parts are joined as those of the parts are. -/
theorem joinings_shift (offset start leftLen rightLen : Nat) (left right : List Entry) :
    g.joinings (offset + start) leftLen rightLen (left.map (Entry.shift offset))
        (right.map (Entry.shift offset)) =
      (g.joinings start leftLen rightLen left right).map (Entry.shift offset) := by
  unfold joinings
  rw [List.zipIdx_map, List.zipIdx_map, List.flatMap_map, List.map_flatMap]
  apply List.flatMap_congr
  intro ⟨l, i⟩ _
  simp only [Prod.map_apply, id_eq]
  rw [List.flatMap_map, List.map_flatMap]
  apply List.flatMap_congr
  intro ⟨r, j⟩ _
  -- the heads are as before, so the same symbols expand to them
  simp [Entry.shift, Derivation.shift, EntryRef.shift, Nat.add_assoc]

section Surroundings

variable (before words after : List String)

/-- A word of a sentence stands in the longer sentence behind the words in front. -/
theorem getElem?_surrounded {start : Nat} (h : start < words.length) :
    (before ++ words ++ after)[before.length + start]? = words[start]? := by
  rw [List.append_assoc, List.getElem?_append_right (Nat.le_add_right _ _),
    Nat.add_sub_cancel_left, List.getElem?_append_left h]

/-- The entries of a stretch are the same in a longer sentence, with their addresses moved. -/
theorem entries_chart_shift {start len : Nat} (fits : start + len ≤ words.length) :
    (g.chart (before ++ words ++ after)).entries (before.length + start) len =
      ((g.chart words).entries start len).map (Entry.shift before.length) := by
  induction len using Nat.strongRecOn generalizing start with
  | ind len ih =>
    -- no words have no entries, one word has those of its symbols, more words those of their cuts
    rcases Nat.lt_trichotomy len 1 with hlt | rfl | hgt
    · obtain rfl : len = 0 := Nat.lt_one_iff.mp hlt
      rfl
    · rw [entries_chart_word, entries_chart_word, getElem?_surrounded before words after fits]
      cases words[start]? with
      | none => rfl
      | some w => simp [wordEntries, Entry.shift, Derivation.shift]
    · rw [entries_chart_split g _ hgt, entries_chart_split g _ hgt, List.map_flatMap]
      apply List.flatMap_congr
      intro k hk
      -- both parts of a cut are shorter, and lie within the stretch
      have hk : k < len - 1 := List.mem_range.mp hk
      have hfirst : start + (k + 1) ≤ words.length := by omega
      have hsecond : start + (k + 1) + (len - (k + 1)) ≤ words.length := by omega
      have hleft := ih (k + 1) (by omega) hfirst
      have hright := ih (len - (k + 1)) (by omega) hsecond
      rw [← Nat.add_assoc before.length] at hright
      rw [hleft, hright, joinings_shift]

theorem get?_chart_shift {r : EntryRef} (fits : r.start + r.len ≤ words.length) :
    (g.chart (before ++ words ++ after)).get? (r.shift before.length) =
      ((g.chart words).get? r).map (Entry.shift before.length) := by
  rw [Chart.get?_eq_getElem?, Chart.get?_eq_getElem?]
  simp only [EntryRef.shift]
  rw [entries_chart_shift g before words after fits, List.getElem?_map]

/-! ## The trees of a stretch -/

/-- The tree at an address is the same in a longer sentence, with its spans moved. -/
theorem treeAt?_chart_shift {r : EntryRef} (fits : r.start + r.len ≤ words.length) :
    (g.chart (before ++ words ++ after)).treeAt? (r.shift before.length) =
      ((g.chart words).treeAt? r).map (Tree.shift before.length) := by
  obtain ⟨start, len, idx⟩ := r
  induction len using Nat.strongRecOn generalizing start idx with
  | ind len ih =>
    -- both trees are read from the same entry, up to where it is
    have hmoved := g.get?_chart_shift before words after fits
    cases hget : (g.chart words).get? ⟨start, len, idx⟩ with
    | none =>
      rw [hget] at hmoved
      rw [Chart.treeAt?, Chart.treeAt?, hget, hmoved]
      rfl
    | some e =>
      rw [hget] at hmoved
      cases g.licenses_of_get? words hget with
      | word =>
        rw [Chart.treeAt?_of_word hget, Chart.treeAt?_of_word hmoved, EntryRef.span_shift]
        rfl
      | @split k _ i j l r symbol pos shorter hleft hright =>
        have shorter' : len - k < len := Nat.sub_lt (Nat.lt_trans pos shorter) pos
        obtain ⟨left, htleft, -⟩ := g.exists_treeAt?_of_get? words hleft
        obtain ⟨right, htright, -⟩ := g.exists_treeAt?_of_get? words hright
        -- the trees of the two parts have moved, so the tree over them has
        have hend : start + len ≤ words.length := fits
        have hfirst : start + k ≤ words.length := by omega
        have hsecond : start + k + (len - k) ≤ words.length := by omega
        have hl := ih k shorter start i hfirst
        have hr := ih (len - k) shorter' (start + k) j hsecond
        rw [htleft] at hl
        rw [htright] at hr
        rw [Chart.treeAt?_of_split hget shorter shorter' htleft htright,
          Chart.treeAt?_of_split hmoved shorter shorter' hl hr, EntryRef.span_shift]
        rfl

/-- The trees of a stretch are listed in the longer sentence in the same order, with their spans
moved. -/
theorem treesOf_chart_shift {start len : Nat} (fits : start + len ≤ words.length) :
    (g.chart (before ++ words ++ after)).treesOf (before.length + start) len =
      ((g.chart words).treesOf start len).map (Tree.shift before.length) := by
  apply List.ext_getElem?
  intro idx
  have hmoved := g.treeAt?_chart_shift before words after (r := ⟨start, len, idx⟩) fits
  rw [List.getElem?_map, getElem?_treesOf, getElem?_treesOf]
  exact hmoved

end Surroundings

/-- **Context independence**: in the chart of a longer sentence, the cell of a stretch has the
entries of the same stretch of the sentence within, in the same order, with the addresses in them
moved by the number of words in front; it keeps the same positions for every head, and every tree
that is read out of it has its spans moved and is otherwise the same. -/
theorem cell_of_longer_sentence (g : Grammar) (before words after : List String) {start len : Nat}
    (pos : 0 < len) (fits : start + len ≤ words.length) :
    ∃ inner outer,
      (g.chart words).cell? start len = some inner ∧
      (g.chart (before ++ words ++ after)).cell? (before.length + start) len = some outer ∧
      outer.toList = inner.toList.map (Entry.shift before.length) ∧
      (∀ symbol, outer.indicesOf symbol = inner.indicesOf symbol) ∧
      (∀ idx, (g.chart (before ++ words ++ after)).treeAt? ⟨before.length + start, len, idx⟩ =
        ((g.chart words).treeAt? ⟨start, len, idx⟩).map (Tree.shift before.length)) ∧
      (g.chart (before ++ words ++ after)).treesOf (before.length + start) len =
        ((g.chart words).treesOf start len).map (Tree.shift before.length) := by
  have fits' : before.length + start + len ≤ (before ++ words ++ after).length := by
    simp only [List.length_append]
    omega
  refine ⟨_, _, g.cell?_chart words pos fits, g.cell?_chart _ pos fits', ?_, ?_, ?_, ?_⟩
  · rw [Cell.toList_ofList, Cell.toList_ofList, g.entries_chart_shift before words after fits]
  · intro symbol
    rw [Cell.indicesOf_ofList, Cell.indicesOf_ofList,
      g.entries_chart_shift before words after fits, List.zipIdx_map, List.filter_map,
      List.map_map]
    rfl
  · intro idx
    exact g.treeAt?_chart_shift before words after (r := ⟨start, len, idx⟩) fits
  · exact g.treesOf_chart_shift before words after fits

/-- Of three words, the last two are looked at between other words: a word in front moves their cell
by one position, and a word behind them does nothing. -/
theorem cell_of_longer_sentence_last_pair :
    ∃ g : Grammar,
      g.productions =
        [⟨"S", .pair "S" "S", .ofMagnitude .one⟩, ⟨"S", .word "x", .ofMagnitude .one⟩] ∧
      0 < 2 ∧ 1 + 2 ≤ ["x", "x", "x"].length ∧
      ∃ inner outer, (g.chart ["x", "x", "x"]).cell? 1 2 = some inner ∧
        (g.chart ["y", "x", "x", "x", "x"]).cell? 2 2 = some outer ∧
        inner.toList = [⟨"S", .split ⟨1, 1, 0⟩ ⟨2, 1, 0⟩⟩] ∧
        outer.toList = [⟨"S", .split ⟨2, 1, 0⟩ ⟨3, 1, 0⟩⟩] ∧
        (g.chart ["y", "x", "x", "x", "x"]).treesOf 2 2 =
          ((g.chart ["x", "x", "x"]).treesOf 1 2).map (Tree.shift 1) := by
  have ne : [(⟨"S", .pair "S" "S", .ofMagnitude .one⟩ : Production),
      ⟨"S", .word "x", .ofMagnitude .one⟩] ≠ [] := List.cons_ne_nil _ _
  have hword : (ofProductions _ ne).preterminalsFor "x" = ["S"] :=
    headsOf_eq_eraseDups (ofProductions _ ne) (.word "x")
  have hpair : (ofProductions _ ne).lhsForPair "S" "S" = ["S"] :=
    headsOf_eq_eraseDups (ofProductions _ ne) (.pair "S" "S")
  have hone : ∀ start, ["x", "x", "x"][start]? = some "x" →
      ((ofProductions _ ne).chart ["x", "x", "x"]).entries start 1 = [⟨"S", .word "x"⟩] := by
    intro start hx
    rw [entries_chart_word, hx]
    simp [wordEntries, hword]
  have htwo : ((ofProductions _ ne).chart ["x", "x", "x"]).entries 1 2 =
      [⟨"S", .split ⟨1, 1, 0⟩ ⟨2, 1, 0⟩⟩] := by
    rw [entries_chart_split _ _ Nat.one_lt_two]
    simp [joinings, hone, hpair]
  obtain ⟨inner, outer, hinner, houter, hlist, -, -, htrees⟩ :=
    cell_of_longer_sentence (ofProductions _ ne) ["y"] ["x", "x", "x"] ["x"] Nat.two_pos
      (Nat.le_refl (1 + 2))
  have hentries : inner.toList = [⟨"S", .split ⟨1, 1, 0⟩ ⟨2, 1, 0⟩⟩] := by
    rw [← htwo, Chart.entries, hinner]
    rfl
  rw [hentries] at hlist
  exact ⟨_, rfl, Nat.two_pos, Nat.le_refl _, inner, outer, hinner, houter, hentries, hlist, htrees⟩

end Grammar

end PhraseGrammar
