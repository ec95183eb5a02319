import PhraseGrammar.Proofs.FilledChart

/-!
# Filling a chart in place

The cells of a filled chart solve a system of equations: the cell of a word lists the symbols that
expand to the word, and the cell of a longer stretch joins the cells of the two parts of every cut.
The right-hand sides speak of shorter stretches only, so there is one solution.

The same chart comes about in a single table whose cells are empty at first.  The stretches are
visited by their length; a visit looks at the cells of shorter stretches and then adds entries to the
cell of its own.  Here a visit fails if it looks for a cell or adds to a cell that the table does not
have.  No visit fails, and every cell is complete before it is first looked at.

## Main statements

- `CellEquations.eq`: the equations have at most one solution.
- `Filled.visit`, `Filled.run`: what one visit keeps, and what all of them keep.
- `sweep?_eq`: visiting all stretches makes the filled chart.
- `chart_solves_equations`: the filled chart is the solution, and filling in place finds it.
-/

namespace PhraseGrammar

namespace Grammar

variable (g : Grammar) (words : List String)

/-! ## The equations of the cells -/

/-- A table of lists of entries, by start and length, in which every cell is what the cells of
shorter stretches make it. -/
structure CellEquations (table : Nat → Nat → Option (List Entry)) : Prop where
  /-- The cells are those of the stretches that hold a word and lie in the sentence. -/
  exists_iff : ∀ start len,
    (table start len).isSome = true ↔ 1 ≤ len ∧ start + len ≤ words.length
  /-- The cell of a word has an entry for each symbol that expands to it. -/
  word : ∀ start w, words[start]? = some w →
    table start 1 = some ((g.preterminalsFor w).map fun lhs => ⟨lhs, .word w⟩)
  /-- The cell of a longer stretch joins the two parts of every cut. -/
  split : ∀ start len, 2 ≤ len → start + len ≤ words.length →
    table start len = some ((List.range' 1 (len - 1)).flatMap fun k =>
      g.joinings start k (len - k) ((table start k).getD [])
        ((table (start + k) (len - k)).getD []))

/-- The lists of entries of a filled chart. -/
def entryTable (start len : Nat) : Option (List Entry) :=
  ((g.chart words).cell? start len).map Cell.toList

/-- The table has the entries of a stretch where the sentence has the stretch. -/
theorem entryTable_eq_some {start len : Nat} (pos : 0 < len) (fits : start + len ≤ words.length) :
    g.entryTable words start len = some ((g.chart words).entries start len) := by
  rw [entryTable, g.cell?_chart words pos fits, Option.map_some, Cell.toList_ofList]

/-- The entries of a longer stretch, with the cuts counted by the length of the first part. -/
theorem entries_chart_cuts {len : Nat} (hlen : 1 < len) (start : Nat) :
    (g.chart words).entries start len =
      (List.range' 1 (len - 1)).flatMap fun k =>
        g.joinings start k (len - k) ((g.chart words).entries start k)
          ((g.chart words).entries (start + k) (len - k)) := by
  rw [entries_chart_split g words hlen, List.range'_eq_map_range, List.flatMap_map]
  apply List.flatMap_congr
  intro k _
  rw [Nat.add_comm 1 k]

/-- The lists of entries of a filled chart satisfy the equations. -/
theorem cellEquations_entryTable : g.CellEquations words (g.entryTable words) where
  exists_iff start len := by
    rw [entryTable, Option.isSome_map]
    exact g.isSome_cell?_chart words
  word start w hw := by
    have fits : start + 1 ≤ words.length := (List.getElem?_eq_some_iff.mp hw).1
    rw [g.entryTable_eq_some words Nat.one_pos fits, entries_chart_word, hw]
    rfl
  split start len hlen fits := by
    have pos : 0 < len := Nat.lt_of_lt_of_le Nat.two_pos hlen
    rw [g.entryTable_eq_some words pos fits, g.entries_chart_cuts words hlen]
    rfl

variable {g words}

/-- Two solutions agree, by induction on the length of the stretch. -/
theorem CellEquations.eq {table table' : Nat → Nat → Option (List Entry)}
    (h : g.CellEquations words table) (h' : g.CellEquations words table') : table = table' := by
  funext start len
  induction len using Nat.strongRecOn generalizing start with
  | ind len ih =>
    -- the equations say what is in a cell, and where there are cells
    by_cases hcell : 1 ≤ len ∧ start + len ≤ words.length
    · obtain ⟨pos, fits⟩ := hcell
      rcases Nat.eq_or_lt_of_le pos with rfl | hlen
      · have hw : words[start]? = some words[start] := List.getElem?_eq_getElem fits
        rw [h.word start _ hw, h'.word start _ hw]
      · rw [h.split start len hlen fits, h'.split start len hlen fits]
        apply congrArg some
        apply List.flatMap_congr
        intro k hk
        -- both parts of a cut are shorter than the stretch
        obtain ⟨hpos, hshorter⟩ := List.mem_range'_1.mp hk
        rw [ih k (by omega) start, ih (len - k) (by omega) (start + k)]
    -- neither table has a cell outside the sentence
    · have hnone := mt (h.exists_iff start len).mp hcell
      have hnone' := mt (h'.exists_iff start len).mp hcell
      rw [Option.not_isSome_iff_eq_none] at hnone hnone'
      rw [hnone, hnone']

end Grammar

/-! ## Replacing a cell -/

namespace Chart

/-- The chart with another cell for the stretch of `len` words from `start`. -/
def setCell (c : Chart) (start len : Nat) (cell : Cell) : Chart :=
  match len with
  | 0 => c
  | shorter + 1 =>
    { c with rows := c.rows.modify shorter fun row => row.setIfInBounds start cell }

variable (c : Chart) (start len : Nat) (cell : Cell)

@[simp] theorem words_setCell : (c.setCell start len cell).words = c.words := by
  cases len <;> rfl

@[simp] theorem size_rows_setCell : (c.setCell start len cell).rows.size = c.rows.size := by
  cases len with
  | zero => rfl
  | succ shorter => simp [setCell]

theorem cell?_setCell_self :
    (c.setCell start len cell).cell? start len = (c.cell? start len).map fun _ => cell := by
  cases len with
  | zero => rfl
  | succ shorter =>
    simp only [cell?, cellIn?, setCell, Array.getElem?_modify, if_true]
    cases c.rows[shorter]? with
    | none => rfl
    | some row =>
      rw [Option.map_some, Option.bind_some, Option.bind_some, Array.getElem?_setIfInBounds_self]
      by_cases h : start < row.size <;> simp [h]

theorem cell?_setCell_of_ne {start' len' : Nat} (h : (start', len') ≠ (start, len)) :
    (c.setCell start len cell).cell? start' len' = c.cell? start' len' := by
  cases len with
  | zero => rfl
  | succ shorter =>
    cases len' with
    | zero => rfl
    | succ shorter' =>
      simp only [cell?, cellIn?, setCell, Array.getElem?_modify]
      -- another row is not touched, and in the same row another place
      by_cases hrow : shorter = shorter'
      · subst hrow
        have hstart : start ≠ start' := fun heq => h (by rw [heq])
        rw [if_pos rfl]
        cases c.rows[shorter]? with
        | none => rfl
        | some row => simp [hstart]
      · rw [if_neg hrow]

/-- Two charts with the same words, the same number of rows and the same cells are equal. -/
theorem ext_cell? {c c' : Chart} (hwords : c.words = c'.words)
    (hsize : c.rows.size = c'.rows.size)
    (hcell : ∀ start len, c.cell? start len = c'.cell? start len) : c = c' := by
  have hrows : c.rows = c'.rows := by
    apply Array.ext hsize
    intro shorter h h'
    apply Array.ext_getElem?
    intro start
    have hrow := hcell start (shorter + 1)
    simpa [cell?, cellIn?, Array.getElem?_eq_getElem h, Array.getElem?_eq_getElem h'] using hrow
  cases c
  cases c'
  congr

/-- The cells of a chart that has not been filled are those of the stretches that hold a word. -/
theorem cell?_unfilled (words : List String) (start len : Nat) :
    (unfilled words).cell? start len =
      if 0 < len ∧ start + len ≤ words.length then some Cell.empty else none := by
  cases len with
  | zero => simp [cell?, cellIn?]
  | succ shorter =>
    simp only [cell?, cellIn?, unfilled, Array.getElem?_ofFn]
    by_cases hrow : shorter < words.length
    · rw [dif_pos hrow, Option.bind_some, Array.getElem?_replicate]
      exact if_congr (by omega) rfl rfl
    · rw [dif_neg hrow, if_neg (by omega)]
      rfl

end Chart

/-! ## Filling a table in place -/

/-- What is done to the cell of a stretch while a chart is filled. -/
inductive CellUse where
  | look (start len : Nat)
  | add (start len : Nat)
deriving DecidableEq

namespace CellUse

/-- The second of two uses does not change a cell that the first one looked at. -/
def Respects (first second : CellUse) : Prop :=
  ∀ start len, first = look start len → second ≠ add start len

/-- No cell is added to after it has been looked at. -/
def InOrder (uses : List CellUse) : Prop :=
  uses.Pairwise Respects

end CellUse

/-- A chart in the making, and what has been done to its cells so far. -/
structure Filling where
  chart : Chart
  uses : List CellUse

namespace Filling

/-- All cells are there, and empty. -/
def initial (words : List String) : Filling :=
  ⟨.unfilled words, []⟩

/-- The cell of a stretch, unless the table has no such cell. -/
def look? (f : Filling) (start len : Nat) : Option (Cell × Filling) :=
  (f.chart.cell? start len).map fun cell => (cell, ⟨f.chart, f.uses ++ [.look start len]⟩)

/-- Entries are added to the cell of a stretch, unless the table has no such cell. -/
def add? (f : Filling) (start len : Nat) (entries : List Entry) : Option Filling :=
  (f.chart.cell? start len).map fun cell =>
    ⟨f.chart.setCell start len (entries.foldl Cell.add cell), f.uses ++ [.add start len]⟩

/-- The entries of the stretch of `len` words from `start`, from the cells that the table has for
the two parts of each cut.  A cut is the number of words in its first part. -/
def gather? (g : Grammar) (start len : Nat) : List Nat → Filling → Option (List Entry × Filling)
  | [], f => some ([], f)
  | k :: cuts, f => do
    let (left, f) ← f.look? start k
    let (right, f) ← f.look? (start + k) (len - k)
    let (later, f) ← gather? g start len cuts f
    return (g.joinedEntries start k (len - k) left right ++ later, f)

/-- The cell of one stretch is filled: that of a word from the grammar, that of a longer stretch
from the cells of its parts. -/
def visit? (g : Grammar) (f : Filling) (stretch : Nat × Nat) : Option Filling := do
  let (start, len) := stretch
  if len = 1 then
    let word ← f.chart.words[start]?
    f.add? start 1 (g.wordEntries word)
  else
    let (entries, f) ← gather? g start len (List.range' 1 (len - 1)) f
    f.add? start len entries

/-- The stretches of a sentence of `n` words, the shortest first and each length from left to
right. -/
def stretches (n : Nat) : List (Nat × Nat) :=
  (List.range' 1 n).flatMap fun len => (List.range (n + 1 - len)).map fun start => (start, len)

/-- All stretches of a sentence are visited in turn. -/
def sweep? (g : Grammar) (words : List String) : Option Filling :=
  (stretches words.length).foldlM (visit? g) (initial words)

/-! ### The order of the visits -/

/-- The stretches that are visited are those that hold a word and lie in the sentence. -/
theorem mem_stretches {n start len : Nat} :
    (start, len) ∈ stretches n ↔ 0 < len ∧ start + len ≤ n := by
  simp only [stretches, List.mem_flatMap, List.mem_range'_1, List.mem_map, List.mem_range,
    Prod.mk.injEq]
  constructor
  · intro h
    obtain ⟨l, hl, s, hs, rfl, rfl⟩ := h
    omega
  · intro h
    exact ⟨len, by omega, start, by omega, rfl, rfl⟩

/-- A stretch comes before another if it is shorter, or as long and further left. -/
def Before (p q : Nat × Nat) : Prop :=
  p.2 < q.2 ∨ p.2 = q.2 ∧ p.1 < q.1

/-- Each stretch comes before those that are visited after it. -/
theorem pairwise_stretches (n : Nat) : (stretches n).Pairwise Before := by
  apply List.pairwise_flatMap.mpr
  constructor
  · intro len _
    apply List.pairwise_map.mpr
    exact List.pairwise_lt_range.imp fun hlt => .inr ⟨rfl, hlt⟩
  · apply List.Pairwise.imp _ List.pairwise_lt_range'
    intro len len' hlt p hp q hq
    obtain ⟨start, _, rfl⟩ := List.mem_map.mp hp
    obtain ⟨start', _, rfl⟩ := List.mem_map.mp hq
    exact .inl hlt

section Order

variable {n start len : Nat} {done rest : List (Nat × Nat)}

/-- No stretch is visited twice. -/
theorem not_mem_done (h : stretches n = done ++ (start, len) :: rest) : (start, len) ∉ done := by
  intro hdone
  have hpairs := pairwise_stretches n
  rw [h, List.pairwise_append] at hpairs
  have hbefore := hpairs.2.2 _ hdone _ List.mem_cons_self
  simp [Before] at hbefore

/-- All shorter stretches are visited before. -/
theorem mem_done_of_shorter (h : stretches n = done ++ (start, len) :: rest) {start' len' : Nat}
    (hmem : (start', len') ∈ stretches n) (shorter : len' < len) : (start', len') ∈ done := by
  have hpairs := pairwise_stretches n
  rw [h, List.pairwise_append, List.pairwise_cons] at hpairs
  rw [h, List.mem_append, List.mem_cons] at hmem
  rcases hmem with hdone | hself | hrest
  · exact hdone
  · simp only [Prod.mk.injEq] at hself
    omega
  -- what comes later is not shorter
  · have hbefore := hpairs.2.1.1 _ hrest
    simp only [Before] at hbefore
    omega

end Order

/-! ### What a visit keeps -/

/-- The looks at the two parts of each cut. -/
def partLooks (start len : Nat) (cuts : List Nat) : List CellUse :=
  cuts.flatMap fun k => [.look start k, .look (start + k) (len - k)]

/-- A look respects whatever comes before it. -/
theorem respects_of_mem_partLooks {start len : Nat} {cuts : List Nat} {first second : CellUse}
    (h : second ∈ partLooks start len cuts) : first.Respects second := by
  intro s l _ hadd
  subst hadd
  simp [partLooks] at h

/-- Gathering succeeds where the table has the cells of all parts, and changes none of them. -/
theorem gather?_eq (g : Grammar) (f : Filling) {start len : Nat} {cuts : List Nat}
    (h : ∀ k ∈ cuts, (f.chart.cell? start k).isSome = true ∧
      (f.chart.cell? (start + k) (len - k)).isSome = true) :
    gather? g start len cuts f =
      some (cuts.flatMap fun k => g.joinings start k (len - k) (f.chart.entries start k)
          (f.chart.entries (start + k) (len - k)),
        ⟨f.chart, f.uses ++ partLooks start len cuts⟩) := by
  induction cuts generalizing f with
  | nil => simp [gather?, partLooks]
  | cons k cuts ih =>
    obtain ⟨left, hleft⟩ := Option.isSome_iff_exists.mp (h k List.mem_cons_self).1
    obtain ⟨right, hright⟩ := Option.isSome_iff_exists.mp (h k List.mem_cons_self).2
    -- the two cells are joined by their lists of entries
    have hjoined := g.joinedEntries_of_cells f.chart start k (len - k)
    simp only [hleft, hright] at hjoined
    have hlater := ih ⟨f.chart, f.uses ++ [.look start k] ++ [.look (start + k) (len - k)]⟩
      fun k hk => h k (List.mem_cons_of_mem _ hk)
    simp only [gather?, look?, hleft, hright, Option.map_some, Option.bind_eq_bind,
      Option.bind_some, Option.pure_def]
    rw [hlater, Option.bind_some, hjoined]
    simp [partLooks]

/-- The state of the table when the stretches `done` have been visited: their cells are final, the
others are empty, and only final cells have been looked at. -/
structure Filled (g : Grammar) (words : List String) (done : List (Nat × Nat)) (f : Filling) :
    Prop where
  words_eq : f.chart.words = words
  size_rows : f.chart.rows.size = words.length
  final : ∀ start len, (start, len) ∈ done →
    f.chart.cell? start len = (g.chart words).cell? start len
  waiting : ∀ start len, (start, len) ∉ done →
    f.chart.cell? start len = (Chart.unfilled words).cell? start len
  looked : ∀ start len, .look start len ∈ f.uses → (start, len) ∈ done
  inOrder : CellUse.InOrder f.uses

namespace Filled

variable {g : Grammar} {words : List String} {done : List (Nat × Nat)} {f : Filling}

/-- Before the first visit, all cells are waiting. -/
theorem initial (g : Grammar) (words : List String) : Filled g words [] (.initial words) where
  words_eq := rfl
  size_rows := by simp [Filling.initial, Chart.unfilled]
  final _ _ h := absurd h List.not_mem_nil
  waiting _ _ _ := rfl
  looked _ _ h := absurd h List.not_mem_nil
  inOrder := List.Pairwise.nil

/-- Final cells may be looked at. -/
theorem look (h : Filled g words done f) {start len : Nat} {cuts : List Nat}
    (hdone : ∀ k ∈ cuts, (start, k) ∈ done ∧ (start + k, len - k) ∈ done) :
    Filled g words done ⟨f.chart, f.uses ++ partLooks start len cuts⟩ where
  words_eq := h.words_eq
  size_rows := h.size_rows
  final := h.final
  waiting := h.waiting
  looked s l hmem := by
    rcases List.mem_append.mp hmem with hold | hnew
    · exact h.looked s l hold
    · obtain ⟨k, hk, hlook⟩ := List.mem_flatMap.mp hnew
      simp only [List.mem_cons, CellUse.look.injEq, List.not_mem_nil, or_false] at hlook
      rcases hlook with ⟨rfl, rfl⟩ | ⟨rfl, rfl⟩
      · exact (hdone _ hk).1
      · exact (hdone _ hk).2
  inOrder := by
    have hlooks : (partLooks start len cuts).Pairwise CellUse.Respects :=
      List.pairwise_of_forall_mem_list fun _ _ _ hlook => respects_of_mem_partLooks hlook
    apply List.pairwise_append.mpr
    exact ⟨h.inOrder, hlooks, fun _ _ _ hlook => respects_of_mem_partLooks hlook⟩

/-- The cell of a stretch that has not been visited becomes final when its entries are added. -/
theorem add (h : Filled g words done f) {start len : Nat} (pos : 0 < len)
    (fits : start + len ≤ words.length) (hnew : (start, len) ∉ done) :
    ∃ f', f.add? start len ((g.chart words).entries start len) = some f' ∧
      Filled g words (done ++ [(start, len)]) f' := by
  -- nothing has been added to the cell so far
  have hcell : f.chart.cell? start len = some Cell.empty := by
    rw [h.waiting start len hnew, Chart.cell?_unfilled, if_pos ⟨pos, fits⟩]
  refine ⟨_, by rw [add?, hcell]; rfl, ?_⟩
  constructor
  case words_eq => exact (Chart.words_setCell ..).trans h.words_eq
  case size_rows => exact (Chart.size_rows_setCell ..).trans h.size_rows
  case final =>
    intro s l hmem
    by_cases heq : (s, l) = (start, len)
    · obtain ⟨rfl, rfl⟩ := Prod.mk.inj heq
      rw [Chart.cell?_setCell_self, hcell, g.cell?_chart words pos fits]
      rfl
    · rw [Chart.cell?_setCell_of_ne _ _ _ _ heq]
      apply h.final
      simpa [heq] using hmem
  case waiting =>
    intro s l hmem
    simp only [List.mem_append, List.mem_singleton, not_or] at hmem
    rw [Chart.cell?_setCell_of_ne _ _ _ _ hmem.2]
    exact h.waiting s l hmem.1
  case looked =>
    intro s l hmem
    simp only [List.mem_append, List.mem_singleton, reduceCtorEq, or_false] at hmem
    exact List.mem_append_left _ (h.looked s l hmem)
  -- what has been looked at has been visited before, and this stretch has not
  case inOrder =>
    apply List.pairwise_append.mpr
    refine ⟨h.inOrder, List.pairwise_singleton _ _, ?_⟩
    intro first hfirst second hsecond s l hlook hadd
    rw [List.mem_singleton.mp hsecond, CellUse.add.injEq] at hadd
    obtain ⟨rfl, rfl⟩ := hadd
    subst hlook
    exact hnew (h.looked _ _ hfirst)

/-- The entries of a stretch that has been visited are those of the filled chart. -/
theorem entries_eq (h : Filled g words done f) {start len : Nat} (hdone : (start, len) ∈ done) :
    f.chart.entries start len = (g.chart words).entries start len := by
  unfold Chart.entries
  rw [h.final start len hdone]

theorem isSome_cell? (h : Filled g words done f) {start len : Nat} (hdone : (start, len) ∈ done)
    (pos : 0 < len) (fits : start + len ≤ words.length) :
    (f.chart.cell? start len).isSome = true := by
  rw [h.final start len hdone]
  exact (g.isSome_cell?_chart words).mpr ⟨pos, fits⟩

/-- What a visit gathers from final cells are the entries of its stretch. -/
theorem gather (h : Filled g words done f) {start len : Nat} (hlen : 1 < len)
    (fits : start + len ≤ words.length)
    (hparts : ∀ k ∈ List.range' 1 (len - 1), (start, k) ∈ done ∧ (start + k, len - k) ∈ done) :
    gather? g start len (List.range' 1 (len - 1)) f =
      some ((g.chart words).entries start len,
        ⟨f.chart, f.uses ++ partLooks start len (List.range' 1 (len - 1))⟩) := by
  have hcells : ∀ k ∈ List.range' 1 (len - 1), (f.chart.cell? start k).isSome = true ∧
      (f.chart.cell? (start + k) (len - k)).isSome = true := by
    intro k hk
    obtain ⟨hpos, hlt⟩ := List.mem_range'_1.mp hk
    exact ⟨h.isSome_cell? (hparts k hk).1 hpos (by omega),
      h.isSome_cell? (hparts k hk).2 (by omega) (by omega)⟩
  rw [gather?_eq g f hcells, g.entries_chart_cuts words hlen]
  apply congrArg fun found => some (found, _)
  apply List.flatMap_congr
  intro k hk
  rw [h.entries_eq (hparts k hk).1, h.entries_eq (hparts k hk).2]

/-- One visit: where all shorter stretches have been visited, it makes one more cell final. -/
theorem visit (h : Filled g words done f) {start len : Nat} (pos : 0 < len)
    (fits : start + len ≤ words.length) (hnew : (start, len) ∉ done)
    (hshorter : ∀ start' len', 0 < len' → start' + len' ≤ words.length → len' < len →
      (start', len') ∈ done) :
    ∃ f', f.visit? g (start, len) = some f' ∧ Filled g words (done ++ [(start, len)]) f' := by
  rcases Nat.eq_or_lt_of_le (Nat.succ_le_of_lt pos) with rfl | hlen
  -- the entries of a word come from the grammar, and no cell is looked at
  · have hword : words[start]? = some words[start] := List.getElem?_eq_getElem fits
    obtain ⟨f', hadd, hf'⟩ := h.add Nat.one_pos fits hnew
    refine ⟨f', ?_, hf'⟩
    rw [g.entries_chart_word words, hword] at hadd
    simp only [visit?, if_true, h.words_eq, hword]
    exact hadd
  -- both parts of a cut are shorter, so their cells are final when they are looked at
  · have hparts : ∀ k ∈ List.range' 1 (len - 1),
        (start, k) ∈ done ∧ (start + k, len - k) ∈ done := by
      intro k hk
      have hk := List.mem_range'_1.mp hk
      exact ⟨hshorter _ _ (by omega) (by omega) (by omega),
        hshorter _ _ (by omega) (by omega) (by omega)⟩
    obtain ⟨f', hadd, hf'⟩ := (h.look hparts).add pos fits hnew
    refine ⟨f', ?_, hf'⟩
    simp only [visit?, if_neg (Nat.ne_of_gt hlen), h.gather hlen fits hparts]
    exact hadd

/-- All visits that are left: the invariant of one visit carried along the list of stretches. -/
theorem run (h : Filled g words done f) {rest : List (Nat × Nat)}
    (hall : stretches words.length = done ++ rest) :
    ∃ f', rest.foldlM (visit? g) f = some f' ∧ Filled g words (stretches words.length) f' := by
  induction rest generalizing done f with
  | nil =>
    rw [List.append_nil] at hall
    rw [hall]
    exact ⟨f, rfl, h⟩
  | cons stretch rest ih =>
    obtain ⟨start, len⟩ := stretch
    have hmem : (start, len) ∈ stretches words.length := by simp [hall]
    obtain ⟨pos, fits⟩ := mem_stretches.mp hmem
    -- what comes before this stretch in the list has been visited, all shorter ones among it
    obtain ⟨next, hvisit, hnext⟩ := h.visit pos fits (not_mem_done hall)
      fun s l hpos hfits hlt => mem_done_of_shorter hall (mem_stretches.mpr ⟨hpos, hfits⟩) hlt
    obtain ⟨f', hrun, hf'⟩ := ih hnext (by rw [hall, List.append_assoc, List.singleton_append])
    refine ⟨f', ?_, hf'⟩
    rw [List.foldlM_cons, hvisit]
    exact hrun

/-- A table in which all stretches have been visited is the filled chart. -/
theorem chart_eq (h : Filled g words (stretches words.length) f) : f.chart = g.chart words := by
  apply Chart.ext_cell? h.words_eq
  · rw [h.size_rows]
    exact (g.size_rowsUpTo words words.length).symm
  · intro start len
    by_cases hmem : (start, len) ∈ stretches words.length
    · exact h.final start len hmem
    -- a stretch that is never visited is not one of the sentence
    · have hcell := mt mem_stretches.mpr hmem
      rw [h.waiting start len hmem, Chart.cell?_unfilled, if_neg hcell]
      exact (g.cell?_chart_eq_none words (by omega)).symm

end Filled

/-- A sweep never fails, it makes the filled chart, and every cell it looks at is complete. -/
theorem sweep?_eq (g : Grammar) (words : List String) :
    ∃ uses, sweep? g words = some ⟨g.chart words, uses⟩ ∧ CellUse.InOrder uses := by
  obtain ⟨f, hrun, hf⟩ := (Filled.initial g words).run rfl
  refine ⟨f.uses, ?_, hf.inOrder⟩
  rw [← hf.chart_eq]
  exact hrun

end Filling

/-- **The filled chart is the solution of its equations, and filling it in place finds it.**  A
chart has the cells of the stretches that hold a word and nothing else; the cell of a word lists the
symbols that expand to it; the cell of a longer stretch joins, in order, the cells that the same
chart has for the two parts of each cut.  Only the chart's table does all this.  Filling a table of
empty cells in place never asks for a cell that is not there, adds nothing to a cell after looking
at it, and ends with the chart. -/
theorem Grammar.chart_solves_equations (g : Grammar) (words : List String) :
    (∀ start len, ((g.chart words).cell? start len).isSome = true ↔
      1 ≤ len ∧ start + len ≤ words.length) ∧
    (∀ start len cell, (g.chart words).cell? start len = some cell →
      cell = Cell.ofList cell.toList) ∧
    (∀ table, g.CellEquations words table ↔ table = g.entryTable words) ∧
    ∃ uses, Filling.sweep? g words = some ⟨g.chart words, uses⟩ ∧ CellUse.InOrder uses := by
  refine ⟨fun _ _ => g.isSome_cell?_chart words, ?_, ?_, Filling.sweep?_eq g words⟩
  · intro start len cell hcell
    obtain ⟨pos, fits⟩ := (g.isSome_cell?_chart words).mp (Option.isSome_of_eq_some hcell)
    rw [g.cell?_chart words pos fits] at hcell
    rw [← Option.some.inj hcell, Cell.toList_ofList]
  · intro table
    constructor
    · intro h
      exact h.eq (g.cellEquations_entryTable words)
    · intro h
      rw [h]
      exact g.cellEquations_entryTable words

end PhraseGrammar
