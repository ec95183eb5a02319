import PhraseGrammar.Proofs.InPlaceFilling
import PhraseGrammar.Proofs.BracketedText
import PhraseGrammar.Proofs.SteeredGeneration

/-!
# Walking from entry to entry

The tree of an entry is read by a walk: from the entry to the two that it refers to, and on from
those until words are reached.  `Walks` is the record of a walk that has come to an end.  It asks
for no measure, so on a chart whose entries refer to each other in a circle it would have nothing to
say.

In a chart as it is made, with all cells empty or filled by a grammar, every walk ends, from
addresses that have no entry too, and there is a tree exactly where there is an entry.  The tree is
a derivation, and the shape of derivations says the rest: how many branches it has, which leaves,
and how each branch stands over its children.

## Main statements

- `Walks.unique`, `IsMade.walks_treeAt?`: every walk ends, and with what `treeAt?` finds.
- `IsMade.isSome_get?_iff`: the addresses that have entries.
- `Derives.covers`: the shape of a derivation.
- `IsMade.walk_ends`: all of these, for every address of every chart that is made.
-/

namespace PhraseGrammar

/-! ## Charts and walks -/

namespace Chart

/-- The charts that are made: with all cells empty, or filled by a grammar. -/
inductive IsMade : Chart → Prop where
  | unfilled (words : List String) : IsMade (Chart.unfilled words)
  | filled (g : Grammar) (words : List String) : IsMade (g.chart words)

/-- `Walks c r result`: the walk that reads the tree at the address `r` comes to an end, with a tree
or, where an entry is missing, with none. -/
inductive Walks (c : Chart) : EntryRef → Option Tree → Prop where
  | missing {r : EntryRef} (h : c.get? r = none) : Walks c r none
  | word {r : EntryRef} {symbol w : String} (h : c.get? r = some ⟨symbol, .word w⟩) :
      Walks c r (some (.branch symbol r.span [.leaf w r.span]))
  | noFirst {r first second : EntryRef} {symbol : String}
      (h : c.get? r = some ⟨symbol, .split first second⟩) (hfirst : Walks c first none) :
      Walks c r none
  | noSecond {r first second : EntryRef} {symbol : String} {left : Tree}
      (h : c.get? r = some ⟨symbol, .split first second⟩) (hfirst : Walks c first (some left))
      (hsecond : Walks c second none) : Walks c r none
  | split {r first second : EntryRef} {symbol : String} {left right : Tree}
      (h : c.get? r = some ⟨symbol, .split first second⟩) (hfirst : Walks c first (some left))
      (hsecond : Walks c second (some right)) :
      Walks c r (some (.branch symbol r.span [left, right]))

variable {c : Chart} {r : EntryRef}

theorem Walks.unique {result result' : Option Tree} (h : c.Walks r result)
    (h' : c.Walks r result') : result = result' := by
  induction h generalizing result' with
  | missing h => cases h' <;> simp_all
  | word h => cases h' <;> simp_all
  -- the two walks go on to the same addresses
  | noFirst h _ ihfirst =>
    cases h' with
    | split h' hfirst' =>
      rw [h] at h'
      cases h'
      exact absurd (ihfirst hfirst') (Option.some_ne_none _).symm
    | _ h' => simp_all
  | noSecond h _ _ ihfirst ihsecond =>
    cases h' with
    | split h' _ hsecond' =>
      rw [h] at h'
      cases h'
      exact absurd (ihsecond hsecond') (Option.some_ne_none _).symm
    | _ h' => simp_all
  | split h _ _ ihfirst ihsecond =>
    cases h' with
    | split h' hfirst' hsecond' =>
      rw [h] at h'
      cases h'
      cases ihfirst hfirst'
      cases ihsecond hsecond'
      rfl
    | noFirst h' hfirst' =>
      rw [h] at h'
      cases h'
      exact absurd (ihfirst hfirst') (Option.some_ne_none _)
    | noSecond h' _ hsecond' =>
      rw [h] at h'
      cases h'
      exact absurd (ihsecond hsecond') (Option.some_ne_none _)
    | _ h' => simp [h] at h'

theorem treeAt?_of_missing (h : c.get? r = none) : c.treeAt? r = none := by
  rw [treeAt?, h]

theorem get?_unfilled (words : List String) (r : EntryRef) : (unfilled words).get? r = none := by
  rw [get?, cell?_unfilled]
  split <;> simp [Cell.empty, Cell.get?]

end Chart

namespace Grammar

variable (g : Grammar) (words : List String)

/-- Every walk in a filled chart ends, since entries refer to shorter stretches only. -/
theorem walks_treeAt? (start len idx : Nat) :
    (g.chart words).Walks ⟨start, len, idx⟩ ((g.chart words).treeAt? ⟨start, len, idx⟩) := by
  induction len using Nat.strongRecOn generalizing start idx with
  | ind len ih =>
    cases hget : (g.chart words).get? ⟨start, len, idx⟩ with
    | none =>
      rw [Chart.treeAt?_of_missing hget]
      exact .missing hget
    | some e =>
      cases g.licenses_of_get? words hget with
      | word =>
        rw [Chart.treeAt?_of_word hget]
        exact .word hget
      | @split k _ i j l r symbol pos shorter hleft hright =>
        have shorter' : len - k < len := Nat.sub_lt (Nat.lt_trans pos shorter) pos
        have hfirst := ih k shorter start i
        have hsecond := ih (len - k) shorter' (start + k) j
        -- both parts have entries, so their walks end with trees
        obtain ⟨left, htleft, -⟩ := g.exists_treeAt?_of_get? words hleft
        obtain ⟨right, htright, -⟩ := g.exists_treeAt?_of_get? words hright
        rw [Chart.treeAt?_of_split hget shorter shorter' htleft htright]
        rw [htleft] at hfirst
        rw [htright] at hsecond
        exact .split hget hfirst hsecond

end Grammar

namespace Chart.IsMade

variable {c : Chart} (made : c.IsMade) (r : EntryRef)
include made

/-- In a chart as it is made, every walk ends, and with what is read out at its address. -/
theorem walks_treeAt? : c.Walks r (c.treeAt? r) := by
  cases made with
  | unfilled words =>
    rw [treeAt?_of_missing (get?_unfilled words r)]
    exact .missing (get?_unfilled words r)
  | filled g words => exact g.walks_treeAt? words r.start r.len r.idx

theorem isSome_treeAt?_iff : (c.treeAt? r).isSome = true ↔ (c.get? r).isSome = true := by
  cases made with
  | unfilled words => simp [treeAt?_of_missing, get?_unfilled]
  | filled g words =>
    cases hget : (g.chart words).get? r with
    | none => simp [treeAt?_of_missing hget]
    | some e =>
      obtain ⟨t, ht, -⟩ := g.exists_treeAt?_of_get? words hget
      simp [ht]

/-- The cells are those of the stretches that hold a word and lie in the sentence. -/
theorem isSome_cell?_iff (start len : Nat) :
    (c.cell? start len).isSome = true ↔ 0 < len ∧ start + len ≤ c.size := by
  cases made with
  | unfilled words =>
    rw [cell?_unfilled]
    show _ ↔ 0 < len ∧ start + len ≤ words.length
    split <;> simp_all
  | filled g words => exact g.isSome_cell?_chart words

/-- An entry has an address in the sentence, and below the size of its cell. -/
theorem isSome_get?_iff :
    (c.get? r).isSome = true ↔
      1 ≤ r.len ∧ r.start + r.len ≤ c.size ∧
        ∃ cell, c.cell? r.start r.len = some cell ∧ r.idx < cell.size := by
  have hcells := made.isSome_cell?_iff r.start r.len
  rw [get?]
  cases hcell : c.cell? r.start r.len with
  | none => simp
  | some cell =>
    rw [hcell, Option.isSome_some, eq_self, true_iff] at hcells
    obtain ⟨pos, fits⟩ := hcells
    have pos : 1 ≤ r.len := pos
    simp [pos, fits, Cell.get?, Cell.size]

end Chart.IsMade

/-! ## The shape of derivations -/

namespace Tree

/-- The branches that stand over a leaf with their own span, or over two branches with spans that
are not empty, of which the second begins where the first ends. -/
inductive Joint : Tree → Prop where
  | word (label w : String) (span : Span) : Joint (.branch label span [.leaf w span])
  | pair {left right : Tree} (label : String) {start middle stop : Nat}
      (hleft : left.isBranch = true) (hright : right.isBranch = true)
      (spanLeft : left.span = ⟨start, middle⟩) (spanRight : right.span = ⟨middle, stop⟩)
      (before : start < middle) (after : middle < stop) :
      Joint (.branch label ⟨start, stop⟩ [left, right])

/-- The leaves of words that stand one behind the other from a position on. -/
def leavesFrom (start : Nat) (words : List String) : List Tree :=
  (words.zipIdx start).map fun (w, p) => .leaf w ⟨p, p + 1⟩

/-- The leaves of a sequel go on behind those of the words in front of it. -/
theorem leavesFrom_append (start : Nat) (front rest : List String) :
    leavesFrom start (front ++ rest) =
      leavesFrom start front ++ leavesFrom (start + front.length) rest := by
  simp only [leavesFrom, List.zipIdx_append, List.map_append]

/-- The shape of a tree over the stretch of an address. -/
structure Covers (words : List String) (r : EntryRef) (t : Tree) : Prop where
  isBranch : t.isBranch = true
  span_eq : t.span = ⟨r.start, r.stop⟩
  branchCount_eq : t.branchCount = 2 * r.len - 1
  leaves_eq : t.nodes.filter isLeaf = leavesFrom r.start ((words.drop r.start).take r.len)
  joint : ∀ node ∈ t.nodes, node.isBranch = true → node.Joint

variable {label w : String} {span : Span} {left right : Tree}

@[simp]
theorem nodes_over_leaf :
    (branch label span [leaf w span]).nodes = [branch label span [leaf w span], leaf w span] := by
  simp [nodes, nodesOfAll]

@[simp]
theorem nodes_over_pair :
    (branch label span [left, right]).nodes =
      branch label span [left, right] :: (left.nodes ++ right.nodes) := by
  simp [nodes, nodesOfAll]

end Tree

namespace Derives

variable {productions : List Production} {words : List String} {symbol : String}
  {start len : Nat} {t : Tree}

theorem isBranch (h : Derives productions words symbol start len t) : t.isBranch = true := by
  cases h <;> rfl

theorem span_eq (h : Derives productions words symbol start len t) :
    t.span = ⟨start, start + len⟩ := by
  cases h <;> rfl

/-- A branch for each word, and one for each place between two words. -/
theorem branchCount_add_one (h : Derives productions words symbol start len t) :
    t.branchCount + 1 = 2 * len := by
  induction h with
  | word => rfl
  | pair _ _ shorter _ _ ihleft ihright =>
    simp only [Tree.branchCount, Tree.branchCountOfAll]
    omega

/-- The leaves of a derivation are the words of its stretch, each over its own position. -/
theorem filter_isLeaf_nodes (h : Derives productions words symbol start len t) :
    t.nodes.filter Tree.isLeaf = Tree.leavesFrom start ((words.drop start).take len) := by
  induction h with
  | @word symbol w start _ hword =>
    rw [List.take_one, List.head?_drop, hword]
    rfl
  | @pair symbol a b start k len left right _ _ shorter hleft _ ihleft ihright =>
    -- the leaves of the second part begin behind the words of the first
    have hlength : ((words.drop start).take k).length = k := by
      rw [← hleft.leaves_eq, hleft.length_leaves]
    rw [take_drop_eq_append words start shorter.le, Tree.leavesFrom_append, hlength, ← ihleft,
      ← ihright]
    simp [Tree.isLeaf]

/-- In a derivation, branches stand over a leaf with their span or over two branches that make it
up. -/
theorem joint_of_mem_nodes (h : Derives productions words symbol start len t) :
    ∀ node ∈ t.nodes, node.isBranch = true → node.Joint := by
  induction h with
  | word => simp [Tree.isBranch, Tree.Joint.word]
  | @pair symbol _ _ start k len left right _ pos shorter hleft hright ihleft ihright =>
    -- the cut lies inside of the stretch, so neither part is empty and the second ends where the
    -- whole does
    have hstop : start + k + (len - k) = start + len := by omega
    have hroot : (Tree.branch symbol ⟨start, start + len⟩ [left, right]).Joint := by
      have hspan := hright.span_eq
      rw [hstop] at hspan
      exact .pair symbol hleft.isBranch hright.isBranch hleft.span_eq hspan (by omega) (by omega)
    intro node hnode hbranch
    rw [Tree.nodes_over_pair, List.mem_cons, List.mem_append] at hnode
    rcases hnode with rfl | hnode | hnode
    · exact hroot
    · exact ihleft node hnode hbranch
    · exact ihright node hnode hbranch

theorem covers (h : Derives productions words symbol start len t) (idx : Nat) :
    t.Covers words ⟨start, len, idx⟩ where
  isBranch := h.isBranch
  span_eq := h.span_eq
  branchCount_eq := Nat.eq_sub_of_add_eq h.branchCount_add_one
  leaves_eq := h.filter_isLeaf_nodes
  joint := h.joint_of_mem_nodes

end Derives

namespace Chart

/-- What is read out of a chart that is made has the shape of a tree over its address. -/
theorem IsMade.covers {c : Chart} (made : c.IsMade) {r : EntryRef} {t : Tree}
    (h : c.treeAt? r = some t) : t.Covers c.words r := by
  cases made with
  | unfilled words => simp [treeAt?_of_missing, get?_unfilled] at h
  | filled g words =>
    obtain ⟨e, -, hderives⟩ := g.derives_of_treeAt? words h
    exact hderives.covers r.idx

/-- **Every walk through a chart ends, with a tree of the right shape.**  In a chart as it is made,
the walk from any address ends with what is read out there, and in no other way.  It finds a tree
exactly where there is an entry: where the stretch holds a word and lies in the sentence, and the
position is one of its cell.  The tree is a branch over the stretch, with one branch less than twice
its words; its leaves are the words, each over its own position; and each branch stands over a leaf
with its own span, or over two branches with spans that are not empty, that meet, and that make up
its own. -/
theorem IsMade.walk_ends {c : Chart} (made : c.IsMade) (r : EntryRef) :
    (∀ result, c.Walks r result ↔ result = c.treeAt? r) ∧
      ((c.treeAt? r).isSome = true ↔ (c.get? r).isSome = true) ∧
      ((c.get? r).isSome = true ↔
        1 ≤ r.len ∧ r.start + r.len ≤ c.size ∧
          ∃ cell, c.cell? r.start r.len = some cell ∧ r.idx < cell.size) ∧
      ∀ t, c.treeAt? r = some t → t.Covers c.words r := by
  refine ⟨?_, made.isSome_treeAt?_iff r, made.isSome_get?_iff r, fun t ht => made.covers ht⟩
  intro result
  -- walks have one result, and one of them ends with the tree
  constructor
  · intro h
    exact h.unique (made.walks_treeAt? r)
  · intro h
    rw [h]
    exact made.walks_treeAt? r

/-- Two words under one branch: the walk from the whole sentence ends with their tree, and the walk
from an address that reaches beyond the second word ends with none. -/
theorem walk_ends_doubled :
    (doubling.chart ["x", "x"]).IsMade ∧
      (doubling.chart ["x", "x"]).Walks ⟨0, 2, 0⟩ (some doubled) ∧
      doubled.Covers ["x", "x"] ⟨0, 2, 0⟩ ∧
      ((doubling.chart ["x", "x"]).get? ⟨1, 2, 0⟩).isSome = false ∧
      (doubling.chart ["x", "x"]).Walks ⟨1, 2, 0⟩ none := by
  have hpreterminal : doubling.preterminalsFor "x" = ["S"] :=
    doubling.headsOf_eq_eraseDups (.word "x")
  have hpair : doubling.lhsForPair "S" "S" = ["S"] :=
    doubling.headsOf_eq_eraseDups (.pair "S" "S")
  have hone : ∀ start, ["x", "x"][start]? = some "x" →
      (doubling.chart ["x", "x"]).entries start 1 = [⟨"S", .word "x"⟩] := by
    intro start hx
    rw [Grammar.entries_chart_word, hx]
    simp [Grammar.wordEntries, hpreterminal]
  have htwo : (doubling.chart ["x", "x"]).entries 0 2 = [⟨"S", .split ⟨0, 1, 0⟩ ⟨1, 1, 0⟩⟩] := by
    rw [Grammar.entries_chart_split _ _ Nat.one_lt_two]
    simp [Grammar.joinings, hone, hpair]
  have hword : ∀ start, ["x", "x"][start]? = some "x" →
      (doubling.chart ["x", "x"]).Walks ⟨start, 1, 0⟩
        (some (.branch "S" ⟨start, start + 1⟩ [.leaf "x" ⟨start, start + 1⟩])) := by
    intro start hx
    apply Walks.word
    rw [get?_eq_getElem?, hone start hx]
    rfl
  have hentry : (doubling.chart ["x", "x"]).get? ⟨0, 2, 0⟩ =
      some ⟨"S", .split ⟨0, 1, 0⟩ ⟨1, 1, 0⟩⟩ := by
    rw [get?_eq_getElem?, htwo]
    rfl
  have hwalk : (doubling.chart ["x", "x"]).Walks ⟨0, 2, 0⟩ (some doubled) :=
    .split hentry (hword 0 rfl) (hword 1 rfl)
  have made : (doubling.chart ["x", "x"]).IsMade := .filled doubling ["x", "x"]
  obtain ⟨hends, -, -, hshape⟩ := made.walk_ends ⟨0, 2, 0⟩
  obtain ⟨houtside, hsome, hget, -⟩ := made.walk_ends ⟨1, 2, 0⟩
  have hnone : ((doubling.chart ["x", "x"]).get? ⟨1, 2, 0⟩).isSome = false := by
    rw [← Bool.not_eq_true, hget]
    -- the second word is the last one
    exact fun h => absurd h.2.1 (by decide)
  have hmissing : (doubling.chart ["x", "x"]).treeAt? ⟨1, 2, 0⟩ = none := by
    rw [← Option.not_isSome_iff_eq_none, hsome, hnone]
    exact Bool.false_ne_true
  exact ⟨made, hwalk, hshape doubled ((hends _).mp hwalk).symm, hnone,
    (houtside none).mpr hmissing.symm⟩

end Chart

end PhraseGrammar
