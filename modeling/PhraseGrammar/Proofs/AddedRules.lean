import Mathlib.Data.List.Sort
import PhraseGrammar.Proofs.CanonicalOrder

/-!
# Rules added to a grammar

Productions that are added after those of a grammar leave all it finds in place.  Every lookup of
the smaller grammar is the front of the same lookup of the larger one, and the trees of every cell
are found again, in their order, among the trees of the same cell.

The cells themselves do not compare: an entry that the new rules add in the middle of one cell
renumbers what comes after it, and so changes the positions that other cells refer to.  The
canonical order makes up for that.  It says where a tree stands without counting positions, and the
order of the smaller grammar is part of that of the larger one.

## Main statements

- `Extends.headsOf_prefix`, `Extends.productionsFor_prefix`: what lookups find stays in front.
- `Precedes.mono`: trees in order stay in order.
- `treesOf_sublist`: the trees of a cell are a sublist of those of the larger grammar's cell.
-/

namespace PhraseGrammar

/-! ## Lookups -/

/-- A list that goes on adds to its first-seen order at the end. -/
theorem eraseDups_prefix {xs ys : List String} (h : xs <+: ys) :
    xs.eraseDups <+: ys.eraseDups := by
  obtain ⟨more, rfl⟩ := h
  rw [List.eraseDups_append]
  exact List.prefix_append _ _

namespace Grammar

/-- `Extends g g'`: the productions of `g'` are those of `g`, then possibly others. -/
def Extends (g g' : Grammar) : Prop :=
  g.productions <+: g'.productions

namespace Extends

variable {g g' : Grammar}

/-- The alternatives of a symbol go on with those that were added. -/
theorem productionsFor_prefix (h : g.Extends g') (symbol : String) :
    g.productionsFor symbol <+: g'.productionsFor symbol := by
  rw [productionsFor_eq_filter, productionsFor_eq_filter]
  exact h.filter _

/-- The heads of a right-hand side stay where they were first seen, and new ones come after them. -/
theorem headsOf_prefix (h : g.Extends g') (rhs : RightSide) :
    g.headsOf rhs <+: g'.headsOf rhs := by
  rw [headsOf_eq_eraseDups, headsOf_eq_eraseDups]
  apply eraseDups_prefix
  exact (h.filter _).map _

theorem hasRule (h : g.Extends g') (symbol : String) (rhs : RightSide)
    (rule : HasRule g.productions symbol rhs) : HasRule g'.productions symbol rhs := by
  obtain ⟨p, hp, hlhs, hrhs⟩ := rule
  exact ⟨p, h.subset hp, hlhs, hrhs⟩

end Extends

variable {g g' : Grammar}

/-! ## The canonical order -/

/-- What is found first is in the shorter list, so its place is the same in the longer one. -/
private theorem idxOf_lt_idxOf {xs ys : List String} (h : xs <+: ys) {x y : String}
    (hlt : xs.idxOf x < xs.idxOf y) : ys.idxOf x < ys.idxOf y := by
  obtain ⟨more, rfl⟩ := h
  have hx : x ∈ xs := List.idxOf_lt_length_iff.mp (Nat.lt_of_lt_of_le hlt List.idxOf_le_length)
  rw [List.idxOf_append_of_mem hx]
  -- the other one is in the shorter list as well, or it comes after it
  by_cases hy : y ∈ xs
  · rwa [List.idxOf_append_of_mem hy]
  · rw [List.idxOf_append_of_notMem hy]
    exact Nat.lt_add_right _ (List.idxOf_lt_length_iff.mpr hx)

/-- Trees in the order of a grammar are in the order of one that extends it. -/
theorem Precedes.mono (h : g.Extends g') {t u : Tree} (htu : g.Precedes t u) :
    g'.Precedes t u := by
  -- cuts and parts compare as before, and only the places of symbols are looked up in a grammar
  induction htu with
  | @word x y w _ _ hlt => exact .word (idxOf_lt_idxOf (h.headsOf_prefix (.word w)) hlt)
  | cut hlt => exact .cut hlt
  | first _ ih => exact .first ih
  | second _ ih => exact .second ih
  | @root x y _ l r hlt =>
    exact .root (idxOf_lt_idxOf (h.headsOf_prefix (.pair l.value r.value)) hlt)

/-! ## The trees of a cell -/

/-- The trees of a cell are found again, in their order, when rules are added. -/
theorem treesOf_sublist (h : g.Extends g') (words : List String) (start len : Nat) :
    ((g.chart words).treesOf start len).Sublist ((g'.chart words).treesOf start len) := by
  have hsubset : (g.chart words).treesOf start len ⊆ (g'.chart words).treesOf start len := by
    intro t ht
    obtain ⟨symbol, hderives⟩ := (g.mem_treesOf words).mp ht
    exact (g'.mem_treesOf words).mpr ⟨symbol, hderives.mono h.hasRule⟩
  -- both lists are increasing in the order of the larger grammar, which has no cycles
  have hold : ((g.chart words).treesOf start len).Pairwise g'.Precedes :=
    (pairwise_treesOf g words start len).imp (Precedes.mono h)
  have hnew : ((g'.chart words).treesOf start len).Pairwise g'.Precedes :=
    pairwise_treesOf g' words start len
  have : Std.Antisymm g'.Precedes := ⟨fun _ _ htu hut => (htu.asymm hut).elim⟩
  have hsubperm := (nodup_treesOf g words start len).subperm hsubset
  exact List.sublist_of_subperm_of_pairwise hsubperm hold hnew

/-- **Added rules only add derivations.**  When productions are added at the end of a list that is
not empty, the trees of every cell of every chart form a sublist of the trees of the same cell of
the new chart, no address of an entry being without a tree in either; and all that the three lookups
found before is the front of what they find then. -/
theorem trees_sublist_of_append (ps : List Production) (ne : ps ≠ []) (qs : List Production) :
    let old := ofProductions ps ne
    let new := ofProductions (ps ++ qs) (List.append_ne_nil_of_left_ne_nil ne qs)
    (∀ words start len,
      ((old.chart words).refs start len).map (old.chart words).treeAt? =
          ((old.chart words).treesOf start len).map some ∧
        ((new.chart words).refs start len).map (new.chart words).treeAt? =
          ((new.chart words).treesOf start len).map some ∧
        ((old.chart words).treesOf start len).Sublist ((new.chart words).treesOf start len)) ∧
      (∀ symbol, old.productionsFor symbol <+: new.productionsFor symbol) ∧
      (∀ first second, old.lhsForPair first second <+: new.lhsForPair first second) ∧
      ∀ word, old.preterminalsFor word <+: new.preterminalsFor word := by
  intro old new
  have hextends : old.Extends new := List.prefix_append ps qs
  refine ⟨fun words start len => ⟨?_, ?_, ?_⟩, ?_, ?_, ?_⟩
  · exact old.map_treeAt?_refs words start len
  · exact new.map_treeAt?_refs words start len
  · exact treesOf_sublist hextends words start len
  · exact hextends.productionsFor_prefix
  · exact fun first second => hextends.headsOf_prefix (.pair first second)
  · exact fun word => hextends.headsOf_prefix (.word word)

/-- A second way to head a pair, and a rule that uses it: the cell of three words gains trees
between the old ones, and the tree over the first two words is kept. -/
theorem trees_sublist_of_append_pair :
    ∃ old new : Grammar,
      old.productions =
        [⟨"S", .pair "S" "S", .ofMagnitude .one⟩, ⟨"S", .word "x", .ofMagnitude .one⟩] ∧
      new.productions = old.productions ++
        [⟨"T", .pair "S" "S", .ofMagnitude .one⟩, ⟨"S", .pair "T" "S", .ofMagnitude .one⟩] ∧
      ((old.chart ["x", "x", "x"]).treesOf 0 3).Sublist
        ((new.chart ["x", "x", "x"]).treesOf 0 3) ∧
      old.lhsForPair "S" "S" <+: new.lhsForPair "S" "S" ∧
      ∃ t ∈ (old.chart ["x", "x", "x"]).treesOf 0 2,
        t.text = "(S (S x) (S x))" ∧ t ∈ (new.chart ["x", "x", "x"]).treesOf 0 2 := by
  have ne : [(⟨"S", .pair "S" "S", .ofMagnitude .one⟩ : Production),
      ⟨"S", .word "x", .ofMagnitude .one⟩] ≠ [] := List.cons_ne_nil _ _
  obtain ⟨htrees, -, hpairs, -⟩ := trees_sublist_of_append _ ne
    [⟨"T", .pair "S" "S", .ofMagnitude .one⟩, ⟨"S", .pair "T" "S", .ofMagnitude .one⟩]
  have hpair : HasRule (ofProductions _ ne).productions "S" (.pair "S" "S") :=
    ⟨_, List.mem_cons_self, rfl, rfl⟩
  have hword : HasRule (ofProductions _ ne).productions "S" (.word "x") :=
    ⟨_, List.mem_cons_of_mem _ List.mem_cons_self, rfl, rfl⟩
  have hderives : Derives (ofProductions _ ne).productions ["x", "x", "x"] "S" 0 2 _ :=
    .pair hpair Nat.one_pos Nat.one_lt_two (.word hword rfl) (.word hword rfl)
  have hmem := ((ofProductions _ ne).mem_treesOf ["x", "x", "x"]).mpr ⟨"S", hderives⟩
  have hkept := (htrees ["x", "x", "x"] 0 2).2.2.subset hmem
  exact ⟨_, _, rfl, rfl, (htrees _ 0 3).2.2, hpairs "S" "S", _, hmem, rfl, hkept⟩

end Grammar

end PhraseGrammar
