import Mathlib.Data.Set.Card
import PhraseGrammar.Proofs.Choices

/-!
# Acyclic grammars always finish

A nonterminal refers to the nonterminals in the right-hand sides of its productions.  The word of a
word rule counts too: a generator expands it like any other symbol.  If no symbol that a start
symbol leads to can lead back to itself, then no run from the start symbol goes on for long,
whatever is drawn.

The bounds come from the graph of references alone.  The *rank* of a symbol is the number of symbols
it leads to, itself included, and it is smaller for every symbol in a right-hand side.  So brackets
nest at most as deep as the rank of the start symbol.  And as a right-hand side has at most two
symbols, the work `2 ^ rank - 1` of a symbol pays for one choice and the work of what it is expanded
to.

## Main statements

- `Grammar.AcyclicFrom.rank_lt`: what a symbol refers to has a smaller rank.
- `pendingWork_add_choice_le`: a step that makes a choice takes from the pending work, so that the
  work pays for the choices of a run.
- `Shallow.advance`: a step keeps the pending work from nesting deeper than the start's rank.
- `run_eq_ok_or_noChoice`: with no limit below the rank, a run fails only for want of a choice.
- `choicesMade_of_accepted`: `2 ^ rank - 1` words that every fair choice accepts are enough.
-/

namespace PhraseGrammar

namespace Grammar

/-! ## References -/

/-- `g.Refers x y`: the nonterminal `y` stands in the right-hand side of a production of `x`. -/
def Refers (g : Grammar) (x y : String) : Prop :=
  g.isNonterminal y = true ∧ ∃ p ∈ g.productionsFor x, y ∈ p.rhs.symbols

/-- The symbols that references lead to from a symbol, itself included. -/
def reachable (g : Grammar) (x : String) : Set String :=
  {y | Relation.ReflTransGen g.Refers x y}

/-- No symbol that can be reached leads back to itself. -/
def AcyclicFrom (g : Grammar) (x : String) : Prop :=
  ∀ y ∈ g.reachable x, ¬ Relation.TransGen g.Refers y y

/-- Without cycles the symbols can be numbered so that references go down; this is the converse. -/
theorem acyclicFrom_of_lt {g : Grammar} (number : String → Nat)
    (down : ∀ y z, g.Refers y z → number z < number y) (x : String) : g.AcyclicFrom x := by
  intro y _ hcycle
  have hlt : ∀ z, Relation.TransGen g.Refers y z → number z < number y := by
    intro z hz
    induction hz with
    | single h => exact down _ _ h
    | tail _ h ih => exact Nat.lt_trans (down _ _ h) ih
  exact Nat.lt_irrefl _ (hlt y hcycle)

/-- The number of symbols that can be reached. -/
noncomputable def rank (g : Grammar) (x : String) : Nat :=
  (g.reachable x).ncard

variable {g : Grammar} {x y z : String}

theorem self_mem_reachable (g : Grammar) (x : String) : x ∈ g.reachable x :=
  .refl

/-- What can be reached is closed under one more reference. -/
theorem mem_reachable_of_refers (hy : y ∈ g.reachable x) (h : g.Refers y z) :
    z ∈ g.reachable x :=
  Relation.ReflTransGen.tail hy h

/-- Besides the symbol itself, only left-hand sides of productions can be reached. -/
theorem finite_reachable (g : Grammar) (x : String) : (g.reachable x).Finite := by
  apply (List.finite_toSet (x :: g.productions.map Production.lhs)).subset
  intro y hy
  rcases Relation.ReflTransGen.cases_tail hy with rfl | ⟨z, -, hnonterminal, -⟩
  · exact List.mem_cons_self
  · obtain ⟨p, hp, hlhs⟩ := g.isNonterminal_iff.mp hnonterminal
    exact List.mem_cons_of_mem _ (List.mem_map.mpr ⟨p, hp, hlhs⟩)

theorem rank_pos (g : Grammar) (x : String) : 0 < g.rank x :=
  (Set.ncard_pos (g.finite_reachable x)).mpr ⟨x, g.self_mem_reachable x⟩

/-- Without cycles, what a symbol refers to reaches less than the symbol. -/
theorem AcyclicFrom.rank_lt (acyclic : g.AcyclicFrom x) (hy : y ∈ g.reachable x)
    (h : g.Refers y z) : g.rank z < g.rank y := by
  apply Set.ncard_lt_ncard _ (g.finite_reachable y)
  refine ⟨fun w hw => Relation.ReflTransGen.head h hw, ?_⟩
  -- the symbol itself is no longer reached
  intro hsubset
  have hback : y ∈ g.reachable z := hsubset (g.self_mem_reachable y)
  exact acyclic y hy (Relation.TransGen.head' h hback)

/-! ## The work of a symbol -/

/-- How many choices a symbol may cost. -/
noncomputable def work (g : Grammar) (symbol : String) : Nat :=
  if g.isNonterminal symbol then 2 ^ g.rank symbol - 1 else 0

theorem work_of_nonterminal (h : g.productionsFor x ≠ []) : g.work x = 2 ^ g.rank x - 1 :=
  if_pos (g.productionsFor_ne_nil_iff.mp h)

theorem work_pos (g : Grammar) (h : g.productionsFor x ≠ []) : 0 < g.work x := by
  rw [work_of_nonterminal h]
  exact Nat.sub_pos_of_lt (Nat.one_lt_two_pow (g.rank_pos x).ne')

/-- Even two symbols of a right-hand side have less work than the symbol that is expanded to it. -/
theorem AcyclicFrom.two_mul_work_lt (acyclic : g.AcyclicFrom x) (hy : y ∈ g.reachable x)
    {p : Production} (hp : p ∈ g.productionsFor y) (hz : z ∈ p.rhs.symbols) :
    2 * g.work z < g.work y := by
  have ne : g.productionsFor y ≠ [] := List.ne_nil_of_mem hp
  have htwo : 2 ≤ 2 ^ g.rank y := Nat.le_self_pow (g.rank_pos y).ne' 2
  rw [work_of_nonterminal ne, work]
  -- a terminal has no work; a nonterminal's rank is smaller, so its power of two is at most half
  split
  · next hnonterminal =>
    have hlt : g.rank z + 1 ≤ g.rank y := acyclic.rank_lt hy ⟨hnonterminal, p, hp, hz⟩
    have hpow : 2 ^ (g.rank z + 1) ≤ 2 ^ g.rank y := Nat.pow_le_pow_right Nat.two_pos hlt
    have hone : 1 ≤ 2 ^ g.rank z := Nat.one_le_two_pow
    rw [Nat.pow_succ] at hpow
    omega
  · omega

/-- A symbol's work pays for one choice and for the work of any of its right-hand sides. -/
theorem AcyclicFrom.work_symbols_lt (acyclic : g.AcyclicFrom x) (hy : y ∈ g.reachable x)
    {p : Production} (hp : p ∈ g.productionsFor y) :
    (p.rhs.symbols.map g.work).sum < g.work y := by
  have hsymbol := fun z (hz : z ∈ p.rhs.symbols) => acyclic.two_mul_work_lt hy hp hz
  -- one or two symbols, each with less than half of the work
  cases hrhs : p.rhs with
  | word w =>
    have hw := hsymbol w (by simp [hrhs, RightSide.symbols])
    simp only [RightSide.symbols, List.map_cons, List.map_nil, List.sum_cons, List.sum_nil]
    omega
  | pair a b =>
    have ha := hsymbol a (by simp [hrhs, RightSide.symbols])
    have hb := hsymbol b (by simp [hrhs, RightSide.symbols])
    simp only [RightSide.symbols, List.map_cons, List.map_nil, List.sum_cons, List.sum_nil]
    omega

end Grammar

namespace Generator

variable {gen : Generator} {draft next : Draft}

/-! ## Work that is pending -/

/-- How many choices the pending work may cost. -/
noncomputable def pendingWork (g : Grammar) (pending : List Task) : Nat :=
  (pending.map fun task =>
    match task with
    | .expand symbol => g.work symbol
    | .space => 0
    | .close => 0).sum

section PendingWork

variable (g : Grammar) (rest : List Task)

@[simp] theorem pendingWork_nil : pendingWork g [] = 0 := rfl

@[simp] theorem pendingWork_expand (symbol : String) :
    pendingWork g (.expand symbol :: rest) = g.work symbol + pendingWork g rest := rfl

@[simp] theorem pendingWork_space : pendingWork g (.space :: rest) = pendingWork g rest := by
  simp [pendingWork]

@[simp] theorem pendingWork_close : pendingWork g (.close :: rest) = pendingWork g rest := by
  simp [pendingWork]

@[simp] theorem pendingWork_append (front : List Task) :
    pendingWork g (front ++ rest) = pendingWork g front + pendingWork g rest := by
  simp [pendingWork]

/-- Of a symbol's tasks only the expansion is work; the space before a terminal is none. -/
theorem pendingWork_symbolTasks (symbol : String) :
    pendingWork g (symbolTasks g symbol) = g.work symbol := by
  unfold symbolTasks
  split <;> simp

theorem pendingWork_rightSideTasks (rhs : RightSide) :
    pendingWork g (rightSideTasks g rhs) = (rhs.symbols.map g.work).sum := by
  unfold rightSideTasks
  induction rhs.symbols with
  | nil => rfl
  | cons symbol symbols ih => simp [pendingWork_symbolTasks, ih]

end PendingWork

/-! ## Work that does not nest deeply -/

/-- Below `depth` brackets, a symbol that is a terminal or can be reached from `start` and whose
rank fits into what the start's rank leaves. -/
def HasRoom (g : Grammar) (start : String) (depth : Nat) (symbol : String) : Prop :=
  g.isNonterminal symbol = true →
    symbol ∈ g.reachable start ∧ depth + g.rank symbol ≤ g.rank start

/-- `Shallow g start pending`: below the brackets that are open when it is done, all pending work
has room. -/
inductive Shallow (g : Grammar) (start : String) : List Task → Prop where
  | nil : Shallow g start []
  | space {rest : List Task} (hrest : Shallow g start rest) : Shallow g start (.space :: rest)
  | close {rest : List Task} (below : rest.count .close < g.rank start)
      (hrest : Shallow g start rest) : Shallow g start (.close :: rest)
  | expand {symbol : String} {rest : List Task} (room : HasRoom g start (rest.count .close) symbol)
      (hrest : Shallow g start rest) : Shallow g start (.expand symbol :: rest)

section Shallow

variable {g : Grammar} {start : String} {rest : List Task}

/-- Work that does not nest deeply has no more brackets to close than the start's rank. -/
theorem Shallow.count_close_le {pending : List Task} (h : Shallow g start pending) :
    pending.count .close ≤ g.rank start := by
  induction h with
  | nil => exact Nat.zero_le _
  | space _ ih => simpa using ih
  | close below _ _ => rw [List.count_cons_self]; exact below
  | expand _ _ ih => simpa using ih

theorem shallow_begin (g : Grammar) (start : String) : Shallow g start [.expand start] :=
  .expand (fun _ => ⟨g.self_mem_reachable start, by simp⟩) .nil

/-- The tasks of a symbol that has room do not nest deeply. -/
theorem Shallow.symbolTasks_append {symbol : String} (hrest : Shallow g start rest)
    (room : HasRoom g start (rest.count .close) symbol) :
    Shallow g start (symbolTasks g symbol ++ rest) := by
  unfold symbolTasks
  split
  · exact .expand room hrest
  · exact .space (.expand room hrest)

theorem Shallow.flatMap_append {symbols : List String} (hrest : Shallow g start rest)
    (room : ∀ symbol ∈ symbols, HasRoom g start (rest.count .close) symbol) :
    Shallow g start (symbols.flatMap (symbolTasks g) ++ rest) := by
  induction symbols with
  | nil => exact hrest
  | cons symbol symbols ih =>
    obtain ⟨hsymbol, hsymbols⟩ := List.forall_mem_cons.mp room
    rw [List.flatMap_cons, List.append_assoc]
    apply (ih hsymbols).symbolTasks_append
    rw [List.count_append, count_close_symbolTasks, Nat.zero_add]
    exact hsymbol

end Shallow

/-! ## One step -/

section Acyclic

variable {start : String} (acyclic : gen.grammar.AcyclicFrom start)
include acyclic

/-- What a nonterminal is expanded to has room within the nonterminal's bracket. -/
theorem hasRoom_of_mem_symbols {symbol other : String} {depth : Nat} {p : Production}
    (room : HasRoom gen.grammar start depth symbol) (hp : p ∈ gen.grammar.productionsFor symbol)
    (hother : other ∈ p.rhs.symbols) : HasRoom gen.grammar start (depth + 1) other := by
  intro hnonterminal
  have ne : gen.grammar.productionsFor symbol ≠ [] := List.ne_nil_of_mem hp
  obtain ⟨hreach, hrank⟩ := room (gen.grammar.productionsFor_ne_nil_iff.mp ne)
  have hrefers : gen.grammar.Refers symbol other := ⟨hnonterminal, p, hp, hother⟩
  have hlt := acyclic.rank_lt hreach hrefers
  exact ⟨gen.grammar.mem_reachable_of_refers hreach hrefers, by omega⟩

/-- A step keeps the pending work from nesting deeply. -/
theorem Shallow.advance (h : gen.Advances draft next)
    (shallow : Shallow gen.grammar start draft.pending) :
    Shallow gen.grammar start next.pending := by
  cases h with
  | space => cases shallow with | space hrest => exact hrest
  | close => cases shallow with | close below hrest => exact hrest
  | terminal h => cases shallow with | expand room hrest => exact hrest
  -- only here a bracket is opened, and the closing of it is pending below the new symbols
  | @nonterminal symbol rest _ _ _ _ p ne hlimit hchoose =>
    cases shallow with
    | expand room hrest =>
      have hp := mem_of_choose hchoose
      obtain ⟨-, hrank⟩ := room (gen.grammar.productionsFor_ne_nil_iff.mp ne)
      have hpos := gen.grammar.rank_pos symbol
      have hclose : Shallow gen.grammar start (.close :: rest) := .close (by omega) hrest
      apply hclose.flatMap_append
      intro other hother
      rw [List.count_cons_self]
      exact hasRoom_of_mem_symbols acyclic room hp hother

/-- A choice is paid for by the work of the symbol that is expanded. -/
theorem pendingWork_lt_of_mem {symbol : String} {rest : List Task} {p : Production}
    (shallow : Shallow gen.grammar start (.expand symbol :: rest))
    (hp : p ∈ gen.grammar.productionsFor symbol) :
    pendingWork gen.grammar (rightSideTasks gen.grammar p.rhs ++ .close :: rest) <
      pendingWork gen.grammar (.expand symbol :: rest) := by
  cases shallow with
  | expand room _ =>
    have ne : gen.grammar.productionsFor symbol ≠ [] := List.ne_nil_of_mem hp
    obtain ⟨hreach, -⟩ := room (gen.grammar.productionsFor_ne_nil_iff.mp ne)
    have hwork := acyclic.work_symbols_lt hreach hp
    rw [pendingWork_append, pendingWork_rightSideTasks, pendingWork_close, pendingWork_expand]
    omega

/-- Each choice takes from the pending work. -/
theorem pendingWork_add_choice_le (h : gen.Advances draft next)
    (shallow : Shallow gen.grammar start draft.pending) :
    pendingWork gen.grammar next.pending + (if (gen.choice? draft).isSome then 1 else 0) ≤
      pendingWork gen.grammar draft.pending := by
  cases h with
  | space => simp [choice?]
  | close => simp [choice?]
  | terminal h => simp [choice?, h]
  | nonterminal ne hlimit hchoose =>
    rw [choice?_expand ne hlimit]
    exact pendingWork_lt_of_mem acyclic shallow (mem_of_choose hchoose)

/-- The pending work pays for the choices of a run. -/
theorem paysFor_pendingWork :
    gen.PaysFor (pendingWork gen.grammar) (fun d => Shallow gen.grammar start d.pending) := by
  refine ⟨Shallow.advance acyclic, pendingWork_add_choice_le acyclic, ?_⟩
  intro draft _ hchoice
  obtain ⟨drawn, hdrawn⟩ := Option.isSome_iff_exists.mp hchoice
  obtain ⟨symbol, rest, ne, hpending, -, -⟩ := choose_of_choice? hdrawn
  rw [hpending, pendingWork_expand]
  exact Nat.add_pos_left (gen.grammar.work_pos ne) _

/-! ## Whole runs -/

/-- Choices of a run are paid for by the work that is pending at its beginning. -/
theorem choiceCount_le (shallow : Shallow gen.grammar start draft.pending) :
    gen.choiceCount draft ≤ pendingWork gen.grammar draft.pending :=
  (paysFor_pendingWork acyclic).choiceCount_le shallow

/-- The drafts of a run are bounded by what is pending at its beginning, and by its work. -/
theorem length_drafts_le (shallow : Shallow gen.grammar start draft.pending) :
    (gen.drafts draft).length ≤
      draft.pending.length + 5 * pendingWork gen.grammar draft.pending + 1 :=
  (paysFor_pendingWork acyclic).length_drafts_le shallow

/-- At no moment of a run is any pending work nested deeply. -/
theorem shallow_of_reaches {supply : Random.Supply}
    (h : gen.Reaches (Draft.begin start supply) draft) :
    Shallow gen.grammar start draft.pending := by
  apply h.preserves (motive := fun d => Shallow gen.grammar start d.pending)
  · exact fun hadvances shallow => Shallow.advance acyclic hadvances shallow
  · exact shallow_begin gen.grammar start

/-- A nonterminal's bracket is opened at most as deep as the start's rank. -/
theorem depth_lt_rank {supply : Random.Supply} {symbol : String} {rest : List Task}
    (h : gen.Reaches (Draft.begin start supply) draft)
    (hpending : draft.pending = .expand symbol :: rest)
    (ne : gen.grammar.productionsFor symbol ≠ []) : draft.depth < gen.grammar.rank start := by
  have shallow := shallow_of_reaches acyclic h
  have hdepth := depth_eq_count_close h
  rw [hpending] at shallow hdepth
  have hcount : (Task.expand symbol :: rest).count .close = rest.count .close := by simp
  cases shallow with
  | expand room _ =>
    obtain ⟨-, hrank⟩ := room (gen.grammar.productionsFor_ne_nil_iff.mp ne)
    have hpos := gen.grammar.rank_pos symbol
    omega

/-- With no limit below the start's rank, a run fails only if a choice is not made. -/
theorem run_eq_ok_or_noChoice (supply : Random.Supply)
    (hlimits : ∀ limit, gen.maxDepth = some limit → gen.grammar.rank start ≤ limit) :
    (∃ written, (gen.run (Draft.begin start supply)).1 = .ok written) ∨
      ∃ fault, (gen.run (Draft.begin start supply)).1 = .error (.noChoice fault) ∧
        ¬gen.ChoicesMade (Draft.begin start supply) := by
  obtain ⟨last, hlast, hends⟩ := gen.exists_ends_of_run (Draft.begin start supply)
  generalize (gen.run (Draft.begin start supply)).1 = result at hends
  cases hends with
  | done => exact .inl ⟨_, rfl⟩
  | exceeded ne hlimit =>
    -- the bracket would be no deeper than the rank, which no limit is below
    have hdepth := depth_lt_rank acyclic (mem_drafts_iff.mp hlast) rfl ne
    rw [exceededLimit?_eq_none fun limit h => Nat.le_trans hdepth (hlimits limit h)] at hlimit
    cases hlimit
  | noChoice ne hlimit hchoose =>
    refine .inr ⟨_, rfl, ?_⟩
    intro made
    obtain ⟨p, hp⟩ := made _ hlast _ _ ((choice?_expand ne hlimit).trans (by rw [hchoose]))
    cases hp

end Acyclic

/-! ## How many words are enough -/

/-- There is a word for each unit of pending work, and no choice passes any of them over. -/
structure Supplied (g : Grammar) (start : String) (draft : Draft) : Prop where
  shallow : Shallow g start draft.pending
  enough : pendingWork g draft.pending ≤ draft.supply.length
  accepted : ∀ v ∈ draft.supply, ∀ k, Random.accepts k v = true

section Supplied

variable {start : String} (fair : gen.sampling = .uniform)
include fair

/-- With words to draw, a fair choice is made from the first of them. -/
theorem Supplied.exists_choose {symbol : String} {rest : List Task}
    (supplied : Supplied gen.grammar start draft)
    (hpending : draft.pending = .expand symbol :: rest)
    (ne : gen.grammar.productionsFor symbol ≠ []) :
    ∃ v left p, draft.supply = v :: left ∧
      gen.choose (gen.grammar.productionsFor symbol) ne draft.supply = (.ok p, left) := by
  have henough := supplied.enough
  have hpos := gen.grammar.work_pos ne
  rw [hpending, pendingWork_expand] at henough
  cases hsupply : draft.supply with
  | nil =>
    rw [hsupply, List.length_nil] at henough
    omega
  | cons v left =>
    have hmem : v ∈ draft.supply := hsupply ▸ List.mem_cons_self
    have haccepts := supplied.accepted v hmem (gen.grammar.productionsFor symbol).length
    exact ⟨v, left, _, rfl, choose_of_accepts fair ne haccepts left⟩

/-- A step uses up no more words than the work that it takes away. -/
theorem Supplied.advance (acyclic : gen.grammar.AcyclicFrom start) (h : gen.Advances draft next)
    (supplied : Supplied gen.grammar start draft) : Supplied gen.grammar start next := by
  have hshallow := Shallow.advance acyclic h supplied.shallow
  have hwork := pendingWork_add_choice_le acyclic h supplied.shallow
  have henough := supplied.enough
  cases h with
  | space => exact ⟨hshallow, by simpa using henough, supplied.accepted⟩
  | close => exact ⟨hshallow, by simpa using henough, supplied.accepted⟩
  | terminal h => exact ⟨hshallow, by simp at henough ⊢; omega, supplied.accepted⟩
  -- one word is drawn, and the work falls by at least one
  | nonterminal ne hlimit hchoose =>
    obtain ⟨v, left, p, rfl, hmade⟩ := supplied.exists_choose fair rfl ne
    rw [hmade] at hchoose
    cases hchoose
    rw [choice?_expand ne hlimit] at hwork
    refine ⟨hshallow, ?_, fun w hw => supplied.accepted w (List.mem_cons_of_mem v hw)⟩
    simp only [Option.isSome_some, if_true, List.length_cons] at hwork henough ⊢
    omega

/-- As many words as a nonterminal has work are enough for every choice to be made. -/
theorem choicesMade_of_accepted (acyclic : gen.grammar.AcyclicFrom start)
    {supply : Random.Supply} (accepted : ∀ v ∈ supply, ∀ k, Random.accepts k v = true)
    (enough : gen.grammar.work start ≤ supply.length) :
    gen.ChoicesMade (Draft.begin start supply) := by
  intro d hd drawn left hchoice
  have hbegin : Supplied gen.grammar start (Draft.begin start supply) :=
    ⟨shallow_begin gen.grammar start, enough, accepted⟩
  have supplied : Supplied gen.grammar start d :=
    (mem_drafts_iff.mp hd).preserves
      (fun hadvances supplied => Supplied.advance fair acyclic hadvances supplied) hbegin
  -- any draft of the run is supplied, so the choice that it makes is the one found there
  obtain ⟨symbol, rest, ne, hpending, -, hdrawn⟩ := choose_of_choice? hchoice
  obtain ⟨v, left', p, -, hmade⟩ := supplied.exists_choose fair hpending ne
  rw [hmade] at hdrawn
  cases hdrawn
  exact ⟨p, rfl⟩

end Supplied

/-! ## Acyclic grammars -/

/-- **Acyclic grammars always finish.**  If none of the symbols that references lead to from a
nonterminal leads back to itself, a run from the nonterminal makes at most `2 ^ rank - 1` choices,
whatever the supply and the way to choose, and goes through at most `5 * 2 ^ rank` drafts; brackets
nest at most `rank` deep, so no limit from there on is exceeded; and if every choice is made, the
run gives a sentence. -/
theorem sample_of_acyclic (gen : Generator) {start : String}
    (hstart : gen.grammar.isNonterminal start = true) (acyclic : gen.grammar.AcyclicFrom start)
    (supply : Random.Supply) :
    (gen.grammar.reachable start).Finite ∧
      gen.choiceCount (Draft.begin start supply) ≤ 2 ^ gen.grammar.rank start - 1 ∧
      (gen.drafts (Draft.begin start supply)).length ≤ 5 * 2 ^ gen.grammar.rank start ∧
      (∀ draft ∈ gen.drafts (Draft.begin start supply),
        draft.depth ≤ gen.grammar.rank start) ∧
      ((∀ limit, gen.maxDepth = some limit → gen.grammar.rank start ≤ limit) →
        (∀ limit symbol, (gen.sample start supply).1 ≠ .error (.depthExceeded limit symbol)) ∧
          (gen.ChoicesMade (Draft.begin start supply) →
            ∃ sentence, (gen.sample start supply).1 = .ok sentence)) := by
  have ne : gen.grammar.productionsFor start ≠ [] :=
    gen.grammar.productionsFor_ne_nil_iff.mpr hstart
  have shallow := shallow_begin gen.grammar start
  have hwork : pendingWork gen.grammar [.expand start] = 2 ^ gen.grammar.rank start - 1 :=
    Grammar.work_of_nonterminal ne
  have hsample : (gen.sample start supply).1 =
      (gen.run (Draft.begin start supply)).1.map dropBlanks := by
    rw [sample, if_pos hstart]
  -- finiteness, choices, drafts, depth, and what the run gives where no limit is in the way
  refine ⟨gen.grammar.finite_reachable start, ?_, ?_, ?_, ?_⟩
  · rw [← hwork]
    exact choiceCount_le acyclic shallow
  · have hone : 1 ≤ 2 ^ gen.grammar.rank start := Nat.one_le_two_pow
    have hlength : (gen.drafts (Draft.begin start supply)).length ≤
        1 + 5 * (2 ^ gen.grammar.rank start - 1) + 1 := by
      rw [← hwork]
      exact length_drafts_le acyclic shallow
    omega
  · intro draft hdraft
    have hreaches := mem_drafts_iff.mp hdraft
    rw [depth_eq_count_close hreaches]
    exact (shallow_of_reaches acyclic hreaches).count_close_le
  · intro hlimits
    rw [hsample]
    rcases run_eq_ok_or_noChoice acyclic supply hlimits with ⟨written, hrun⟩ | ⟨fault, hrun, hnot⟩
    · rw [hrun]
      exact ⟨by simp [Except.map], fun _ => ⟨_, rfl⟩⟩
    · rw [hrun]
      exact ⟨by simp [Except.map], fun made => absurd made hnot⟩

end Generator

/-- Sentences of two phrases.  The word of a phrase is a nonterminal itself. -/
def twoPhrases : Grammar :=
  .ofProductions
    [⟨"S", .pair "P" "P", .ofMagnitude .one⟩, ⟨"P", .word "N", .ofMagnitude .one⟩,
      ⟨"N", .word "x", .ofMagnitude .one⟩]
    (List.cons_ne_nil _ _)

/-- The references of the two-phrase grammar: from the sentence to the phrase, and from there to its
word. -/
theorem refers_twoPhrases {x y : String} :
    twoPhrases.Refers x y ↔ x = "S" ∧ y = "P" ∨ x = "P" ∧ y = "N" := by
  have hproductions : twoPhrases.productions =
      [⟨"S", .pair "P" "P", .ofMagnitude .one⟩, ⟨"P", .word "N", .ofMagnitude .one⟩,
        ⟨"N", .word "x", .ofMagnitude .one⟩] := rfl
  simp only [Grammar.Refers, Grammar.isNonterminal_iff, Grammar.mem_productionsFor, hproductions]
  constructor
  · rintro ⟨⟨q, hq, rfl⟩, p, ⟨hp, rfl⟩, hmem⟩
    simp only [List.mem_cons, List.not_mem_nil, or_false] at hp hq
    -- three productions to refer by, and three that make the target a nonterminal
    rcases hp with rfl | rfl | rfl <;> rcases hq with rfl | rfl | rfl <;>
      simp [RightSide.symbols] at hmem ⊢
  · rintro (⟨rfl, rfl⟩ | ⟨rfl, rfl⟩)
    · exact ⟨⟨_, .tail _ (.head _), rfl⟩, _, ⟨.head _, rfl⟩, List.mem_cons_self⟩
    · exact ⟨⟨_, .tail _ (.tail _ (.head _)), rfl⟩, _, ⟨.tail _ (.head _), rfl⟩,
        List.mem_cons_self⟩

/-- Numbered by their height above the word, its symbols refer downwards only. -/
theorem acyclicFrom_twoPhrases : twoPhrases.AcyclicFrom "S" := by
  apply Grammar.acyclicFrom_of_lt fun x => if x = "S" then 2 else if x = "P" then 1 else 0
  intro y z h
  rcases refers_twoPhrases.mp h with ⟨rfl, rfl⟩ | ⟨rfl, rfl⟩ <;> decide

/-- Sentence, phrase and word are all that the sentence leads to. -/
theorem reachable_twoPhrases : twoPhrases.reachable "S" = {"S", "P", "N"} := by
  have hphrase : "P" ∈ twoPhrases.reachable "S" :=
    .single (refers_twoPhrases.mpr (.inl ⟨rfl, rfl⟩))
  have hword : "N" ∈ twoPhrases.reachable "S" :=
    twoPhrases.mem_reachable_of_refers hphrase (refers_twoPhrases.mpr (.inr ⟨rfl, rfl⟩))
  apply Set.Subset.antisymm
  · intro y hy
    rcases Relation.ReflTransGen.cases_tail hy with rfl | ⟨z, -, h⟩
    · simp
    · rcases refers_twoPhrases.mp h with ⟨-, rfl⟩ | ⟨-, rfl⟩ <;> simp
  · rintro y (rfl | rfl | rfl)
    · exact twoPhrases.self_mem_reachable "S"
    · exact hphrase
    · exact hword

/-- Draws from `twoPhrases` by fair choices, with at most three open brackets. -/
def twoPhrasesGenerator : Generator := ⟨twoPhrases, .uniform, some 3⟩

/-- The rank of the start symbol is the number of its three symbols. -/
theorem rank_twoPhrases : twoPhrases.rank "S" = 3 := by
  rw [Grammar.rank, reachable_twoPhrases, Set.ncard_eq_toFinset_card']
  rfl

/-- A grammar of rank three under a limit of three brackets: seven words, which every fair choice
accepts, are enough for a sentence, and no more choices are made. -/
theorem sample_of_acyclic_twoPhrases :
    twoPhrasesGenerator.grammar.isNonterminal "S" = true ∧
      twoPhrasesGenerator.grammar.AcyclicFrom "S" ∧
      twoPhrasesGenerator.ChoicesMade (.begin "S" (List.replicate 7 0)) ∧
      twoPhrasesGenerator.choiceCount (.begin "S" (List.replicate 7 0)) ≤ 2 ^ 3 - 1 ∧
      ∃ sentence, (twoPhrasesGenerator.sample "S" (List.replicate 7 0)).1 = .ok sentence := by
  have hstart : twoPhrasesGenerator.grammar.isNonterminal "S" = true :=
    twoPhrases.isNonterminal_iff.mpr ⟨_, List.mem_cons_self, rfl⟩
  have hrank : twoPhrasesGenerator.grammar.rank "S" = 3 := rank_twoPhrases
  have hwork : twoPhrasesGenerator.grammar.work "S" = 7 := by
    rw [Grammar.work, if_pos hstart, hrank]
    rfl
  have acyclic : twoPhrasesGenerator.grammar.AcyclicFrom "S" := acyclicFrom_twoPhrases
  obtain ⟨-, hcount, -, -, hresult⟩ :=
    twoPhrasesGenerator.sample_of_acyclic hstart acyclic (List.replicate 7 0)
  have hlimits : ∀ limit, twoPhrasesGenerator.maxDepth = some limit →
      twoPhrasesGenerator.grammar.rank "S" ≤ limit := by
    rintro limit ⟨⟩
    exact Nat.le_of_eq hrank
  -- the word zero is accepted whatever the number of alternatives is
  have haccepted : ∀ v ∈ List.replicate 7 (0 : UInt64), ∀ k, Random.accepts k v = true := by
    intro v hv k
    rw [List.eq_of_mem_replicate hv]
    simp [Random.accepts]
  have hmade := Generator.choicesMade_of_accepted rfl acyclic haccepted (Nat.le_of_eq hwork)
  rw [hrank] at hcount
  exact ⟨hstart, acyclic, hmade, hcount, (hresult hlimits).2 hmade⟩

end PhraseGrammar
