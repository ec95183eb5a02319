import PhraseGrammar.Proofs.Batches
import PhraseGrammar.Proofs.EncodedLines
import PhraseGrammar.Proofs.NestingLimits
import PhraseGrammar.Proofs.ParseModes

/-!
# Seeded runs of `generate`

A seed determines an endless sequence of words, of which a run is given a front.  Longer fronts
begin with shorter ones, so once a front is long enough for an outcome, all longer ones give the
same one: a run has at most one outcome, and it depends on the file, the options and the seed alone.

Batches from one sequence begin alike.  So a run that asks for fewer sentences writes the first
lines of one that asks for more, if that one succeeds.  Nothing is written before all sentences are
there, so a run that fails writes no line.

## Main statements

- `Random.words_isPrefix`: longer fronts of a seed's sequence begin with shorter ones.
- `outcome?_generate_iff`: an outcome is one of any front that is long enough.
- `Generated.feed_not_mem`: a generated tree is written on one line.
- `batches_compose`: batches from any supply, and the runs that write them.
-/

namespace PhraseGrammar

open Source (WellFormed)

/-! ## The words of a seed -/

namespace Random

/-- The words of the first blocks of a seed's sequence. -/
def blocksOf (seed : UInt64) (count : Nat) : List UInt64 :=
  (List.range count).flatMap fun number => blockWords (block (keyWords seed 8) number.toUInt64)

theorem length_blocksOf (seed : UInt64) (count : Nat) :
    (blocksOf seed count).length = count * 8 := by
  simp [blocksOf, blockWords, List.length_flatMap]

/-- More blocks begin with those that come first. -/
theorem blocksOf_isPrefix (seed : UInt64) {count count' : Nat} (h : count ≤ count') :
    blocksOf seed count <+: blocksOf seed count' := by
  obtain ⟨more, rfl⟩ := Nat.exists_eq_add_of_le h
  rw [blocksOf, blocksOf, List.range_add, List.flatMap_append]
  exact List.prefix_append _ _

theorem words_eq_take (seed : UInt64) (draws : Nat) :
    words seed draws = (blocksOf seed ((draws + 7) / 8)).take draws := rfl

/-- Longer fronts of a seed's sequence begin with shorter ones. -/
theorem words_isPrefix (seed : UInt64) {draws draws' : Nat} (h : draws ≤ draws') :
    words seed draws <+: words seed draws' := by
  have hblocks : (draws + 7) / 8 ≤ (draws' + 7) / 8 := by omega
  -- the blocks of the shorter front are enough for it
  have henough : draws ≤ (blocksOf seed ((draws + 7) / 8)).length := by
    rw [length_blocksOf]
    omega
  obtain ⟨more, hmore⟩ := blocksOf_isPrefix seed hblocks
  rw [words_eq_take, words_eq_take, ← hmore, ← List.take_append_of_le_length henough]
  exact List.take_prefix_take_left h

end Random

/-! ## One line for each sentence -/

section Lines

variable {g : Grammar} (hproductions : ∀ p ∈ g.productions, WellFormed p)
include hproductions

/-- A generated tree is written on one line, as no symbol of a grammar that was read has a line feed
in it. -/
theorem Generated.feed_not_mem {symbol : String} {position : Nat} {t : Tree}
    (h : Generated g symbol position t) (hsymbol : '\n' ∉ symbol.toList) :
    '\n' ∉ t.text.toList := by
  -- the symbols below a bracket are those of a rule, so only the first one needs an assumption
  induction h with
  | leaf => exact hsymbol
  | @word symbol w _ _ rule _ ih =>
    have hword := feed_not_mem_of_hasRule hproductions rule w (by simp [RightSide.symbols])
    simp [Tree.text_over, Tree.childrenText, hsymbol, ih hword]
  | pair rule _ _ ihleft ihright =>
    have hrule := feed_not_mem_of_hasRule hproductions rule
    simp only [RightSide.symbols, List.forall_mem_cons] at hrule
    simp [Tree.text_over, Tree.childrenText, hsymbol, ihleft hrule.2.1, ihright hrule.2.2.1]

/-- What a run writes is one line. -/
theorem Generator.feed_not_mem_of_sample {gen : Generator} (hgrammar : gen.grammar = g)
    {start sentence : String} {supply left : Random.Supply}
    (h : gen.sample start supply = (.ok sentence, left)) : '\n' ∉ sentence.toList := by
  subst hgrammar
  obtain ⟨ne, t, hexpand, rfl⟩ := Generator.exists_expand_of_sample h
  -- the start symbol is the left-hand side of a rule
  obtain ⟨p, hp, hlhs⟩ :=
    gen.grammar.isNonterminal_iff.mp (gen.grammar.productionsFor_ne_nil_iff.mp ne)
  have hstart := feed_not_mem_of_hasRule hproductions ⟨p, hp, hlhs, rfl⟩ start List.mem_cons_self
  exact (generated_of_expand hexpand).feed_not_mem hproductions hstart

/-- Each sentence of a batch is one line. -/
theorem Generator.Samples.feed_not_mem {gen : Generator} (hgrammar : gen.grammar = g)
    {start : String} {supply left : Random.Supply} {sentences : List String}
    (h : gen.Samples start supply sentences left) : ∀ line ∈ sentences, '\n' ∉ line.toList := by
  induction h with
  | nil => exact fun _ hline => absurd hline List.not_mem_nil
  | cons hsample _ ih =>
    exact List.forall_mem_cons.mpr
      ⟨Generator.feed_not_mem_of_sample hproductions hgrammar hsample, ih⟩

end Lines

namespace CommandLine

variable {world world' : Surroundings} {arguments arguments' : List String}
  {options : GenerateOptions} {g : Grammar} {draws draws' : Nat} {o : Outcome}

/-! ## Runs with more words -/

/-- The seed of a run: the one that is given, or that of its surroundings. -/
def GenerateOptions.seedIn (options : GenerateOptions) (world : Surroundings) : UInt64 :=
  options.seed.getD world.fallbackSeed

/-- The symbol that a run expands. -/
def GenerateOptions.startIn (options : GenerateOptions) (g : Grammar) : String :=
  options.start.getD g.start

/-- What a run leaves behind after a batch; nothing yet if its words have run dry. -/
def batchOutcome? : Except GenerateError (List String) → Option Outcome
  | .ok sentences => some (.success (String.join (sentences.map (· ++ "\n"))))
  | .error (.noChoice .exhausted) => none
  | .error e => some (.failure "" (.notGenerated e))

theorem batchOutcome?_error {e : GenerateError} (he : e ≠ .noChoice .exhausted) :
    batchOutcome? (.error e) = some (.failure "" (.notGenerated e)) := by
  rw [batchOutcome?]
  exact he

/-- Once its grammar is loaded, a run is nothing but its batch. -/
theorem runGenerate?_of_load (hload : load world options.grammar options.strict = .ok g) :
    runGenerate? world options draws =
      batchOutcome? ((generatorFor g options).generate (options.startIn g) options.amount
        (Random.words (options.seedIn world) draws)).1 := by
  rw [runGenerate?, hload]
  rfl

theorem runGenerate?_of_load_error {why : Failure}
    (hload : load world options.grammar options.strict = .error why) :
    runGenerate? world options draws = some (.failure "" why) := by
  rw [runGenerate?, hload]

/-- An outcome that is there after some words is the same with more of them. -/
theorem runGenerate?_mono (h : runGenerate? world options draws = some o)
    (hdraws : draws ≤ draws') : runGenerate? world options draws' = some o := by
  cases hload : load world options.grammar options.strict with
  | error why =>
    rw [runGenerate?_of_load_error hload] at h ⊢
    exact h
  | ok g =>
    rw [runGenerate?_of_load hload] at h ⊢
    have htakes := (generatorFor g options).takesFront_generate (options.startIn g) options.amount
      (Random.words (options.seedIn world) draws)
    rw [htakes.fst_eq (Random.words_isPrefix _ hdraws)]
    · exact h
    -- without words there is no outcome yet
    · intro hdry
      rw [hdry] at h
      cases h

/-- All fronts that are long enough for an outcome give the same one. -/
theorem runGenerate?_unique {o' : Outcome} (h : runGenerate? world options draws = some o)
    (h' : runGenerate? world options draws' = some o') : o = o' := by
  -- the longer one of the two fronts gives both outcomes
  have hmax := runGenerate?_mono h (Nat.le_max_left draws draws')
  rw [runGenerate?_mono h' (Nat.le_max_right draws draws')] at hmax
  exact (Option.some.inj hmax).symm

/-- A run of `generate` has the outcome that any front of up to `2 ^ 64` words gives it. -/
theorem outcome?_generate_iff
    (hcommand : Command.ofArguments? arguments = some (.generate options)) :
    outcome? world arguments = some o ↔
      ∃ draws ≤ 2 ^ 64, runGenerate? world options draws = some o := by
  have hattempt : ∀ draws, attempt? world arguments draws = runGenerate? world options draws := by
    intro draws
    rw [attempt?, hcommand]
  unfold outcome?
  simp only [hattempt]
  constructor
  · intro h
    obtain ⟨doublings, hmem, hrun⟩ := List.exists_of_findSome?_eq_some h
    have hle : doublings + 8 ≤ 64 := by
      have hlt := List.mem_range.mp hmem
      omega
    exact ⟨_, Nat.pow_le_pow_right Nat.two_pos hle, hrun⟩
  · rintro ⟨draws, hle, hrun⟩
    -- the last attempt takes `2 ^ 64` words, so no front is left out
    have hlast : runGenerate? world options (Nat.pow 2 (56 + 8)) = some o :=
      runGenerate?_mono hrun hle
    cases hfound : (List.range 57).findSome? fun doublings =>
        runGenerate? world options (Nat.pow 2 (doublings + 8)) with
    | none =>
      have hnone := List.findSome?_eq_none_iff.mp hfound 56 (by simp)
      rw [hlast] at hnone
      cases hnone
    | some o' =>
      -- an earlier attempt has the same outcome
      obtain ⟨doublings, -, hrun'⟩ := List.exists_of_findSome?_eq_some hfound
      rw [runGenerate?_unique hrun' hrun]

/-! ## Success and failure -/

/-- A grammar that is loaded was read from a text. -/
theorem exists_read_of_load {path : String} {strict : Bool} (h : load world path strict = .ok g) :
    ∃ source, Grammar.read source = .ok g := by
  unfold load at h
  split at h
  · cases h
  · split at h
    · cases h
    · next source _ =>
      split at h
      · cases h
      · next hread =>
        split at h
        · cases h
        · cases h
          exact ⟨source, hread⟩

/-- A run either writes a whole batch or writes nothing and fails. -/
theorem runGenerate?_cases (h : runGenerate? world options draws = some o) :
    (∃ g sentences left, load world options.grammar options.strict = .ok g ∧
      (generatorFor g options).generate (options.startIn g) options.amount
        (Random.words (options.seedIn world) draws) = (.ok sentences, left) ∧
      o = .success (String.join (sentences.map (· ++ "\n")))) ∨
    ∃ why, o = .failure "" why := by
  cases hload : load world options.grammar options.strict with
  | error why =>
    rw [runGenerate?_of_load_error hload, Option.some.injEq] at h
    exact .inr ⟨why, h.symm⟩
  | ok g =>
    rw [runGenerate?_of_load hload] at h
    rcases hbatch : (generatorFor g options).generate (options.startIn g) options.amount
      (Random.words (options.seedIn world) draws) with ⟨e | sentences, left⟩
    -- a batch for which the words ran dry is no outcome yet
    · by_cases he : e = .noChoice .exhausted
      · rw [hbatch, he] at h
        cases h
      · rw [hbatch, batchOutcome?_error he] at h
        exact .inr ⟨.notGenerated e, (Option.some.inj h).symm⟩
    · rw [hbatch] at h
      exact .inl ⟨g, sentences, left, rfl, hbatch, (Option.some.inj h).symm⟩

/-- A batch that fails for a reason of its own, and not for want of words, ends the run. -/
theorem runGenerate?_of_failsAfter (hload : load world options.grammar options.strict = .ok g)
    {e : GenerateError} {left : Random.Supply}
    (h : (generatorFor g options).FailsAfter (options.startIn g) options.amount
      (Random.words (options.seedIn world) draws) e left) (he : e ≠ .noChoice .exhausted) :
    runGenerate? world options draws = some (.failure "" (.notGenerated e)) := by
  rw [runGenerate?_of_load hload, Generator.generate_eq_error_iff.mpr h, batchOutcome?_error he]

/-- A batch of a loaded grammar is written on a line for each sentence. -/
theorem prints_batch (hload : load world options.grammar options.strict = .ok g)
    {count : Nat} {supply left : Random.Supply} {sentences : List String}
    (h : (generatorFor g options).generate (options.startIn g) count supply =
      (.ok sentences, left)) :
    Prints (String.join (sentences.map (· ++ "\n"))) sentences := by
  obtain ⟨source, hread⟩ := exists_read_of_load hload
  have hproductions := Source.wellFormed_of_readProductions (Grammar.read_eq_ok_iff.mp hread)
  obtain ⟨hsamples, -⟩ := Generator.generate_eq_ok_iff.mp h
  exact ⟨rfl, hsamples.feed_not_mem hproductions rfl⟩

/-- Two runs read one file and draw words of one sequence. -/
structure SameSource (options : GenerateOptions) (world world' : Surroundings) : Prop where
  file_eq : world'.file options.grammar = world.file options.grammar
  seed_eq : options.seedIn world' = options.seedIn world

theorem SameSource.load_eq (same : SameSource options world world') :
    load world' options.grammar options.strict = load world options.grammar options.strict := by
  rw [load, load, same.file_eq]

/-- A run that asks for fewer sentences writes the first lines of one that asks for more. -/
theorem runGenerate?_front (hload : load world options.grammar options.strict = .ok g)
    {left : Random.Supply} {sentences : List String}
    (h : (generatorFor g options).generate (options.startIn g) options.amount
      (Random.words (options.seedIn world) draws) = (.ok sentences, left))
    {m : Nat} (hm : m ≤ options.amount) (same : SameSource options world world') :
    ∃ o, runGenerate? world' { options with amount := m } draws = some o ∧ o.exitCode = 0 ∧
      Prints o.stdout (sentences.take m) := by
  -- the batch that is asked for is one of `m` and then one of the rest
  obtain ⟨n, hn⟩ := Nat.exists_eq_add_of_le hm
  rw [hn] at h
  obtain ⟨front, middle, back, hfront, -, rfl⟩ := Generator.generate_add_eq_ok_iff.mp h
  obtain ⟨-, hlength⟩ := Generator.generate_eq_ok_iff.mp hfront
  have hload' : load world' options.grammar options.strict = .ok g := same.load_eq.trans hload
  have hfewer : runGenerate? world' { options with amount := m } draws =
      batchOutcome? ((generatorFor g options).generate (options.startIn g) m
        (Random.words (options.seedIn world') draws)).1 := runGenerate?_of_load hload'
  rw [same.seed_eq, hfront] at hfewer
  refine ⟨_, hfewer, rfl, ?_⟩
  rw [← hlength, List.take_left]
  exact prints_batch hload hfront

/-- How the outcomes of a run of `generate` depend on its batch. -/
structure AllOrNothing (arguments : List String) (options : GenerateOptions)
    (world : Surroundings) : Prop where
  /-- Success means that all sentences are written, and that runs from the same source that ask for
  fewer succeed and write the first of them. -/
  front : ∀ o, outcome? world arguments = some o → o.exitCode = 0 →
    ∃ lines, lines.length = options.amount ∧ Prints o.stdout lines ∧
      ∀ m ≤ options.amount, ∀ arguments' world',
        Command.ofArguments? arguments' = some (.generate { options with amount := m }) →
        SameSource options world world' →
          ∃ o', outcome? world' arguments' = some o' ∧ o'.exitCode = 0 ∧
            Prints o'.stdout (lines.take m)
  /-- If any of the samples fails, and not for want of words, nothing is written. -/
  failed : ∀ g draws e left, load world options.grammar options.strict = .ok g →
    (generatorFor g options).FailsAfter (options.startIn g) options.amount
      (Random.words (options.seedIn world) draws) e left → e ≠ .noChoice .exhausted →
        (∀ o, outcome? world arguments = some o → o.stdout = "" ∧ o.exitCode = 1) ∧
          (draws ≤ 2 ^ 64 → ∃ o, outcome? world arguments = some o)
  /-- Nothing is ever written without success. -/
  unwritten : ∀ o, outcome? world arguments = some o → o.exitCode ≠ 0 →
    o.stdout = "" ∧ o.exitCode = 1

/-- Every command line that asks for sentences has runs of this kind. -/
theorem allOrNothing (hcommand : Command.ofArguments? arguments = some (.generate options))
    (world : Surroundings) : AllOrNothing arguments options world where
  front o h hcode := by
    obtain ⟨draws, hdraws, hrun⟩ := (outcome?_generate_iff hcommand).mp h
    rcases runGenerate?_cases hrun with ⟨g, sentences, left, hload, hbatch, rfl⟩ | ⟨why, rfl⟩
    · obtain ⟨-, hlength⟩ := Generator.generate_eq_ok_iff.mp hbatch
      refine ⟨sentences, hlength, prints_batch hload hbatch, ?_⟩
      intro m hm arguments' world' hcommand' same
      obtain ⟨o', hrun', hcode', hprints⟩ := runGenerate?_front hload hbatch hm same
      exact ⟨o', (outcome?_generate_iff hcommand').mpr ⟨draws, hdraws, hrun'⟩, hcode', hprints⟩
    · cases hcode
  failed g draws e left hload hfails he := by
    have hrun := runGenerate?_of_failsAfter hload hfails he
    constructor
    · intro o h
      obtain ⟨draws', -, hrun'⟩ := (outcome?_generate_iff hcommand).mp h
      rw [runGenerate?_unique hrun' hrun]
      exact ⟨rfl, rfl⟩
    · intro hdraws
      exact ⟨_, (outcome?_generate_iff hcommand).mpr ⟨draws, hdraws, hrun⟩⟩
  unwritten o h hcode := by
    obtain ⟨draws, -, hrun⟩ := (outcome?_generate_iff hcommand).mp h
    rcases runGenerate?_cases hrun with ⟨g, sentences, left, -, -, rfl⟩ | ⟨why, rfl⟩
    · exact absurd rfl hcode
    · exact ⟨rfl, rfl⟩

/-- **Batches compose, and are written whole or not at all.**  For every generator, start symbol and
supply, a batch of `m + n` is written if and only if a batch of `m` is and then one of `n` from what
it leaves; it consists of the two, and so do the words drawn; otherwise it fails as the first sample
that fails, with the words drawn that were drawn up to then.  So when a run of `generate` succeeds,
one with the same source that asks for fewer sentences succeeds with the first of the same lines;
and when any of its samples fails, nothing is written and the exit code is one. -/
theorem batches_compose :
    (∀ (gen : Generator) (start : String) (m n : Nat) (supply : Random.Supply),
      gen.Composes start m n supply) ∧
      ∀ (arguments : List String) (options : GenerateOptions),
        Command.ofArguments? arguments = some (.generate options) →
          ∀ world, AllOrNothing arguments options world :=
  ⟨Generator.composes, fun _ _ hcommand world => allOrNothing hcommand world⟩

/-! ### Three samples, of which the last fails -/

/-- Draws from `doubling` by fair choices, with one open bracket. -/
def flatGenerator : Generator := ⟨doubling, .uniform, some 1⟩

/-- A word of the upper half writes the leaf. -/
theorem sample_flat_word {v : UInt64} (haccepts : Random.accepts 2 v = true)
    (hshare : Random.share 2 Nat.two_pos v = 1) (rest : Random.Supply) :
    flatGenerator.sample "S" (v :: rest) = (.ok "(S x)", rest) := by
  have hleaf : flatGenerator.expand 1 0 "x" rest = _ :=
    Generator.expand_of_terminal productionsFor_doubling_word 1 0 rest
  exact Generator.sample_of_expand productionsFor_doubling_ne_nil (Generator.expand_of_choose rfl
    (choose_doubling haccepts hshare (some 1) rest) (Generator.expandAll_cons_of_ok hleaf rfl))

/-- A word of the lower half asks for a second bracket. -/
theorem sample_flat_pair {v : UInt64} (haccepts : Random.accepts 2 v = true)
    (hshare : Random.share 2 Nat.two_pos v = 0) (rest : Random.Supply) :
    flatGenerator.sample "S" (v :: rest) = (.error (.depthExceeded 1 "S"), rest) := by
  have hsecond : flatGenerator.expand 1 0 "S" rest = _ :=
    Generator.expand_of_exceeded productionsFor_doubling_ne_nil rfl rest
  have hfails : flatGenerator.expand 0 0 "S" (v :: rest) = (.error (.depthExceeded 1 "S"), rest) :=
    Generator.expand_of_choose_of_error rfl (choose_doubling haccepts hshare (some 1) rest)
      (Generator.expandAll_cons_of_error hsecond)
  rw [Generator.sample_of_nonterminal productionsFor_doubling_ne_nil, hfails]
  rfl

/-- Surroundings in which every file holds `doubling`. -/
def flatSurroundings : Surroundings := ⟨fun _ => .ok (bytesOf "1 S S S\n1 S x"), [], 0⟩

/-- Sentences of `flatGenerator`, from a seed whose first words write two of them and fail. -/
def flatOptions (amount : Nat) : GenerateOptions :=
  ⟨"g", none, amount, false, some 1, some 46, false⟩

theorem words_flatOptions :
    Random.words 46 3 = [11638552568926254806, 12146277332560267037, 2329619223465982248] := by
  decide +kernel

/-- From one seed, two samples succeed and the third nests too deeply: runs for one and for two
sentences write them, and a run for three writes nothing and fails. -/
theorem batches_compose_flat :
    Command.ofArguments? ["generate", "g", "-n", "2", "--max-depth", "1", "--seed", "46"] =
        some (.generate (flatOptions 2)) ∧
      outcome? flatSurroundings
          ["generate", "g", "-n", "2", "--max-depth", "1", "--seed", "46"] =
        some (.success "(S x)\n(S x)\n") ∧
      (∃ o, outcome? flatSurroundings ["generate", "g", "--seed=46", "--max-depth=1"] = some o ∧
        o.exitCode = 0 ∧ Prints o.stdout ["(S x)"]) ∧
      (∃ o, outcome? flatSurroundings
          ["generate", "g", "-n", "3", "--max-depth", "1", "--seed", "46"] = some o ∧
        o.stdout = "" ∧ o.exitCode = 1) ∧
      flatGenerator.generate "S" (1 + 1) (Random.words 46 3) =
        (.ok ["(S x)", "(S x)"], [2329619223465982248]) := by
  have hload : ∀ amount, load flatSurroundings (flatOptions amount).grammar
      (flatOptions amount).strict = .ok doubling :=
    fun _ => load_bytesOf rfl Grammar.read_twoLines isClosed_doubling false
  have hone : Command.ofArguments? ["generate", "g", "--seed=46", "--max-depth=1"] =
      some (.generate (flatOptions 1)) := rfl
  have htwo : Command.ofArguments?
      ["generate", "g", "-n", "2", "--max-depth", "1", "--seed", "46"] =
        some (.generate (flatOptions 2)) := rfl
  have hthree : Command.ofArguments?
      ["generate", "g", "-n", "3", "--max-depth", "1", "--seed", "46"] =
        some (.generate (flatOptions 3)) := rfl
  -- the first two words stand for the leaf, and the third one for a pair
  have hfirst : flatGenerator.sample "S" (Random.words 46 3) =
      (.ok "(S x)", [12146277332560267037, 2329619223465982248]) := by
    rw [words_flatOptions]
    exact sample_flat_word rfl rfl _
  have hsecond : flatGenerator.sample "S" [12146277332560267037, 2329619223465982248] =
      (.ok "(S x)", [2329619223465982248]) := sample_flat_word rfl rfl _
  have hthird : flatGenerator.sample "S" [2329619223465982248] =
      (.error (.depthExceeded 1 "S"), []) := sample_flat_pair rfl rfl _
  -- a batch of two is one of one, twice
  have hbatch := ((batches_compose.1 flatGenerator "S" 1 1 (Random.words 46 3)).ok_iff
    ["(S x)", "(S x)"] [2329619223465982248]).mpr ⟨["(S x)"], _, ["(S x)"],
      Generator.generate_eq_ok_iff.mpr ⟨.cons hfirst .nil, rfl⟩,
      Generator.generate_eq_ok_iff.mpr ⟨.cons hsecond .nil, rfl⟩, rfl⟩
  have hrun : runGenerate? flatSurroundings (flatOptions 2) 3 =
      some (.success "(S x)\n(S x)\n") := by
    rw [runGenerate?_of_load (hload 2)]
    exact congrArg (fun batch => batchOutcome? batch.1) hbatch
  have hdraws : 3 ≤ 2 ^ 64 := by decide
  have houtcome := (outcome?_generate_iff htwo).mpr ⟨3, hdraws, hrun⟩
  obtain ⟨lines, -, hlines, hfront⟩ :=
    (batches_compose.2 _ _ htwo flatSurroundings).front _ houtcome rfl
  have hprinted : Prints "(S x)\n(S x)\n" ["(S x)", "(S x)"] := ⟨rfl, by simp⟩
  obtain rfl := hlines.unique hprinted
  have hfewer := hfront 1 (by decide) _ flatSurroundings hone ⟨rfl, rfl⟩
  obtain ⟨hnothing, hends⟩ := (batches_compose.2 _ _ hthree flatSurroundings).failed doubling 3
    (.depthExceeded 1 "S") [] (hload 3)
    ⟨["(S x)", "(S x)"], _, .cons hfirst (.cons hsecond .nil), by decide, hthird⟩ (by simp)
  obtain ⟨o, ho⟩ := hends hdraws
  exact ⟨htwo, houtcome, hfewer, ⟨o, ho, hnothing o ho⟩, hbatch⟩

end CommandLine

end PhraseGrammar
