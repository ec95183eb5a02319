import PhraseGrammar.Proofs.DrawnWords

/-!
# Batches of samples

A generator writes a batch of sentences one after the other, each from what the sentence before it
has left of the supply, and stops at the first failure.  So a batch of `m + n` is a batch of `m` and
then one of `n`, and a batch that fails has drawn the words of the sentences before the failure and
those of the sample that failed.

A run looks at no words but those that it draws.  A result that is there before the supply runs dry
is the same on every longer supply.

## Main statements

- `takesFront_run`, `takesFront_generate`: runs and batches take words off the front of the supply.
- `generate_eq_ok_iff`, `generate_eq_error_iff`: batches as chains of samples.
- `generate_add_eq_ok_iff`: a batch is made of two.
-/

namespace PhraseGrammar.Generator

variable {gen : Generator} {start : String} {supply middle left : Random.Supply}
  {sentences front back : List String} {count : Nat} {e : GenerateError}

/-! ## What a run draws -/

/-- A run takes words off the front of the supply, and looks no further. -/
theorem takesFront_run (gen : Generator) (draft : Draft) :
    Random.TakesFront (.noChoice .exhausted)
      (fun supply => gen.run ⟨draft.pending, draft.depth, draft.written, supply⟩) draft.supply := by
  induction draft using gen.run_induction with
  | ends hends =>
    cases hends with
    | done => exact .unread (fun _ => Ends.done.run_eq) _
    | exceeded ne hlimit => exact .unread (fun _ => (Ends.exceeded ne hlimit).run_eq) _
    | @noChoice symbol _ _ _ supply left fault ne hlimit hchoose =>
      -- the run fails on the words that the choice fails on
      cases gen.takesFront_choose ne supply with
      | ranDry hdry => exact .ranDry (Ends.noChoice ne hlimit hdry).run_eq
      | took htook =>
        rw [htook] at hchoose
        cases hchoose
        exact .took fun rest => (Ends.noChoice ne hlimit (htook rest)).run_eq
  | advances hadvances ih =>
    cases hadvances with
    | space => exact .congr (fun _ => Advances.space.run_eq) ih
    | close => exact .congr (fun _ => Advances.close.run_eq) ih
    | terminal h => exact .congr (fun _ => (Advances.terminal h).run_eq) ih
    -- the run takes what the choice takes, and then what is taken from there on
    | @nonterminal symbol _ _ _ supply left p ne hlimit hchoose =>
      obtain ⟨words, rfl, hwords⟩ := (gen.takesFront_choose ne supply).exists_words_of_ok hchoose
      exact .after (fun rest => (Advances.nonterminal ne hlimit (hwords rest)).run_eq) ih

theorem takesFront_sample (gen : Generator) (start : String) (supply : Random.Supply) :
    Random.TakesFront (.noChoice .exhausted) (gen.sample start) supply := by
  unfold sample
  split
  · exact (gen.takesFront_run (Draft.begin start supply)).map dropBlanks
  · exact .unread (fun _ => rfl) supply

/-- After a sentence, the batch goes on from what it leaves. -/
theorem generate_succ_of_ok {sentence : String}
    (h : gen.sample start supply = (.ok sentence, middle)) (more : Nat) :
    gen.generate start (more + 1) supply =
      ((gen.generate start more middle).1.map (sentence :: ·),
        (gen.generate start more middle).2) := by
  rw [generate, h]

/-- A sample that fails is the end of its batch. -/
theorem generate_succ_of_error (h : gen.sample start supply = (.error e, left)) (more : Nat) :
    gen.generate start (more + 1) supply = (.error e, left) := by
  rw [generate, h]

theorem takesFront_generate (gen : Generator) (start : String) (count : Nat)
    (supply : Random.Supply) :
    Random.TakesFront (.noChoice .exhausted) (gen.generate start count) supply := by
  induction count generalizing supply with
  | zero => exact .unread (fun _ => rfl) supply
  | succ more ih =>
    cases gen.takesFront_sample start supply with
    | ranDry hdry => exact .ranDry (generate_succ_of_error hdry more)
    | @took words left result htook =>
      cases result with
      | error e => exact .took fun rest => generate_succ_of_error (htook rest) more
      | ok sentence =>
        -- the other samples go on from what the first leaves
        exact .after (fun rest => generate_succ_of_ok (htook rest) more)
          ((ih left).map (sentence :: ·))

/-! ## Batches as chains of samples -/

/-- `Samples gen start supply sentences left`: the sentences are written one after the other, each
from what the one before it has left of the supply. -/
inductive Samples (gen : Generator) (start : String) :
    Random.Supply → List String → Random.Supply → Prop where
  | nil {supply : Random.Supply} : Samples gen start supply [] supply
  | cons {supply middle left : Random.Supply} {sentence : String} {sentences : List String}
      (h : gen.sample start supply = (.ok sentence, middle))
      (hrest : Samples gen start middle sentences left) :
      Samples gen start supply (sentence :: sentences) left

/-- A batch that is written is a chain of samples. -/
theorem generate_eq_ok_iff :
    gen.generate start count supply = (.ok sentences, left) ↔
      gen.Samples start supply sentences left ∧ sentences.length = count := by
  -- by the number of sentences in one direction, along the chain of samples in the other
  constructor
  · intro h
    induction count generalizing supply sentences with
    | zero =>
      cases h
      exact ⟨.nil, rfl⟩
    | succ more ih =>
      rcases hsample : gen.sample start supply with ⟨e | sentence, middle⟩
      · rw [generate_succ_of_error hsample] at h
        cases h
      · rw [generate_succ_of_ok hsample, Prod.mk.injEq] at h
        obtain ⟨hothers, hleft⟩ := h
        obtain ⟨others, hrest, rfl⟩ := Except.map_eq_ok.mp hothers
        obtain ⟨hsamples, hlength⟩ := ih (Prod.ext hrest hleft)
        exact ⟨.cons hsample hsamples, congrArg Nat.succ hlength⟩
  · rintro ⟨hsamples, rfl⟩
    induction hsamples with
    | nil => rfl
    | cons hsample _ ih =>
      rw [List.length_cons, generate_succ_of_ok hsample, ih]
      rfl

/-- The first sample that fails comes after fewer sentences than are wanted, and its words are the
last that are drawn. -/
def FailsAfter (gen : Generator) (start : String) (count : Nat) (supply : Random.Supply)
    (e : GenerateError) (left : Random.Supply) : Prop :=
  ∃ before middle, gen.Samples start supply before middle ∧ before.length < count ∧
    gen.sample start middle = (.error e, left)

/-- A batch that fails does so with its first sample that fails. -/
theorem generate_eq_error_iff :
    gen.generate start count supply = (.error e, left) ↔
      gen.FailsAfter start count supply e left := by
  constructor
  · intro h
    induction count generalizing supply with
    | zero => cases h
    | succ more ih =>
      rcases hsample : gen.sample start supply with ⟨e' | sentence, middle⟩
      · rw [generate_succ_of_error hsample] at h
        cases h
        exact ⟨[], supply, .nil, Nat.succ_pos more, hsample⟩
      · rw [generate_succ_of_ok hsample, Prod.mk.injEq] at h
        obtain ⟨hothers, hleft⟩ := h
        have hrest : gen.generate start more middle = (.error e, left) :=
          Prod.ext (Except.map_eq_error.mp hothers) hleft
        obtain ⟨before, last, hsamples, hlt, hfails⟩ := ih hrest
        exact ⟨sentence :: before, last, .cons hsample hsamples, Nat.succ_lt_succ hlt, hfails⟩
  · rintro ⟨before, middle, hsamples, hlt, hfails⟩
    induction hsamples generalizing count with
    | nil =>
      obtain ⟨more, rfl⟩ := Nat.exists_eq_add_one.mpr hlt
      exact generate_succ_of_error hfails more
    | cons hsample _ ih =>
      obtain ⟨more, rfl⟩ := Nat.exists_eq_add_one.mpr (Nat.zero_lt_of_lt hlt)
      rw [generate_succ_of_ok hsample, ih (Nat.lt_of_succ_lt_succ hlt) hfails]
      rfl

theorem Samples.append (hfront : gen.Samples start supply front middle)
    (hback : gen.Samples start middle back left) :
    gen.Samples start supply (front ++ back) left := by
  induction hfront with
  | nil => exact hback
  | cons hsample _ ih => exact .cons hsample (ih hback)

theorem Samples.exists_middle (h : gen.Samples start supply (front ++ back) left) :
    ∃ middle, gen.Samples start supply front middle ∧ gen.Samples start middle back left := by
  induction front generalizing supply with
  | nil => exact ⟨supply, .nil, h⟩
  | cons sentence front ih =>
    cases h with
    | cons hsample hrest =>
      obtain ⟨middle, hfront, hback⟩ := ih hrest
      exact ⟨middle, .cons hsample hfront, hback⟩

/-- A batch is written if and only if its front is, and the rest from what that leaves. -/
theorem generate_add_eq_ok_iff {m n : Nat} :
    gen.generate start (m + n) supply = (.ok sentences, left) ↔
      ∃ front middle back, gen.generate start m supply = (.ok front, middle) ∧
        gen.generate start n middle = (.ok back, left) ∧ sentences = front ++ back := by
  simp only [generate_eq_ok_iff]
  -- both sides speak of chains, and a chain is cut after as many sentences as the front has
  constructor
  · rintro ⟨hsamples, hlength⟩
    rw [← List.take_append_drop m sentences] at hsamples
    obtain ⟨middle, hfront, hback⟩ := hsamples.exists_middle
    have hfrontLength : (sentences.take m).length = m := by
      rw [List.length_take, hlength, Nat.min_eq_left (Nat.le_add_right m n)]
    have hbackLength : (sentences.drop m).length = n := by
      rw [List.length_drop, hlength, Nat.add_sub_cancel_left]
    exact ⟨_, middle, _, ⟨hfront, hfrontLength⟩, ⟨hback, hbackLength⟩,
      (List.take_append_drop m sentences).symm⟩
  · rintro ⟨front, middle, back, ⟨hfront, hfrontLength⟩, ⟨hback, hbackLength⟩, rfl⟩
    exact ⟨hfront.append hback, by rw [List.length_append, hfrontLength, hbackLength]⟩

/-- What a batch fails with is there on a part of the supply, and the rest is left. -/
theorem FailsAfter.exists_words (h : gen.FailsAfter start count supply e left) :
    ∃ words, supply = words ++ left := by
  have hwords := (gen.takesFront_generate start count supply).exists_words
  rwa [generate_eq_error_iff.mpr h] at hwords

/-- How a batch of `m + n` is made of two batches. -/
structure Composes (gen : Generator) (start : String) (m n : Nat) (supply : Random.Supply) :
    Prop where
  /-- It is written if and only if the first is, and the second from what that leaves. -/
  ok_iff : ∀ sentences left, gen.generate start (m + n) supply = (.ok sentences, left) ↔
    ∃ front middle back, gen.generate start m supply = (.ok front, middle) ∧
      gen.generate start n middle = (.ok back, left) ∧ sentences = front ++ back
  /-- The words that it draws are those of the first and then those of the second, whatever comes
  after them. -/
  drawn : ∀ front middle back left, gen.generate start m supply = (.ok front, middle) →
    gen.generate start n middle = (.ok back, left) →
      ∃ first second, supply = first ++ second ++ left ∧ middle = second ++ left ∧
        ∀ rest, gen.generate start (m + n) (first ++ second ++ rest) = (.ok (front ++ back), rest)
  /-- Otherwise it fails as its first sample that fails, and leaves what that one leaves. -/
  error_iff : ∀ e left, gen.generate start (m + n) supply = (.error e, left) ↔
    gen.FailsAfter start (m + n) supply e left
  /-- The words drawn up to a failure are in front of what is left. -/
  drawn_of_error : ∀ e left, gen.FailsAfter start (m + n) supply e left →
    ∃ words, supply = words ++ left

/-- Any two batches in a row make up one batch in this way. -/
theorem composes (gen : Generator) (start : String) (m n : Nat) (supply : Random.Supply) :
    gen.Composes start m n supply where
  ok_iff _ _ := generate_add_eq_ok_iff
  drawn front middle back left hfront hback := by
    obtain ⟨first, rfl, hfirst⟩ :=
      (gen.takesFront_generate start m supply).exists_words_of_ok hfront
    obtain ⟨second, rfl, hsecond⟩ :=
      (gen.takesFront_generate start n middle).exists_words_of_ok hback
    refine ⟨first, second, (List.append_assoc ..).symm, rfl, ?_⟩
    intro rest
    rw [List.append_assoc]
    exact generate_add_eq_ok_iff.mpr
      ⟨front, second ++ rest, back, hfirst (second ++ rest), hsecond rest, rfl⟩
  error_iff _ _ := generate_eq_error_iff
  drawn_of_error _ _ h := h.exists_words

end PhraseGrammar.Generator
