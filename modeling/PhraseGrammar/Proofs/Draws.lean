import PhraseGrammar.Generator.Basic

/-!
# Draws from a supply

A choice takes words off the front of a supply and looks no further, whether it is made or fails.
So it does the same on every supply that begins with those words, and what it leaves is what comes
after them.  Only a choice that wants a word when there is none left has taken all of them, and may
do otherwise on a longer supply.

## Main statements

- `Random.TakesFront`: draws that look at no words but those they take.
- `Random.weighted_cases`: all that a weighted choice can do.
- `Generator.takesFront_choose`: the choice of a production is such a draw.
-/

namespace PhraseGrammar

/-! ## Draws that look no further -/

namespace Random

/-- `TakesFront dry draw supply`: the draw takes words off the front of the supply and looks no
further, so that it gives the same result whatever comes after them; or it takes all words and runs
dry. -/
inductive TakesFront {ε α : Type} (dry : ε) (draw : Supply → Except ε α × Supply) :
    Supply → Prop where
  | ranDry {supply : Supply} (h : draw supply = (.error dry, [])) : TakesFront dry draw supply
  | took {words left : Supply} {result : Except ε α}
      (h : ∀ rest, draw (words ++ rest) = (result, rest)) : TakesFront dry draw (words ++ left)

namespace TakesFront

variable {ε α : Type} {dry : ε} {draw next : Supply → Except ε α × Supply} {supply : Supply}

theorem unread {result : Except ε α} (h : ∀ rest, draw rest = (result, rest)) (supply : Supply) :
    TakesFront dry draw supply := by
  have hnone : ∀ rest, draw ([] ++ rest) = (result, rest) := h
  rw [← List.nil_append supply]
  exact .took hnone

theorem congr (hsame : ∀ supply, draw supply = next supply) (h : TakesFront dry next supply) :
    TakesFront dry draw supply := by
  rw [funext hsame]
  exact h

/-- A draw that goes on as another one does once some words are taken. -/
theorem after {first rest : Supply} (hfirst : ∀ rest, draw (first ++ rest) = next rest)
    (h : TakesFront dry next rest) : TakesFront dry draw (first ++ rest) := by
  -- if the draw runs dry later on, so does the whole; else its words come after the first ones
  cases h with
  | ranDry h => exact .ranDry ((hfirst rest).trans h)
  | @took words left result h =>
    have hboth : ∀ rest, draw (first ++ words ++ rest) = (result, rest) := by
      intro rest
      rw [List.append_assoc, hfirst, h]
    rw [← List.append_assoc]
    exact .took hboth

theorem map {β : Type} (f : α → β) (h : TakesFront dry draw supply) :
    TakesFront dry (fun supply => ((draw supply).1.map f, (draw supply).2)) supply := by
  cases h with
  | ranDry h => exact .ranDry (by rw [h]; rfl)
  | @took words left result h =>
    have hmapped : ∀ rest, ((draw (words ++ rest)).1.map f, (draw (words ++ rest)).2) =
        (result.map f, rest) := by
      intro rest
      rw [h]
    exact .took hmapped

/-- The words that a draw has taken. -/
theorem exists_words (h : TakesFront dry draw supply) :
    ∃ words, supply = words ++ (draw supply).2 := by
  cases h with
  | ranDry h => exact ⟨supply, by rw [h, List.append_nil]⟩
  | @took words left result h => exact ⟨words, by rw [h]⟩

theorem length_le (h : TakesFront dry draw supply) :
    (draw supply).2.length ≤ supply.length := by
  obtain ⟨words, hwords⟩ := h.exists_words
  have hlength := congrArg List.length hwords
  rw [List.length_append] at hlength
  exact Nat.le.intro ((Nat.add_comm _ _).trans hlength.symm)

/-- The words that a draw has taken give its result, whatever comes after them. -/
theorem exists_words_of_ok {a : α} {left : Supply} (h : TakesFront dry draw supply)
    (hok : draw supply = (.ok a, left)) :
    ∃ words, supply = words ++ left ∧ ∀ rest, draw (words ++ rest) = (.ok a, rest) := by
  cases h with
  | ranDry h =>
    rw [h] at hok
    cases hok
  | @took words _ _ h =>
    rw [h, Prod.mk.injEq] at hok
    obtain ⟨rfl, rfl⟩ := hok
    exact ⟨words, rfl, h⟩

/-- On a longer supply, a result that was there before the supply ran dry is the same. -/
theorem fst_eq {supply' : Supply} (h : TakesFront dry draw supply) (hfront : supply <+: supply')
    (hdry : (draw supply).1 ≠ .error dry) : (draw supply').1 = (draw supply).1 := by
  obtain ⟨extra, rfl⟩ := hfront
  cases h with
  | ranDry h =>
    rw [h] at hdry
    exact absurd rfl hdry
  | took h => rw [List.append_assoc, h, h]

end TakesFront

/-! ## Choices -/

/-- A uniform choice takes words up to the first that it accepts. -/
theorem takesFront_uniform (k : Nat) (pos : 0 < k) (supply : Supply) :
    TakesFront .exhausted (uniform k pos) supply := by
  induction supply with
  | nil => exact .ranDry rfl
  | cons v supply ih =>
    have hv : ∀ rest, uniform k pos ([v] ++ rest) =
        if accepts k v then (.ok (share k pos v), rest) else uniform k pos rest := fun _ => rfl
    -- a word that is passed over is taken too
    by_cases haccepts : accepts k v = true
    · simp only [haccepts, if_true] at hv
      exact .took hv
    · simp only [haccepts] at hv
      exact .after hv ih

/-- A weighted choice is a uniform choice, or fails without a draw, or takes one word. -/
theorem weighted_cases (weights : List Double) (pos : 0 < weights.length) :
    (∀ supply, weighted weights pos supply = uniform weights.length pos supply) ∨
      (∀ supply, weighted weights pos supply = (.error .infiniteTotal, supply)) ∨
      ∃ index : UInt64 → Fin weights.length,
        weighted weights pos [] = (.error .exhausted, []) ∧
          ∀ v rest, weighted weights pos (v :: rest) = (.ok (index v), rest) := by
  unfold weighted
  split
  · exact .inl fun _ => rfl
  -- usable weights decide by their total: nothing, too much, or something to divide
  · next ms husable =>
    by_cases hzero : total ms = Magnitude.zero
    · exact .inl fun supply => if_pos hzero
    · by_cases hinfinite : total ms = Magnitude.infinity
      · exact .inr (.inl fun supply => by rw [if_neg hzero, if_pos hinfinite])
      · have bound := length_usable husable
        refine .inr (.inr ⟨fun v =>
          ⟨shareAt ms (fractionOf (shrink (total ms) (total ms)) v),
            bound ▸ shareAt_lt (bound ▸ pos) _⟩, ?_, fun v rest => ?_⟩)
        · rw [if_neg hzero, if_neg hinfinite]
        · rw [if_neg hzero, if_neg hinfinite]

/-- A weighted choice takes words off the front of the supply, and looks no further. -/
theorem takesFront_weighted (weights : List Double) (pos : 0 < weights.length) (supply : Supply) :
    TakesFront .exhausted (weighted weights pos) supply := by
  rcases weighted_cases weights pos with huniform | hinfinite | ⟨index, hnone, hone⟩
  · exact .congr huniform (takesFront_uniform weights.length pos supply)
  · exact .unread hinfinite supply
  · cases supply with
    | nil => exact .ranDry hnone
    | cons v rest =>
      have hv : ∀ rest, weighted weights pos ([v] ++ rest) = (.ok (index v), rest) := hone v
      exact .took hv

end Random

namespace Generator

/-- The choice of a production takes words off the front of the supply. -/
theorem takesFront_choose (gen : Generator) {alternatives : List Production}
    (ne : alternatives ≠ []) (supply : Random.Supply) :
    Random.TakesFront .exhausted (gen.choose alternatives ne) supply := by
  -- in both ways to choose, what is drawn is an index
  unfold choose
  cases gen.sampling with
  | uniform => exact (Random.takesFront_uniform _ _ supply).map alternatives.get
  | weighted => exact (Random.takesFront_weighted _ _ supply).map _

theorem length_choose_le {gen : Generator} {alternatives : List Production}
    {ne : alternatives ≠ []} {supply left : Random.Supply} {drawn : Except Random.Fault Production}
    (h : gen.choose alternatives ne supply = (drawn, left)) : left.length ≤ supply.length := by
  have hlength := (gen.takesFront_choose ne supply).length_le
  rwa [h] at hlength

end Generator

end PhraseGrammar
