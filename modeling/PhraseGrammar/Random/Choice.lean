import PhraseGrammar.Double.Magnitude
import PhraseGrammar.Double.Basic

/-!
# Random choices

A choice turns 64-bit words from a supply into an index.  The supply is a list; a choice gives
back what it left of it, also when it fails.

* The **uniform** choice among `k` alternatives multiplies a word by `k` and takes the part of
  the product above 64 bits.  Words whose low part falls outside a zone are passed over, which
  leaves every index the same number of words.
* The **weighted** choice takes one word, as a fraction of the weights' total, and looks up in
  which alternative's share it falls.  Weights that allow no such choice, because one of them is
  not at least zero or because all are zero, give a uniform choice instead.
-/

namespace PhraseGrammar.Random

/-- The words not yet drawn. -/
abbrev Supply := List UInt64

/-- Why a choice is not made. -/
inductive Fault where
  /-- A word is needed and the supply has none. -/
  | exhausted
  /-- The weights add up to infinity. -/
  | infiniteTotal
deriving DecidableEq

/-! ## Uniform choices -/

/-- The greatest low part of a product that a uniform choice among `k` accepts: `k`, shifted
until its leading bit is the highest of 64, less one. -/
def zone (k : Nat) : Nat :=
  k * Nat.pow 2 (63 - k.log2) - 1

/-- Whether a uniform choice among `k` accepts a word. -/
def accepts (k : Nat) (v : UInt64) : Bool :=
  v.toNat * k % Nat.pow 2 64 ≤ zone k

/-- The index that a word stands for in a uniform choice among `k`. -/
def share (k : Nat) (pos : 0 < k) (v : UInt64) : Fin k :=
  ⟨v.toNat * k / Nat.pow 2 64,
    Nat.div_lt_of_lt_mul (Nat.mul_lt_mul_of_pos_right v.toNat_lt pos)⟩

/-- Draws an index below `k`, each with the same chance. -/
def uniform (k : Nat) (pos : 0 < k) : Supply → Except Fault (Fin k) × Supply
  | [] => (.error .exhausted, [])
  | v :: rest => if accepts k v then (.ok (share k pos v), rest) else uniform k pos rest

/-! ## Weighted choices -/

/-- The sums of a list's fronts, each rounded as it is formed, on top of a first summand. -/
def runningSums (sum : Magnitude) : List Magnitude → List Magnitude
  | [] => []
  | w :: ws => (sum + w) :: runningSums (sum + w) ws

/-- The sum of all weights, rounded from left to right. -/
def total (weights : List Magnitude) : Magnitude :=
  weights.foldl (· + ·) Magnitude.zero

/-- A word's high 52 bits as a fraction of a magnitude. -/
def fractionOf (scale : Magnitude) (v : UInt64) : Magnitude :=
  scale.scaleBy (v >>> 12).toNat (Nat.pow 2 52)

/-- The greatest magnitude, at most `scale`, whose largest fraction lies below the total. -/
def shrink (total scale : Magnitude) : Magnitude :=
  if _h : 0 < scale.rank ∧ total ≤ scale.scaleBy (Nat.pow 2 52 - 1) (Nat.pow 2 52) then
    shrink total scale.below
  else scale
termination_by scale.rank
decreasing_by exact Nat.sub_lt _h.1 Nat.one_pos

/-- The index of the alternative in whose share a point falls: the number of sums that the point
has reached, the total left out. -/
def shareAt (weights : List Magnitude) (point : Magnitude) : Nat :=
  (runningSums Magnitude.zero weights).dropLast.countP fun sum => sum ≤ point

theorem length_runningSums (sum : Magnitude) (weights : List Magnitude) :
    (runningSums sum weights).length = weights.length := by
  induction weights generalizing sum with
  | nil => rfl
  | cons w ws ih => simp [runningSums, ih]

theorem shareAt_lt {weights : List Magnitude} (pos : 0 < weights.length) (point : Magnitude) :
    shareAt weights point < weights.length := by
  have h := List.countP_le_length (p := fun sum => decide (sum ≤ point))
    (l := (runningSums Magnitude.zero weights).dropLast)
  rw [List.length_dropLast, length_runningSums] at h
  exact Nat.lt_of_le_of_lt h (Nat.sub_lt pos Nat.one_pos)

/-- The weights as magnitudes, if all of them are at least zero. -/
def usable? : List Double → Option (List Magnitude)
  | [] => some []
  | w :: ws =>
    match w.nonnegative?, usable? ws with
    | some m, some ms => some (m :: ms)
    | _, _ => none

theorem length_usable {weights : List Double} {ms : List Magnitude}
    (h : usable? weights = some ms) : ms.length = weights.length := by
  induction weights generalizing ms with
  | nil => cases h; rfl
  | cons w ws ih =>
    unfold usable? at h
    split at h
    · next m rest _ hrest => cases h; simp [ih hrest]
    · cases h

/-- Draws an index with chances in proportion to the weights, or uniformly where the weights
allow no such choice. -/
def weighted (weights : List Double) (pos : 0 < weights.length) (supply : Supply) :
    Except Fault (Fin weights.length) × Supply :=
  match h : usable? weights with
  | none => uniform weights.length pos supply
  | some ms =>
    if total ms = Magnitude.zero then uniform weights.length pos supply
    else if total ms = Magnitude.infinity then (.error .infiniteTotal, supply)
    else
      match supply with
      | [] => (.error .exhausted, [])
      | v :: rest =>
        let point := fractionOf (shrink (total ms) (total ms)) v
        have bound := length_usable h
        (.ok ⟨shareAt ms point, bound ▸ shareAt_lt (bound ▸ pos) point⟩, rest)

/-! ## Words drawn -/

theorem length_uniform_lt {k : Nat} {pos : 0 < k} {supply rest : Supply} {i : Fin k}
    (h : uniform k pos supply = (.ok i, rest)) : rest.length < supply.length := by
  induction supply with
  | nil => simp [uniform] at h
  | cons v vs ih =>
    unfold uniform at h
    split at h
    · cases h; simp
    · exact Nat.lt_succ_of_lt (ih h)

theorem length_weighted_lt {weights : List Double} {pos : 0 < weights.length}
    {supply rest : Supply} {i : Fin weights.length}
    (h : weighted weights pos supply = (.ok i, rest)) : rest.length < supply.length := by
  unfold weighted at h
  split at h
  · exact length_uniform_lt h
  · split at h
    · exact length_uniform_lt h
    · split at h
      · simp at h
      · split at h
        · simp at h
        · cases h; simp

end PhraseGrammar.Random
