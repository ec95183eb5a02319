import Mathlib.Data.List.ReduceOption
import PhraseGrammar.Proofs.DecimalText
import PhraseGrammar.Proofs.LineLayout
import PhraseGrammar.Proofs.Results

/-!
# The language of grammar texts

A text is a grammar's if each of its lines is blank or states a production, and at least one line
does the latter.  This module defines that language by relations between lines and what they
state, and between lines and what is wrong with them.  The reader is shown to compute both: it
accepts the texts of the language, with their productions in order, and of every other text it
names the first line that is wrong, with the first fault of that line.

## Main statements

- `readLine_eq_ok`, `readLine_eq_error`: what the reader says of one line.
- `readProductions_characterised`: what it says of a text.
- `wellFormed_of_readProductions`: all productions that it gives could be stated in a text.
-/

namespace PhraseGrammar

namespace Production

/-! ## Productions and their symbols -/

/-- All symbols of a production, the left-hand side first. -/
def symbols (p : Production) : List String :=
  p.lhs :: p.rhs.symbols

/-- The production of two or three symbols. -/
def ofSymbols (value : Double) : List String → Production
  | [lhs, word] => ⟨lhs, .word word, value⟩
  | [lhs, first, second] => ⟨lhs, .pair first second, value⟩
  | _ => default

theorem length_symbols (p : Production) : p.symbols.length = 2 ∨ p.symbols.length = 3 := by
  obtain ⟨lhs, rhs, value⟩ := p
  cases rhs <;> simp [symbols, RightSide.symbols]

theorem ofSymbols_symbols (p : Production) : ofSymbols p.probability p.symbols = p := by
  obtain ⟨lhs, rhs, value⟩ := p
  cases rhs <;> rfl

/-- Two or three symbols are those of a production, whatever its probability. -/
theorem exists_ofSymbols (value : Double) {ss : List String}
    (harity : ss.length = 2 ∨ ss.length = 3) :
    ∃ p, ofSymbols value ss = p ∧ p.symbols = ss ∧ p.probability = value := by
  match ss, harity with
  | [lhs, word], _ => exact ⟨⟨lhs, .word word, value⟩, rfl, rfl, rfl⟩
  | [lhs, first, second], _ => exact ⟨⟨lhs, .pair first second, value⟩, rfl, rfl, rfl⟩
  | [], h | [_], h | _ :: _ :: _ :: _ :: _, h => simp at h

end Production

namespace Source

open Except (bind_eq_ok bind_eq_error map_eq_ok map_eq_error)
open Magnitude (IsNearest)
open Text (isBlank LinesOf)

variable {line field : List Char} {fields symbols : List (List Char)} {x : ℚ} {value : Double}
  {p : Production} {fault : LineFault}

/-! ## The language -/

/-- `UnsignedText field x`: the field denotes `x`, with a plus sign before it if wanted. -/
inductive UnsignedText : List Char → ℚ → Prop where
  | plain {field : List Char} {x : ℚ} (h : DecimalText field x) : UnsignedText field x
  | plus {field : List Char} {x : ℚ} (h : DecimalText field x) : UnsignedText ('+' :: field) x

/-- `NumberText field value`: the field denotes a number whose nearest double is `value`. -/
def NumberText (field : List Char) (value : Double) : Prop :=
  ∃ x m, UnsignedText field x ∧ IsNearest x m ∧ value = .ofMagnitude m

/-- Something that may stand for a symbol: it is not empty, and none of its characters is white
space, the mark of a comment, or a bracket. -/
def IsSymbol (cs : List Char) : Prop :=
  cs ≠ [] ∧ ∀ c ∈ cs, isBlank c = false ∧ c ≠ '#' ∧ c ≠ '(' ∧ c ≠ ')'

/-- A production that a line can state: its probability is above zero and at most one, and its
symbols may stand for symbols. -/
structure WellFormed (p : Production) : Prop where
  probability : p.probability.IsProbability
  symbols : ∀ s ∈ p.symbols, IsSymbol s.toList

/-- `States fields p`: the fields are a probability and the symbols of the production `p`. -/
inductive States : List (List Char) → Production → Prop where
  | intro {field : List Char} {p : Production} (hnumber : NumberText field p.probability)
      (hp : WellFormed p) : States (field :: p.symbols.map String.toList) p

/-- `Conforms line reading`: the line is blank, or it states the production that is its
reading. -/
inductive Conforms : List Char → Option Production → Prop where
  | blank {line : List Char} (h : LaidOut [] line) : Conforms line none
  | production {line : List Char} {fields : List (List Char)} {p : Production}
      (hfields : LaidOut fields line) (h : States fields p) : Conforms line (some p)

/-- `Faulty fields fault`: this is the first fault of the fields.  A fault of the probability comes
before a wrong number of symbols, and that before a bracket in one of them. -/
inductive Faulty : List (List Char) → LineFault → Prop where
  | noNumber {field : List Char} {symbols : List (List Char)}
      (h : ∀ value, ¬NumberText field value) :
      Faulty (field :: symbols) (.badProbability (String.ofList field))
  | outOfRange {field : List Char} {symbols : List (List Char)} {value : Double}
      (hnumber : NumberText field value) (hrange : ¬value.IsProbability) :
      Faulty (field :: symbols) (.probabilityOutOfRange value)
  | arity {field : List Char} {symbols : List (List Char)} {value : Double}
      (hnumber : NumberText field value) (hrange : value.IsProbability)
      (harity : symbols.length ≠ 2 ∧ symbols.length ≠ 3) :
      Faulty (field :: symbols) (.wrongArity (symbols.length - 1))
  | bracket {field bad : List Char} {before after : List (List Char)} {value : Double}
      (hnumber : NumberText field value) (hrange : value.IsProbability)
      (harity : (before ++ bad :: after).length = 2 ∨ (before ++ bad :: after).length = 3)
      (hbefore : ∀ s ∈ before, IsSymbol s) (hbad : '(' ∈ bad ∨ ')' ∈ bad) :
      Faulty (field :: (before ++ bad :: after)) (.badSymbol (String.ofList bad))

/-- `FirstFault number ls e`: the error `e` names the first of the lines that does not conform, by
its text without white space around it and by its number, where the first of all lines has the
given number. -/
inductive FirstFault (number : Nat) : List (List Char) → SourceError → Prop where
  | intro {before after fields : List (List Char)} {bad text : List Char} {fault : LineFault}
      (hbefore : ∀ line ∈ before, ∃ reading, Conforms line reading) (hfields : LaidOut fields bad)
      (hfault : Faulty fields fault) (htext : Trimmed bad text) :
      FirstFault number (before ++ bad :: after)
        (.badLine (before.length + number) (String.ofList text) fault)

/-- `Blames ls e`: the error `e` is what is wrong with all lines of a text.  Either there is a
first line that does not conform, or all are blank. -/
inductive Blames : List (List Char) → SourceError → Prop where
  | noProductions {ls : List (List Char)} (h : ∀ line ∈ ls, LaidOut [] line) :
      Blames ls .noProductions
  | badLine {ls : List (List Char)} {e : SourceError} (h : FirstFault 1 ls e) : Blames ls e

/-! ## Probabilities -/

/-- What denotes a number without a sign does not begin with a plus sign. -/
theorem not_decimalText_plus : ¬DecimalText ('+' :: field) x := by
  intro h
  obtain ⟨n, hread, -⟩ := Numeral.decimalText_iff_read?.mp h
  simp [Numeral.read?, Numeral.spanDigits] at hread

theorem read?_eq_some_iff {m : Magnitude} :
    (Numeral.read? field).map Numeral.magnitude = some m ↔
      ∃ x, DecimalText field x ∧ IsNearest x m := by
  simp only [Numeral.decimalText_iff_read?, Option.map_eq_some_iff]
  constructor
  · rintro ⟨n, hread, rfl⟩
    exact ⟨n.value, ⟨n, hread, rfl⟩, n.isNearest_magnitude⟩
  · rintro ⟨_, ⟨n, hread, rfl⟩, hnearest⟩
    exact ⟨n, hread, Numeral.magnitude_eq_of_isNearest hnearest⟩

/-- A field is read as a magnitude exactly if it denotes a number to which that magnitude is
nearest. -/
theorem readUnsigned?_eq_some_iff {m : Magnitude} :
    readUnsigned? field = some m ↔ ∃ x, UnsignedText field x ∧ IsNearest x m := by
  unfold readUnsigned?
  -- a plus sign is taken off before the rest is read
  split
  · next rest =>
    rw [read?_eq_some_iff]
    constructor
    · rintro ⟨x, h, hnearest⟩
      exact ⟨x, .plus h, hnearest⟩
    · rintro ⟨x, h, hnearest⟩
      cases h with
      -- what denotes a number without the sign does not begin with one
      | plain h => exact absurd h not_decimalText_plus
      | plus h => exact ⟨x, h, hnearest⟩
  · next hplus =>
    rw [read?_eq_some_iff]
    constructor
    · rintro ⟨x, h, hnearest⟩
      exact ⟨x, .plain h, hnearest⟩
    · rintro ⟨x, h, hnearest⟩
      cases h with
      | plain h => exact ⟨x, h, hnearest⟩
      | plus h => exact absurd rfl (hplus _)

theorem numberText_iff :
    NumberText field value ↔ ∃ m, readUnsigned? field = some m ∧ value = .ofMagnitude m := by
  simp only [readUnsigned?_eq_some_iff]
  constructor
  · rintro ⟨x, m, h, hnearest, hvalue⟩
    exact ⟨m, ⟨x, h, hnearest⟩, hvalue⟩
  · rintro ⟨m, ⟨x, h, hnearest⟩, hvalue⟩
    exact ⟨x, m, h, hnearest, hvalue⟩

theorem isProbability_ofMagnitude {m : Magnitude} :
    (Double.ofMagnitude m).IsProbability ↔ Magnitude.zero < m ∧ m ≤ Magnitude.one := by
  constructor
  · rintro ⟨m', hm, hrange⟩
    cases hm
    exact hrange
  · intro hrange
    exact ⟨m, rfl, hrange⟩

/-- A field is read as a probability exactly if its nearest double is above zero and at most one. -/
theorem readProbability_eq_ok :
    readProbability field = .ok value ↔ NumberText field value ∧ value.IsProbability := by
  rw [numberText_iff]
  unfold readProbability
  -- whether the field is a number comes first, and then whether the number is in range
  cases readUnsigned? field with
  | none => simp
  | some m =>
    simp only [Option.some.injEq, exists_eq_left']
    split
    · next hrange =>
      constructor
      · rintro ⟨⟩
        exact ⟨rfl, isProbability_ofMagnitude.mpr hrange⟩
      · rintro ⟨rfl, -⟩
        rfl
    · next hrange =>
      constructor
      · rintro ⟨⟩
      · rintro ⟨rfl, h⟩
        exact absurd (isProbability_ofMagnitude.mp h) hrange

/-- The two faults of a probability: that it is no number, and that it is out of range. -/
theorem readProbability_eq_error :
    readProbability field = .error fault ↔
      ((∀ value, ¬NumberText field value) ∧ fault = .badProbability (String.ofList field)) ∨
        ∃ value, NumberText field value ∧ ¬value.IsProbability ∧
          fault = .probabilityOutOfRange value := by
  simp only [numberText_iff]
  unfold readProbability
  cases readUnsigned? field with
  | none => simp [eq_comm]
  | some m =>
    simp only [Option.some.injEq, exists_eq_left']
    split
    · next hrange => simp [isProbability_ofMagnitude.mpr hrange]
    · next hrange =>
      have hrange' : ¬(Double.ofMagnitude m).IsProbability := mt isProbability_ofMagnitude.mp hrange
      simp [hrange', eq_comm]

/-! ## Symbols -/

theorem any_isBracket_iff {cs : List Char} : cs.any isBracket = true ↔ '(' ∈ cs ∨ ')' ∈ cs := by
  simp [isBracket, List.any_eq_true, and_or_left, exists_or]

theorem isSymbol_iff {cs : List Char} : IsSymbol cs ↔ IsField cs ∧ cs.any isBracket = false := by
  unfold IsSymbol IsField
  rw [and_assoc, List.any_eq_false, ← forall₂_and]
  simp [inField, isBracket, and_assoc]

theorem IsSymbol.isField {cs : List Char} (h : IsSymbol cs) : IsField cs :=
  (isSymbol_iff.mp h).1

/-- Among the fields of a line, only brackets keep a field from being a symbol. -/
theorem readSymbol_eq_ok {cs : List Char} {s : String} (hfield : IsField cs) :
    readSymbol cs = .ok s ↔ IsSymbol cs ∧ s.toList = cs := by
  rw [isSymbol_iff]
  unfold readSymbol
  split
  · next hbracket => simp [hbracket]
  · next hbracket =>
    constructor
    · rintro ⟨⟩
      exact ⟨⟨hfield, Bool.eq_false_iff.mpr hbracket⟩, String.toList_ofList⟩
    · rintro ⟨-, rfl⟩
      rw [String.ofList_toList]

theorem readSymbol_eq_error {cs : List Char} :
    readSymbol cs = .error fault ↔
      ('(' ∈ cs ∨ ')' ∈ cs) ∧ fault = .badSymbol (String.ofList cs) := by
  rw [← any_isBracket_iff]
  unfold readSymbol
  split
  · next hbracket => simp [hbracket, eq_comm]
  · next hbracket => simp [hbracket]

/-! ## The fields of a line -/

/-- Fields are read as symbols exactly if each of them may stand for one, and they are read as they
are written. -/
theorem readSymbols_eq_ok {ss : List String} (hfields : ∀ cs ∈ symbols, IsField cs) :
    symbols.mapM readSymbol = .ok ss ↔
      (∀ cs ∈ symbols, IsSymbol cs) ∧ symbols = ss.map String.toList := by
  -- the symbols are read from left to right, and so is the list of their texts
  induction symbols generalizing ss with
  | nil => simp [pure, Except.pure, eq_comm]
  | cons cs symbols ih =>
    obtain ⟨hfield, hrest⟩ := List.forall_mem_cons.mp hfields
    simp only [List.mapM_cons, bind_eq_ok, readSymbol_eq_ok hfield, ih hrest, List.forall_mem_cons]
    constructor
    · rintro ⟨s, ⟨hs, rfl⟩, ss, ⟨hss, rfl⟩, ⟨⟩⟩
      exact ⟨⟨hs, hss⟩, rfl⟩
    · rintro ⟨⟨hs, hss⟩, heq⟩
      obtain ⟨s, ss, rfl, rfl, rfl⟩ := List.map_eq_cons_iff.mp heq.symm
      exact ⟨s, ⟨hs, rfl⟩, ss, ⟨hss, rfl⟩, rfl⟩

/-- Fields are refused for the first of them that has a bracket. -/
theorem readSymbols_eq_error (hfields : ∀ cs ∈ symbols, IsField cs) :
    symbols.mapM readSymbol = .error fault ↔
      ∃ before bad after, symbols = before ++ bad :: after ∧ (∀ cs ∈ before, IsSymbol cs) ∧
        ('(' ∈ bad ∨ ')' ∈ bad) ∧ fault = .badSymbol (String.ofList bad) := by
  induction symbols with
  | nil => simp [pure, Except.pure]
  | cons cs symbols ih =>
    obtain ⟨hfield, hrest⟩ := List.forall_mem_cons.mp hfields
    simp only [List.mapM_cons, bind_eq_error, readSymbol_eq_error, readSymbol_eq_ok hfield,
      ih hrest]
    -- the first symbol has a bracket, or it is read and a later one has
    constructor
    · rintro (⟨hbad, rfl⟩ |
        ⟨s, ⟨hs, -⟩, ⟨before, bad, after, rfl, hbefore, hbad, rfl⟩ | ⟨_, _, ⟨⟩⟩⟩)
      · exact ⟨[], cs, symbols, rfl, by simp, hbad, rfl⟩
      · have hbefore' : ∀ d ∈ cs :: before, IsSymbol d := List.forall_mem_cons.mpr ⟨hs, hbefore⟩
        exact ⟨cs :: before, bad, after, rfl, hbefore', hbad, rfl⟩
    · rintro ⟨before, bad, after, heq, hbefore, hbad, rfl⟩
      cases before with
      | nil =>
        cases heq
        exact .inl ⟨hbad, rfl⟩
      | cons d before =>
        cases heq
        obtain ⟨hd, hbefore⟩ := List.forall_mem_cons.mp hbefore
        exact .inr ⟨String.ofList cs, ⟨hd, String.toList_ofList⟩,
          .inl ⟨before, bad, after, rfl, hbefore, hbad, rfl⟩⟩

/-- Two or three symbols are read one after another, whatever the production is then made of. -/
theorem readFields_eq (harity : symbols.length = 2 ∨ symbols.length = 3) :
    readFields field symbols = do
      let value ← readProbability field
      let ss ← symbols.mapM readSymbol
      return Production.ofSymbols value ss := by
  match symbols, harity with
  | [lhs, word], _ => simp [readFields, Production.ofSymbols]
  | [lhs, first, second], _ => simp [readFields, Production.ofSymbols]
  | [], h | [_], h | _ :: _ :: _ :: _ :: _, h => simp at h

/-- Any other number of symbols is a fault, found after those of the probability. -/
theorem readFields_of_arity (harity : symbols.length ≠ 2 ∧ symbols.length ≠ 3) :
    readFields field symbols =
      (readProbability field >>= fun _ => .error (.wrongArity (symbols.length - 1))) := by
  match symbols, harity with
  | [], _ => rfl
  | [_], _ => rfl
  | [lhs, word], h | [lhs, first, second], h => simp at h
  | _ :: _ :: _ :: _ :: _, _ => rfl

theorem readFields_of_probability (h : readProbability field = .error fault) :
    readFields field symbols = .error fault := by
  unfold readFields
  rw [h]
  rfl

/-- The fields of a line are read as a production exactly if they state it. -/
theorem readFields_eq_ok (hfields : ∀ cs ∈ symbols, IsField cs) :
    readFields field symbols = .ok p ↔ States (field :: symbols) p := by
  constructor
  · intro h
    -- only two or three symbols make a production
    by_cases harity : symbols.length = 2 ∨ symbols.length = 3
    · rw [readFields_eq harity] at h
      obtain ⟨value, hvalue, h⟩ := bind_eq_ok.mp h
      obtain ⟨ss, hss, hp⟩ := bind_eq_ok.mp h
      obtain ⟨hnumber, hrange⟩ := readProbability_eq_ok.mp hvalue
      obtain ⟨hsymbols, rfl⟩ := (readSymbols_eq_ok hfields).mp hss
      rw [List.length_map] at harity
      obtain ⟨p', hp', rfl, rfl⟩ := Production.exists_ofSymbols value harity
      obtain rfl : p' = p := hp'.symm.trans (Except.ok.inj hp)
      exact .intro hnumber ⟨hrange, List.forall_mem_map.mp hsymbols⟩
    · rw [readFields_of_arity (not_or.mp harity)] at h
      obtain ⟨_, -, ⟨⟩⟩ := bind_eq_ok.mp h
  · intro h
    obtain ⟨hnumber, hp⟩ := h
    have harity := p.length_symbols
    rw [← List.length_map String.toList] at harity
    have hread := (readSymbols_eq_ok hfields).mpr ⟨List.forall_mem_map.mpr hp.symbols, rfl⟩
    rw [readFields_eq harity, readProbability_eq_ok.mpr ⟨hnumber, hp.probability⟩]
    refine bind_eq_ok.mpr ⟨_, rfl, bind_eq_ok.mpr ⟨_, hread, ?_⟩⟩
    exact congrArg Except.ok p.ofSymbols_symbols

theorem faulty_of_probability (h : readProbability field = .error fault) :
    Faulty (field :: symbols) fault := by
  rcases readProbability_eq_error.mp h with ⟨hnone, rfl⟩ | ⟨value, hnumber, hrange, rfl⟩
  · exact .noNumber hnone
  · exact .outOfRange hnumber hrange

/-- Otherwise they are refused, with the first fault that they have. -/
theorem readFields_eq_error (hfields : ∀ cs ∈ symbols, IsField cs) :
    readFields field symbols = .error fault ↔ Faulty (field :: symbols) fault := by
  constructor
  · intro h
    -- the probability is at fault, or else the symbols, by their number or by a bracket
    by_cases harity : symbols.length = 2 ∨ symbols.length = 3
    · rw [readFields_eq harity, bind_eq_error] at h
      rcases h with h | ⟨value, hvalue, h⟩
      · exact faulty_of_probability h
      · obtain ⟨hnumber, hrange⟩ := readProbability_eq_ok.mp hvalue
        rcases bind_eq_error.mp h with h | ⟨_, _, ⟨⟩⟩
        obtain ⟨before, bad, after, rfl, hbefore, hbad, rfl⟩ := (readSymbols_eq_error hfields).mp h
        exact .bracket hnumber hrange harity hbefore hbad
    · have harity' := not_or.mp harity
      rw [readFields_of_arity harity', bind_eq_error] at h
      rcases h with h | ⟨value, hvalue, ⟨⟩⟩
      · exact faulty_of_probability h
      · obtain ⟨hnumber, hrange⟩ := readProbability_eq_ok.mp hvalue
        exact .arity hnumber hrange harity'
  · intro h
    cases h with
    | noNumber hnone =>
      exact readFields_of_probability (readProbability_eq_error.mpr (.inl ⟨hnone, rfl⟩))
    | outOfRange hnumber hrange =>
      have hread := readProbability_eq_error.mpr (.inr ⟨_, hnumber, hrange, rfl⟩)
      exact readFields_of_probability hread
    | arity hnumber hrange harity =>
      rw [readFields_of_arity harity, readProbability_eq_ok.mpr ⟨hnumber, hrange⟩]
      rfl
    | bracket hnumber hrange harity hbefore hbad =>
      have hread := (readSymbols_eq_error hfields).mpr ⟨_, _, _, rfl, hbefore, hbad, rfl⟩
      rw [readFields_eq harity, readProbability_eq_ok.mpr ⟨hnumber, hrange⟩]
      exact bind_eq_error.mpr (.inr ⟨_, rfl, bind_eq_error.mpr (.inl hread)⟩)

/-! ## One line -/

theorem readLine_of_blank (h : LaidOut [] line) : readLine line = .ok none := by
  unfold readLine
  rw [h.fields_eq]

theorem readLine_of_laidOut (h : LaidOut (field :: symbols) line) :
    readLine line = (readFields field symbols).map some := by
  unfold readLine
  rw [h.fields_eq]

theorem isField_of_laidOut_cons (h : LaidOut (field :: symbols) line) :
    ∀ cs ∈ symbols, IsField cs :=
  (List.forall_mem_cons.mp (isField_of_laidOut h)).2

/-- A line is accepted exactly if it conforms, with the production that it states, if any. -/
theorem readLine_eq_ok {reading : Option Production} :
    readLine line = .ok reading ↔ Conforms line reading := by
  constructor
  · intro h
    -- every line is laid out in one way: it is blank, or its first field is to be a probability
    obtain ⟨fields, hfields⟩ := exists_laidOut line
    cases fields with
    | nil =>
      rw [readLine_of_blank hfields] at h
      cases h
      exact .blank hfields
    | cons field symbols =>
      rw [readLine_of_laidOut hfields] at h
      obtain ⟨p, hread, rfl⟩ := map_eq_ok.mp h
      exact .production hfields ((readFields_eq_ok (isField_of_laidOut_cons hfields)).mp hread)
  · intro h
    cases h with
    | blank hfields => exact readLine_of_blank hfields
    | production hfields hstates =>
      cases hstates with
      | intro hnumber hp =>
        have hread := (readFields_eq_ok (isField_of_laidOut_cons hfields)).mpr (.intro hnumber hp)
        rw [readLine_of_laidOut hfields, hread]
        rfl

/-- A line is refused exactly if the fields on it are faulty, with their first fault. -/
theorem readLine_eq_error :
    readLine line = .error fault ↔ ∃ fields, LaidOut fields line ∧ Faulty fields fault := by
  constructor
  · intro h
    obtain ⟨fields, hfields⟩ := exists_laidOut line
    refine ⟨fields, hfields, ?_⟩
    cases fields with
    | nil =>
      rw [readLine_of_blank hfields] at h
      cases h
    | cons field symbols =>
      rw [readLine_of_laidOut hfields, map_eq_error] at h
      exact (readFields_eq_error (isField_of_laidOut_cons hfields)).mp h
  · rintro ⟨fields, hfields, hfault⟩
    cases fields with
    -- a blank line has no faults
    | nil => cases hfault
    | cons field symbols =>
      rw [readLine_of_laidOut hfields, map_eq_error]
      exact (readFields_eq_error (isField_of_laidOut_cons hfields)).mpr hfault

/-! ## All lines -/

section Lines

variable {ls : List (List Char)} {number : Nat} {ps : List Production} {e : SourceError}

/-- Lines are accepted exactly if they all conform, with the productions of those that state one. -/
theorem readNumbered_eq_ok :
    readNumbered (ls.zipIdx number) = .ok ps ↔
      ∃ readings, List.Forall₂ Conforms ls readings ∧ readings.reduceOption = ps := by
  -- the numbers of the lines matter to errors only, so they are free in the induction
  induction ls generalizing number ps with
  | nil =>
    rw [List.zipIdx_nil, readNumbered]
    constructor
    · rintro ⟨⟩
      exact ⟨[], .nil, rfl⟩
    · rintro ⟨_, ⟨⟩, rfl⟩
      rfl
  | cons line ls ih =>
    rw [List.zipIdx_cons, readNumbered]
    constructor
    · intro h
      split at h
      · cases h
      · next hline =>
        obtain ⟨readings, hreadings, rfl⟩ := ih.mp h
        exact ⟨none :: readings, .cons (readLine_eq_ok.mp hline) hreadings, rfl⟩
      · next p hline =>
        obtain ⟨_, hrest, rfl⟩ := map_eq_ok.mp h
        obtain ⟨readings, hreadings, rfl⟩ := ih.mp hrest
        exact ⟨some p :: readings, .cons (readLine_eq_ok.mp hline) hreadings, rfl⟩
    · rintro ⟨_, hall, rfl⟩
      cases hall with
      | @cons _ reading _ readings hline hreadings =>
        have hrest : readNumbered (ls.zipIdx (number + 1)) = .ok readings.reduceOption :=
          ih.mpr ⟨readings, hreadings, rfl⟩
        rw [readLine_eq_ok.mpr hline, hrest]
        cases reading <;> rfl

/-- The first line is named if it is refused. -/
theorem FirstFault.here (h : readLine line = .error fault) :
    FirstFault number (line :: ls) (.badLine number (String.ofList (Text.trim line)) fault) := by
  obtain ⟨fields, hfields, hfault⟩ := readLine_eq_error.mp h
  have hnone : ∀ l ∈ ([] : List (List Char)), ∃ reading, Conforms l reading := by simp
  have hfirst : FirstFault number ([] ++ line :: ls)
      (.badLine (0 + number) (String.ofList (Text.trim line)) fault) :=
    .intro hnone hfields hfault (trimmed_iff.mpr rfl)
  rwa [List.nil_append, Nat.zero_add] at hfirst

/-- Behind a line that conforms, the first fault of the others is the first of all. -/
theorem FirstFault.later {reading : Option Production} (hline : Conforms line reading)
    (h : FirstFault (number + 1) ls e) : FirstFault number (line :: ls) e := by
  cases h with
  | @intro before after _ _ _ _ hbefore hfields hfault htext =>
    have hbefore' : ∀ l ∈ line :: before, ∃ reading, Conforms l reading :=
      List.forall_mem_cons.mpr ⟨⟨reading, hline⟩, hbefore⟩
    -- one more line before the fault, counted from one number lower
    have hnumber : before.length + (number + 1) = (line :: before).length + number := by
      rw [List.length_cons, Nat.add_right_comm, Nat.add_assoc]
    rw [hnumber]
    exact .intro hbefore' hfields hfault htext

/-- The first fault is that of the first line, or the first line is accepted and it is that of the
others. -/
theorem firstFault_cons_iff :
    FirstFault number (line :: ls) e ↔
      (∃ fault, readLine line = .error fault ∧
        e = .badLine number (String.ofList (Text.trim line)) fault) ∨
      ∃ reading, readLine line = .ok reading ∧ FirstFault (number + 1) ls e := by
  constructor
  · generalize hls : line :: ls = ls'
    intro h
    cases h with
    | @intro before after fields bad text fault hbefore hfields hfault htext =>
      -- either no line stands before the one named, or the first conforms
      cases before with
      | nil =>
        cases hls
        left
        refine ⟨fault, readLine_eq_error.mpr ⟨fields, hfields, hfault⟩, ?_⟩
        rw [htext.trim_eq, List.length_nil, Nat.zero_add]
      | cons l before =>
        cases hls
        obtain ⟨⟨reading, hline⟩, hbefore⟩ := List.forall_mem_cons.mp hbefore
        right
        refine ⟨reading, readLine_eq_ok.mpr hline, ?_⟩
        rw [List.length_cons, Nat.add_assoc, Nat.add_comm 1 number]
        exact .intro hbefore hfields hfault htext
  · rintro (⟨fault, hline, rfl⟩ | ⟨reading, hline, h⟩)
    · exact .here hline
    · exact .later (readLine_eq_ok.mp hline) h

/-- Lines are refused exactly for the first fault among them. -/
theorem readNumbered_eq_error :
    readNumbered (ls.zipIdx number) = .error e ↔ FirstFault number ls e := by
  induction ls generalizing number with
  | nil =>
    constructor
    · rintro ⟨⟩
    · generalize hls : ([] : List (List Char)) = ls
      rintro ⟨⟩
      simp at hls
  | cons line ls ih =>
    rw [firstFault_cons_iff, ← ih, List.zipIdx_cons, readNumbered]
    split
    · next fault hline => simp [hline, eq_comm]
    · next hline => simp [hline]
    · next p hline => simp [hline, map_eq_error]

end Lines

/-! ## The whole text -/

section Text

variable {text : String} {ps : List Production} {e : SourceError}

theorem readProductions_eq_ok_iff :
    readProductions text = .ok ps ↔ readLines text = .ok ps ∧ ps ≠ [] := by
  unfold readProductions
  rw [bind_eq_ok]
  constructor
  · rintro ⟨ps', hread, h⟩
    cases ps' with
    | nil => cases h
    | cons p ps' =>
      cases h
      exact ⟨hread, List.cons_ne_nil p ps'⟩
  · rintro ⟨hread, ne⟩
    refine ⟨ps, hread, ?_⟩
    cases ps with
    | nil => exact absurd rfl ne
    | cons p ps => rfl

theorem readProductions_eq_error_iff :
    readProductions text = .error e ↔
      readLines text = .error e ∨ (readLines text = .ok [] ∧ e = .noProductions) := by
  unfold readProductions
  rw [bind_eq_error]
  apply or_congr_right
  constructor
  · rintro ⟨ps, hread, h⟩
    cases ps with
    | nil =>
      cases h
      exact ⟨hread, rfl⟩
    | cons p ps => cases h
  · rintro ⟨hread, rfl⟩
    exact ⟨[], hread, rfl⟩

/-- Lines that all conform and give no production are blank. -/
theorem conforms_none_iff {ls : List (List Char)} :
    (∃ readings, List.Forall₂ Conforms ls readings ∧ readings.reduceOption = []) ↔
      ∀ line ∈ ls, LaidOut [] line := by
  induction ls with
  | nil => simp
  | cons line ls ih =>
    rw [List.forall_mem_cons, ← ih]
    constructor
    · rintro ⟨_, hall, hnone⟩
      cases hall with
      | cons hline hreadings =>
        cases hline with
        | blank h => exact ⟨h, _, hreadings, hnone⟩
        | production => simp at hnone
    · rintro ⟨hline, readings, hreadings, hnone⟩
      exact ⟨none :: readings, .cons (.blank hline) hreadings, hnone⟩

/-- Among blank lines there is no first fault. -/
theorem FirstFault.not_blank {number : Nat} {ls : List (List Char)} (h : FirstFault number ls e) :
    ¬∀ line ∈ ls, LaidOut [] line := by
  intro hblank
  cases h with
  | @intro before after fields bad _ _ _ hfields hfault _ =>
    have hbad : LaidOut [] bad := hblank bad (by simp)
    have hnil : fields = [] := hfields.fields_eq.symm.trans hbad.fields_eq
    rw [hnil] at hfault
    cases hfault

theorem FirstFault.lineNumber_ne_zero {ls : List (List Char)} (h : FirstFault 1 ls e) :
    e.lineNumber ≠ 0 := by
  cases h
  exact Nat.succ_ne_zero _

theorem readProductions_eq_ok :
    readProductions text = .ok ps ↔
      ps ≠ [] ∧ ∃ readings, List.Forall₂ Conforms (Text.lines text.toList) readings ∧
        readings.reduceOption = ps := by
  rw [readProductions_eq_ok_iff, and_comm]
  exact and_congr_right fun _ => readNumbered_eq_ok

theorem readProductions_eq_error :
    readProductions text = .error e ↔ Blames (Text.lines text.toList) e := by
  rw [readProductions_eq_error_iff]
  have herror : readLines text = .error e ↔ FirstFault 1 (Text.lines text.toList) e :=
    readNumbered_eq_error
  have hnone : readLines text = .ok [] ↔ ∀ line ∈ Text.lines text.toList, LaidOut [] line :=
    readNumbered_eq_ok.trans conforms_none_iff
  rw [herror, hnone]
  constructor
  · rintro (h | ⟨hblank, rfl⟩)
    · exact .badLine h
    · exact .noProductions hblank
  · intro h
    cases h with
    | noProductions hblank => exact .inr ⟨hblank, rfl⟩
    | badLine h => exact .inl h

/-- **The reader's language.**  A text is put together from its lines in one way.  It is accepted
with the productions `ps` exactly if all of its lines conform and `ps`, which is not empty, are the
productions that they state.  It is refused with an error exactly if its lines are to blame for
that error, and the error has the line number zero exactly if all lines are blank. -/
theorem readProductions_characterised (text : String) :
    ∃ ls, (∀ ls', LinesOf text.toList ls' ↔ ls' = ls) ∧
      (∀ ps, readProductions text = .ok ps ↔
        ps ≠ [] ∧ ∃ readings, List.Forall₂ Conforms ls readings ∧ readings.reduceOption = ps) ∧
      (∀ e, readProductions text = .error e ↔ Blames ls e) ∧
      ∀ e, readProductions text = .error e →
        (e.lineNumber = 0 ↔ ∀ line ∈ ls, LaidOut [] line) := by
  refine ⟨Text.lines text.toList, fun _ => Text.linesOf_iff, fun _ => readProductions_eq_ok,
    fun _ => readProductions_eq_error, ?_⟩
  intro e h
  cases readProductions_eq_error.mp h with
  | noProductions hblank => exact iff_of_true rfl hblank
  | badLine hfirst =>
    exact iff_of_false hfirst.lineNumber_ne_zero hfirst.not_blank

/-- The bracket of `(x` is blamed on the second line, with its number and its text; the comment
before it states nothing and is no fault. -/
theorem readProductions_bracket :
    ∃ ls, LinesOf "# none yet\n1 S (x".toList ls ∧
      Blames ls (.badLine 2 "1 S (x" (.badSymbol "(x")) ∧ ¬∀ line ∈ ls, LaidOut [] line := by
  obtain ⟨ls, hlines, -, herror, hnumber⟩ :=
    readProductions_characterised "# none yet\n1 S (x"
  have hread : readProductions "# none yet\n1 S (x" =
      .error (.badLine 2 "1 S (x" (.badSymbol "(x")) := by
    decide +kernel
  have hblank := mt (hnumber _ hread).mpr (by decide)
  exact ⟨ls, (hlines ls).mpr rfl, (herror _).mp hread, hblank⟩

/-! ## What is read could be stated -/

theorem Conforms.wellFormed {line : List Char} {p : Production} (h : Conforms line (some p)) :
    WellFormed p := by
  cases h with
  | production _ hstates =>
    cases hstates with
    | intro _ hp => exact hp

/-- Every production that is read is one that a line can state. -/
theorem wellFormed_of_readProductions (h : readProductions text = .ok ps) :
    ∀ p ∈ ps, WellFormed p := by
  obtain ⟨-, readings, hall, rfl⟩ := readProductions_eq_ok.mp h
  intro p hp
  have hmem : some p ∈ readings := List.reduceOption_mem_iff.mp hp
  -- each reading is kept together with the line that it was read from
  have hstated : List.Forall₂ (fun reading line => (∀ p, reading = some p → WellFormed p) ∧
      Conforms line reading) readings (Text.lines text.toList) := by
    apply hall.flip.imp
    rintro reading line hline
    refine ⟨?_, hline⟩
    rintro p rfl
    exact hline.wellFormed
  exact ((List.forall₂_and_left _ _).mp hstated).1 (some p) hmem p rfl

end Text

end Source

end PhraseGrammar
