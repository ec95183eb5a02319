import PhraseGrammar.Grammar.Printer
import PhraseGrammar.Proofs.ReadingGrammars

/-!
# Printed grammars are read back

The text of a grammar is a comment and one line for each production.  It belongs to the language
that the reader accepts exactly if every production could be stated there, and then the reader
gives the productions that were printed.  Grammars that were read have only such productions, so
printing and reading again changes nothing about them.

## Main statements

- `WellFormed.conforms_text`: the line of a production that can be stated states it.
- `Grammar.text_round_trip`: which productions are read back, and that all that were read are.
-/

namespace PhraseGrammar

open Text (isBlank LinesOf)
open Source

/-! ## Printed numbers -/

theorem inField_of_isDigit {c : Char} (h : c.isDigit = true) : inField c = true := by
  have hrange : 48 ≤ c.toNat ∧ c.toNat ≤ 57 := Char.isDigit_iff_toNat.mp h
  have hhash : c ≠ '#' := by
    rintro rfl
    exact absurd h (by decide)
  exact inField_of_visible (by omega) (by omega) hhash

theorem ExponentText.inField {cs : List Char} {e : Int} (h : ExponentText cs e) :
    ∀ c ∈ cs, inField c = true := by
  have hmarks : ∀ mark : Char, mark = 'e' ∨ mark = 'E' → Source.inField mark = true := by
    rintro mark (rfl | rfl) <;> decide
  have hplus : Source.inField '+' = true := by decide
  have hminus : Source.inField '-' = true := by decide
  cases h with
  | absent => simp
  | plain hmark _ hds =>
    simp only [List.forall_mem_cons]
    exact ⟨hmarks _ hmark, fun c hc => inField_of_isDigit (hds c hc)⟩
  | plus hmark _ hds =>
    simp only [List.forall_mem_cons]
    exact ⟨hmarks _ hmark, hplus, fun c hc => inField_of_isDigit (hds c hc)⟩
  | minus hmark _ hds =>
    simp only [List.forall_mem_cons]
    exact ⟨hmarks _ hmark, hminus, fun c hc => inField_of_isDigit (hds c hc)⟩

/-- What denotes a number can stand in a field. -/
theorem DecimalText.isField {cs : List Char} {x : ℚ} (h : DecimalText cs x) : IsField cs := by
  have hpoint : inField '.' = true := by decide
  -- digits, a point and an exponent may all stand in a field, and there is a digit or a point
  cases h with
  | @whole ds es _ ne hds hes =>
    refine ⟨List.append_ne_nil_of_left_ne_nil ne es, ?_⟩
    rw [List.forall_mem_append]
    exact ⟨fun c hc => inField_of_isDigit (hds c hc), hes.inField⟩
  | @point ds fs es _ _ hds hfs hes =>
    refine ⟨by simp, ?_⟩
    simp only [List.forall_mem_append, List.forall_mem_cons]
    exact ⟨fun c hc => inField_of_isDigit (hds c hc), hpoint,
      fun c hc => inField_of_isDigit (hfs c hc), hes.inField⟩

/-- The text of a probability is a field that denotes it. -/
theorem numberText_text {value : Double} (h : value.IsProbability) :
    IsField value.text.toList ∧ NumberText value.text.toList value := by
  obtain ⟨m, rfl, -, hone⟩ := h
  -- infinity has no decimal, but it is above one
  have hfinite : m ≠ .infinity := by
    rintro rfl
    exact absurd hone (by decide)
  obtain ⟨x, hx, hnearest⟩ := m.isNearest_text hfinite
  have htext : (Double.ofMagnitude m).text.toList = m.text := by
    simp [Double.ofMagnitude, Double.text]
  rw [htext]
  exact ⟨hx.isField, x, m, .plain hx, hnearest, rfl⟩

/-! ## Printed productions -/

namespace Source

variable {p : Production}

/-- A production is printed with tabs between its probability, its left-hand side and its right-hand
side. -/
theorem text_toList (p : Production) :
    p.text.toList =
      p.probability.text.toList ++ '\t' :: (p.lhs.toList ++ '\t' :: p.rhs.text.toList) := by
  simp [Production.text]

theorem Continues.cons {c : Char} {field rest : List Char} {fields : List (List Char)}
    (hc : isBlank c = true) (hfield : IsField field) (hrest : Continues fields rest) :
    Continues (field :: fields) (c :: (field ++ rest)) := by
  have hgap : AllBlank [c] := by simpa [AllBlank] using hc
  exact .next (List.cons_ne_nil c []) hgap hfield hrest

theorem Continues.nil : Continues [] [] := by
  have hspace : AllBlank [] := by simp [AllBlank]
  exact .done hspace (.inl rfl)

/-- A production that a text can state is printed as a line of its probability and its symbols. -/
theorem WellFormed.laidOut_text (h : WellFormed p) :
    LaidOut (p.probability.text.toList :: p.symbols.map String.toList) p.text.toList := by
  obtain ⟨hprobability, hsymbols⟩ := h
  have hfield := (numberText_text hprobability).1
  have htab : isBlank '\t' = true := by decide
  have hspace : isBlank ' ' = true := by decide
  have hfront : AllBlank [] := by simp [AllBlank]
  rw [text_toList]
  obtain ⟨lhs, rhs, value⟩ := p
  -- a word or a pair; only the pair has a space on its right-hand side
  cases rhs with
  | word w =>
    have hlhs := (hsymbols lhs (by simp [Production.symbols])).isField
    have hw := (hsymbols w (by simp [Production.symbols, RightSide.symbols])).isField
    have hrest := Continues.cons htab hlhs (.cons htab hw .nil)
    rw [List.append_nil] at hrest
    exact .fields hfront hfield hrest
  | pair a b =>
    have hlhs := (hsymbols lhs (by simp [Production.symbols])).isField
    have ha := (hsymbols a (by simp [Production.symbols, RightSide.symbols])).isField
    have hb := (hsymbols b (by simp [Production.symbols, RightSide.symbols])).isField
    have hrest := Continues.cons htab hlhs (.cons htab ha (.cons hspace hb .nil))
    rw [List.append_nil] at hrest
    have htext : (RightSide.pair a b).text.toList = a.toList ++ ' ' :: b.toList := by
      simp [RightSide.text]
    rw [htext]
    exact .fields hfront hfield hrest

/-- The printed line states the production. -/
theorem WellFormed.conforms_text (h : WellFormed p) : Conforms p.text.toList (some p) := by
  have hnumber := (numberText_text h.probability).2
  exact .production h.laidOut_text (.intro hnumber h)

/-! ## Printed lines -/

theorem IsField.feed_not_mem {cs : List Char} (h : IsField cs) : '\n' ∉ cs := by
  intro hfeed
  exact absurd (h.2 '\n' hfeed) (by decide)

theorem IsField.getLast?_ne_return {cs : List Char} (h : IsField cs) (front : List Char) :
    (front ++ cs).getLast? ≠ some '\r' := by
  intro hreturn
  -- the last character is one of the field, and a carriage return is white space
  rw [List.getLast?_append_of_ne_nil _ h.1] at hreturn
  exact absurd (h.2 '\r' (List.mem_of_getLast? hreturn)) (by decide)

/-- A printed production is one line. -/
theorem WellFormed.feed_not_mem (h : WellFormed p) : '\n' ∉ p.text.toList := by
  obtain ⟨hrange, hsymbols⟩ := h
  have hprobability := (numberText_text hrange).1.feed_not_mem
  have hsymbol : ∀ s ∈ p.symbols, '\n' ∉ s.toList :=
    fun s hs => (hsymbols s hs).isField.feed_not_mem
  rw [text_toList]
  obtain ⟨lhs, rhs, value⟩ := p
  -- its symbols have no line feed in them, and neither have the tabs and the space between them
  cases rhs with
  | word w =>
    simp only [Production.symbols, RightSide.symbols, List.forall_mem_cons] at hsymbol
    simp [RightSide.text, hprobability, hsymbol]
  | pair a b =>
    simp only [Production.symbols, RightSide.symbols, List.forall_mem_cons] at hsymbol
    simp [RightSide.text, hprobability, hsymbol]

/-- The text of a production ends with its last symbol. -/
theorem exists_text_eq_append (p : Production) :
    ∃ front, ∃ s ∈ p.symbols, p.text.toList = front ++ s.toList := by
  rw [text_toList]
  obtain ⟨lhs, rhs, value⟩ := p
  cases rhs with
  | word w =>
    refine ⟨value.text.toList ++ '\t' :: (lhs.toList ++ ['\t']), w, ?_, ?_⟩
    · simp [Production.symbols, RightSide.symbols]
    · simp [RightSide.text]
  | pair a b =>
    refine ⟨value.text.toList ++ '\t' :: (lhs.toList ++ '\t' :: (a.toList ++ [' '])), b, ?_, ?_⟩
    · simp [Production.symbols, RightSide.symbols]
    · simp [RightSide.text]

/-- A printed production does not end with a carriage return. -/
theorem WellFormed.getLast?_ne_return (h : WellFormed p) : p.text.toList.getLast? ≠ some '\r' := by
  obtain ⟨front, s, hs, htext⟩ := exists_text_eq_append p
  rw [htext]
  exact (h.symbols s hs).isField.getLast?_ne_return front

end Source

/-! ## Printed grammars -/

namespace Grammar

open Source

variable {g : Grammar} {ps : List Production}

/-- The text of a grammar is its start line and the lines of its productions, each with its
end. -/
theorem toList_text (g : Grammar) :
    g.text.toList = ("# start: ".toList ++ g.start.toList) ++
      '\n' :: g.productions.flatMap fun p => p.text.toList ++ ['\n'] := by
  have hlines : (g.productions.map fun p => p.text ++ "\n").flatMap String.toList =
      g.productions.flatMap fun p => p.text.toList ++ ['\n'] := by
    rw [List.flatMap_map]
    simp
  rw [text, startLine, String.toList_append, String.toList_join, hlines]
  simp

/-- The printed productions are the lines of their text. -/
theorem linesOf_productions (h : ∀ p ∈ ps, WellFormed p) :
    LinesOf (ps.flatMap fun p => p.text.toList ++ ['\n']) (ps.map fun p => p.text.toList) := by
  -- each production is one line and its end
  induction ps with
  | nil => exact .none
  | cons p ps ih =>
    obtain ⟨hp, hps⟩ := List.forall_mem_cons.mp h
    rw [List.flatMap_cons, List.append_assoc, List.map_cons]
    exact .feed hp.feed_not_mem hp.getLast?_ne_return (ih hps)

/-- Each printed line states its production. -/
theorem conforms_productions (h : ∀ p ∈ ps, WellFormed p) :
    List.Forall₂ Conforms (ps.map fun p => p.text.toList) (ps.map some) := by
  rw [List.forall₂_map_left_iff, List.forall₂_map_right_iff, List.forall₂_same]
  exact fun p hp => (h p hp).conforms_text

/-- The lines of a grammar's text are the start line and those of the productions. -/
theorem linesOf_text (h : ∀ p ∈ g.productions, WellFormed p) :
    LinesOf g.text.toList
      (("# start: ".toList ++ g.start.toList) :: g.productions.map fun p => p.text.toList) := by
  have hhead := h _ (List.head_mem g.productions_ne_nil)
  have hstart : IsField g.start.toList := (hhead.symbols g.start List.mem_cons_self).isField
  have hfeed : '\n' ∉ "# start: ".toList ++ g.start.toList := by
    rw [List.mem_append]
    rintro (hfront | hback)
    · exact absurd hfront (by decide)
    · exact hstart.feed_not_mem hback
  rw [toList_text]
  exact .feed hfeed (hstart.getLast?_ne_return _) (linesOf_productions h)

theorem conforms_startLine (start : List Char) : Conforms ("# start: ".toList ++ start) none := by
  have hspace : AllBlank [] := by simp [AllBlank]
  have hcomment : OptionalComment ("# start: ".toList ++ start) :=
    .inr ⟨" start: ".toList ++ start, rfl⟩
  have hline : LaidOut [] ([] ++ ("# start: ".toList ++ start)) := .blank hspace hcomment
  exact .blank hline

/-- Productions that can be stated are read from the text of their grammar. -/
theorem readProductions_text (h : ∀ p ∈ g.productions, WellFormed p) :
    readProductions g.text = .ok g.productions := by
  rw [readProductions_eq_ok, ← Text.linesOf_iff.mp (linesOf_text h)]
  -- the start line is a comment and reads as nothing
  refine ⟨g.productions_ne_nil, none :: g.productions.map some, ?_, ?_⟩
  · exact .cons (conforms_startLine _) (conforms_productions h)
  · rw [List.reduceOption_cons_of_none, List.reduceOption, List.filterMap_map]
    exact List.filterMap_some

/-! ## Reading a grammar again -/

/-- A grammar is determined by its productions. -/
theorem eq_of_productions {g g' : Grammar} (h : g.productions = g'.productions) : g = g' := by
  obtain ⟨ps, ne, index, hindex⟩ := g
  obtain ⟨ps', ne', index', hindex'⟩ := g'
  obtain rfl : ps = ps' := h
  -- the productions determine the index
  rw [← hindex'] at hindex
  subst hindex
  rfl

/-- A grammar is read where its productions are. -/
theorem read_eq_ok_iff {text : String} :
    Grammar.read text = .ok g ↔ readProductions text = .ok g.productions := by
  rw [readProductions_eq_ok_iff, Grammar.read, Except.bind_eq_ok]
  -- the productions that are read become a grammar if there are any
  constructor
  · rintro ⟨ps, hread, h⟩
    by_cases ne : ps ≠ []
    · have hlist : ofList? ps = some (ofProductions ps ne) := dif_pos ne
      rw [hlist] at h
      cases h
      exact ⟨hread, ne⟩
    · have hlist : ofList? ps = none := dif_neg ne
      rw [hlist] at h
      cases h
  · rintro ⟨hread, ne⟩
    have hlist : ofList? g.productions = some g := by
      rw [ofList?, dif_pos ne]
      exact congrArg some (eq_of_productions rfl)
    refine ⟨g.productions, hread, ?_⟩
    rw [hlist]
    rfl

/-- A pair and a word, read from two lines. -/
theorem read_twoLines :
    Grammar.read "1 S S S\n1 S x" = .ok (ofProductions
      [⟨"S", .pair "S" "S", .ofMagnitude .one⟩, ⟨"S", .word "x", .ofMagnitude .one⟩]
      (List.cons_ne_nil _ _)) := by
  apply read_eq_ok_iff.mpr
  decide +kernel

/-- **Grammars survive their text.**  The productions of a grammar are read from its text exactly
if each has a probability and symbols that a text can state; and a grammar that was read is read
again from its text, with its productions in their order and its start symbol. -/
theorem text_round_trip :
    (∀ (ps : List Production) (ne : ps ≠ []),
      readProductions (ofProductions ps ne).text = .ok ps ↔ ∀ p ∈ ps, WellFormed p) ∧
      ∀ (text : String) (g : Grammar), Grammar.read text = .ok g → Grammar.read g.text = .ok g := by
  constructor
  · intro ps ne
    constructor
    · exact wellFormed_of_readProductions
    · intro h
      have hproductions : ∀ p ∈ (ofProductions ps ne).productions, WellFormed p := h
      exact readProductions_text hproductions
  · intro text g h
    -- what was read could be stated, so it is stated again by the printed lines
    have hread := read_eq_ok_iff.mp h
    have hagain := readProductions_text (wellFormed_of_readProductions hread)
    exact read_eq_ok_iff.mpr hagain

/-- A production is stated with a sign, an exponent and a comment: it is read as the plain one, and
both its grammar and its productions are read again from their text. -/
theorem text_round_trip_word :
    ∃ g : Grammar, g.productions = [⟨"S", .word "x", .ofMagnitude .one⟩] ∧
      Grammar.read " +1.0e0\tS x# said once" = .ok g ∧ Grammar.read g.text = .ok g ∧
      readProductions g.text = .ok g.productions := by
  have hone : readProductions " +1.0e0\tS x# said once" =
      .ok [⟨"S", .word "x", .ofMagnitude .one⟩] := by
    decide +kernel
  have ne : [(⟨"S", .word "x", .ofMagnitude .one⟩ : Production)] ≠ [] := List.cons_ne_nil _ _
  have hread : Grammar.read " +1.0e0\tS x# said once" = .ok (ofProductions _ ne) :=
    read_eq_ok_iff.mpr hone
  have hprobability : (Double.ofMagnitude .one).IsProbability := ⟨_, rfl, by decide, by decide⟩
  have hsymbol : ∀ c, isBlank c = false ∧ c ≠ '#' ∧ c ≠ '(' ∧ c ≠ ')' → IsSymbol [c] :=
    fun c hc => ⟨List.cons_ne_nil c [], List.forall_mem_singleton.mpr hc⟩
  have hlhs : IsSymbol "S".toList := hsymbol 'S' (by decide)
  have hword : IsSymbol "x".toList := hsymbol 'x' (by decide)
  have hp : WellFormed ⟨"S", .word "x", .ofMagnitude .one⟩ :=
    ⟨hprobability, List.forall_mem_cons.mpr ⟨hlhs, List.forall_mem_singleton.mpr hword⟩⟩
  have hagain := (text_round_trip.1 _ ne).mpr (List.forall_mem_singleton.mpr hp)
  exact ⟨_, rfl, hread, text_round_trip.2 _ _ hread, hagain⟩

end Grammar

end PhraseGrammar
