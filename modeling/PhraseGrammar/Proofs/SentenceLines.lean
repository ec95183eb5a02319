import PhraseGrammar.Proofs.LineLayout
import PhraseGrammar.Sentence

/-!
# The line of a sentence

A sentence is written on a line as its words with single spaces between them, and its mark, if it
has one, right after the last word.  Where the words are made of letters only, the same sentence is
read from the line again: no space is missing between two words, and nothing in a word is dropped.

## Main statements

- `lettersOfFields_append_blank`, `lettersOfFields_of_not_blank`: the words of a text, by its blanks.
- `lettersOfFields_line`: the words are found on the line.
- `finalMark_line`: so is the mark, and a letter is not taken for one.
- `ofLine_line`: a proper sentence is read back from its line.
-/

namespace PhraseGrammar.Sentence

open Text (isBlank)

/-! ## Proper sentences -/

/-- The words are letters, at least one each, and the mark ends sentences. -/
structure Proper (s : Sentence) : Prop where
  ne_empty : ∀ word ∈ s.words, word.toList ≠ []
  letters : ∀ word ∈ s.words, ∀ c ∈ word.toList, c.isAlpha = true
  mark : ∀ c ∈ s.mark, isMark c = true

/-- The sentence on a line of its own. -/
def line (s : Sentence) : String :=
  " ".intercalate s.words ++ String.ofList s.mark.toList

theorem toList_line (s : Sentence) :
    s.line.toList = [' '].intercalate (s.words.map String.toList) ++ s.mark.toList := by
  simp [line, String.toList_intercalate]

/-! ## Letters and marks -/

variable {c : Char}

/-- The code points of letters, and of a few characters between them. -/
theorem toNat_of_isAlpha (h : c.isAlpha = true) : 0x40 < c.toNat ∧ c.toNat < 0x7b := by
  have hcase : c.isUpper = true ∨ c.isLower = true := (Bool.or_eq_true _ _).mp h
  -- the two ranges of letters, of which neither leaves ASCII
  rcases hcase with hupper | hlower
  · have hrange : 'A'.val ≤ c.val ∧ c.val ≤ 'Z'.val := of_decide_eq_true hupper
    rw [UInt32.le_iff_toNat_le, UInt32.le_iff_toNat_le] at hrange
    have hcode : 0x41 ≤ c.toNat ∧ c.toNat ≤ 0x5a := hrange
    omega
  · have hboth : (decide ('a'.val ≤ c.val) && decide (c.val ≤ 'z'.val)) = true := hlower
    rw [Bool.and_eq_true, decide_eq_true_eq, decide_eq_true_eq, UInt32.le_iff_toNat_le,
      UInt32.le_iff_toNat_le] at hboth
    have hcode : 0x61 ≤ c.toNat ∧ c.toNat ≤ 0x7a := hboth
    omega

theorem inField_of_isAlpha (h : c.isAlpha = true) : Source.inField c = true := by
  obtain ⟨hlow, hhigh⟩ := toNat_of_isAlpha h
  have hhash : c ≠ '#' := by
    rintro rfl
    exact absurd h (by decide)
  exact Source.inField_of_visible (by omega) (by omega) hhash

theorem isMark_iff : isMark c = true ↔ c = '.' ∨ c = '!' ∨ c = '?' := by
  simp [isMark, or_assoc]

theorem not_isAlpha_of_isMark (h : isMark c = true) : c.isAlpha = false := by
  rcases isMark_iff.mp h with rfl | rfl | rfl <;> decide

theorem not_blank_of_isAlpha (h : c.isAlpha = true) : isBlank c = false :=
  Source.not_blank_of_inField (inField_of_isAlpha h)

theorem not_blank_of_isMark (h : isMark c = true) : isBlank c = false := by
  rcases isMark_iff.mp h with rfl | rfl | rfl <;> decide

/-! ## Words on a line -/

variable {word tail : List Char}

/-- No field goes beyond a blank, so the two sides of one have their words to themselves. -/
theorem lettersOfFields_append_blank (hblank : isBlank c = true) (front rest : List Char) :
    lettersOfFields (front ++ c :: rest) = lettersOfFields front ++ lettersOfFields rest := by
  unfold lettersOfFields Text.fields
  rw [List.splitOnP_append_cons front rest hblank, List.filter_append, List.map_append,
    List.filter_append]

/-- A text without blanks is at most one word, made of its letters. -/
theorem lettersOfFields_of_not_blank {cs : List Char} (h : ∀ c ∈ cs, isBlank c = false) :
    lettersOfFields cs =
      if (cs.filter Char.isAlpha).isEmpty then [] else [cs.filter Char.isAlpha] := by
  unfold lettersOfFields Text.fields
  rw [List.splitOnP_eq_singleton h]
  cases cs with
  | nil => rfl
  | cons c cs =>
    have hsome : [c :: cs].filter (fun field => !field.isEmpty) = [c :: cs] := rfl
    rw [hsome, List.map_singleton]
    cases (c :: cs).filter Char.isAlpha <;> rfl

/-- A word that ends at a space is the first word of the line. -/
theorem lettersOfFields_space (ne : word ≠ []) (hword : ∀ c ∈ word, c.isAlpha = true)
    (rest : List Char) : lettersOfFields (word ++ ' ' :: rest) = word :: lettersOfFields rest := by
  have hfilter : word.filter Char.isAlpha = word := List.filter_eq_self.mpr hword
  rw [lettersOfFields_append_blank (by decide),
    lettersOfFields_of_not_blank fun c hc => not_blank_of_isAlpha (hword c hc), hfilter]
  simp [ne]

/-- At the end of a line, marks are dropped from the last word. -/
theorem lettersOfFields_last (hword : ∀ c ∈ word, c.isAlpha = true)
    (htail : ∀ c ∈ tail, isMark c = true) :
    lettersOfFields (word ++ tail) = if word.isEmpty then [] else [word] := by
  have hletters : (word ++ tail).filter Char.isAlpha = word := by
    have hnone : tail.filter Char.isAlpha = [] :=
      List.filter_eq_nil_iff.mpr fun c hc => by simp [not_isAlpha_of_isMark (htail c hc)]
    rw [List.filter_append, hnone, List.filter_eq_self.mpr hword, List.append_nil]
  have hall : ∀ c ∈ word ++ tail, isBlank c = false := by
    rw [List.forall_mem_append]
    exact ⟨fun c hc => not_blank_of_isAlpha (hword c hc),
      fun c hc => not_blank_of_isMark (htail c hc)⟩
  rw [lettersOfFields_of_not_blank hall, hletters]

/-- On a line of words with single spaces, the words are found, whatever mark comes after them. -/
theorem lettersOfFields_line {words : List (List Char)} (ne : ∀ word ∈ words, word ≠ [])
    (hwords : ∀ word ∈ words, ∀ c ∈ word, c.isAlpha = true)
    (htail : ∀ c ∈ tail, isMark c = true) :
    lettersOfFields ([' '].intercalate words ++ tail) = words := by
  -- every word but the last ends at a space
  induction words with
  | nil =>
    have hnone : ∀ c ∈ ([] : List Char), c.isAlpha = true := by simp
    simpa using lettersOfFields_last hnone htail
  | cons word words ih =>
    obtain ⟨hne, hnes⟩ := List.forall_mem_cons.mp ne
    obtain ⟨hword, hrest⟩ := List.forall_mem_cons.mp hwords
    cases words with
    | nil => simp [List.intercalate_singleton, lettersOfFields_last hword htail, hne]
    | cons next words =>
      rw [List.intercalate_cons_cons, List.append_assoc, List.append_assoc,
        List.singleton_append, lettersOfFields_space hne hword, ih hnes hrest]

/-- What stands on the line of words is a space or in a word. -/
theorem mem_intercalate_space {words : List (List Char)}
    (h : c ∈ [' '].intercalate words) : c = ' ' ∨ ∃ word ∈ words, c ∈ word := by
  induction words with
  | nil => exact absurd h List.not_mem_nil
  | cons word words ih =>
    cases words with
    | nil =>
      rw [List.intercalate_singleton] at h
      exact .inr ⟨word, List.mem_cons_self, h⟩
    | cons next words =>
      rw [List.intercalate_cons_cons, List.mem_append, List.mem_append, List.mem_singleton] at h
      rcases h with (hword | rfl) | hrest
      · exact .inr ⟨word, List.mem_cons_self, hword⟩
      · exact .inl rfl
      · refine (ih hrest).imp_right ?_
        rintro ⟨word', hword', hc⟩
        exact ⟨word', List.mem_cons_of_mem _ hword', hc⟩

/-! ## The mark of a line -/

/-- A line that does not end in a blank has its mark at the end or not at all. -/
theorem finalMark_append (hblank : isBlank c = false) (cs : List Char) :
    finalMark (cs ++ [c]) = if isMark c then some c else none := by
  simp [finalMark, Text.trimEnd, hblank, Option.filter]

/-- Words end in a letter. -/
theorem exists_last_letter {words : List (List Char)} (ne : ∀ word ∈ words, word ≠ [])
    (hwords : ∀ word ∈ words, ∀ c ∈ word, c.isAlpha = true) (hsome : words ≠ []) :
    ∃ front c, [' '].intercalate words = front ++ [c] ∧ c.isAlpha = true := by
  -- the last letter of the last word is the last character of the line
  induction words with
  | nil => exact absurd rfl hsome
  | cons word words ih =>
    obtain ⟨hne, hnes⟩ := List.forall_mem_cons.mp ne
    obtain ⟨hword, hrest⟩ := List.forall_mem_cons.mp hwords
    cases words with
    | nil =>
      rcases List.eq_nil_or_concat word with rfl | ⟨front, c, rfl⟩
      · exact absurd rfl hne
      · exact ⟨front, c, by simp [List.intercalate_singleton], hword c (by simp)⟩
    | cons next words =>
      obtain ⟨front, c, hline, hc⟩ := ih hnes hrest (List.cons_ne_nil _ _)
      refine ⟨word ++ [' '] ++ front, c, ?_, hc⟩
      rw [List.intercalate_cons_cons, hline, ← List.append_assoc]

/-- The mark of a proper sentence is found on its line. -/
theorem finalMark_line {s : Sentence} (h : s.Proper) : finalMark s.line.toList = s.mark := by
  rw [toList_line]
  cases hmark : s.mark with
  | some c =>
    have hc : isMark c = true := h.mark c hmark
    have hblank := not_blank_of_isMark hc
    rw [Option.toList_some, finalMark_append hblank, if_pos hc]
  -- without a mark the line is empty, or it ends in a letter
  | none =>
    rw [Option.toList_none, List.append_nil]
    by_cases hsome : s.words.map String.toList = []
    · rw [hsome]
      rfl
    · obtain ⟨front, c, hline, hc⟩ := exists_last_letter
        (List.forall_mem_map.mpr h.ne_empty) (List.forall_mem_map.mpr h.letters) hsome
      have hblank := not_blank_of_isAlpha hc
      rw [hline, finalMark_append hblank, if_neg]
      intro hmarked
      rw [not_isAlpha_of_isMark hmarked] at hc
      cases hc

/-! ## Sentences -/

/-- A proper sentence is read back from its line. -/
theorem ofLine_line {s : Sentence} (h : s.Proper) : ofLine s.line = s := by
  have hwords : lettersOfFields s.line.toList = s.words.map String.toList := by
    rw [toList_line]
    exact lettersOfFields_line (List.forall_mem_map.mpr h.ne_empty)
      (List.forall_mem_map.mpr h.letters) fun c hc => h.mark c (by simpa using hc)
  unfold ofLine
  rw [hwords, finalMark_line h, List.map_map]
  simp [Function.comp_def]

/-- The words of a sentence are letters, and its mark ends sentences, whatever the line. -/
theorem letters_ofLine (text : String) :
    (∀ word ∈ (ofLine text).words, ∀ c ∈ word.toList, c.isAlpha = true) ∧
      ∀ c ∈ (ofLine text).mark, isMark c = true := by
  constructor
  -- a word is what is left of a field when all but letters is dropped
  · intro word hword c hc
    obtain ⟨letters, hletters, rfl⟩ := List.mem_map.mp hword
    obtain ⟨field, -, rfl⟩ := List.mem_map.mp (List.mem_filter.mp hletters).1
    rw [String.toList_ofList] at hc
    exact (List.mem_filter.mp hc).2
  · intro c hc
    exact (Option.mem_filter_iff.mp hc).2

/-- The line of a proper sentence has ASCII characters only, and no controls. -/
theorem Proper.toNat_line {s : Sentence} (h : s.Proper) :
    ∀ c ∈ s.line.toList, 0x20 ≤ c.toNat ∧ c.toNat < 0x80 := by
  intro c hc
  rw [toList_line, List.mem_append] at hc
  rcases hc with hc | hc
  · rcases mem_intercalate_space hc with rfl | ⟨word, hword, hmem⟩
    · decide
    · obtain ⟨w, hw, rfl⟩ := List.mem_map.mp hword
      have hrange := toNat_of_isAlpha (h.letters w hw c hmem)
      omega
  · rcases isMark_iff.mp (h.mark c (by simpa using hc)) with rfl | rfl | rfl <;> decide

/-- Words that a grammar does not expand all stay. -/
theorem withoutNonterminals_eq {s : Sentence} {g : Grammar}
    (h : ∀ word ∈ s.words, g.isNonterminal word = false) : s.withoutNonterminals g = s := by
  have hkept : (s.words.filter fun word => !g.isNonterminal word) = s.words :=
    List.filter_eq_self.mpr fun word hword => by simp [h word hword]
  rw [withoutNonterminals, hkept]

end PhraseGrammar.Sentence
