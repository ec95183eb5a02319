import Mathlib.Data.List.Basic
import PhraseGrammar.Proofs.SentenceLines

/-!
# The words and the mark of any line

A sentence is read from a line of arbitrary characters: the line is cut at its blanks, and only
afterwards each field is stripped of what is no letter.  So a blank always parts two words and
nothing else does.  A mark inside a word vanishes without a trace, and a field may vanish as a
whole.

The mark at the end of a line is looked for apart from the words.  It is the first character that
ends sentences and has nothing but blanks after it.  As the blanks in that search are those that
part words, this is the last character of the line that is not blank.

## Main statements

- `lettersOfFields_append`: two texts with a blank between them have their words to themselves.
- `flatten_lettersOfFields`: no letter is lost, and none is moved.
- `inOneWord_iff`: two letters lie in one word where no blank lies between them.
- `finalMark_eq_some_iff`, `finalMark_eq_firstClosing`: the mark by its place, and by its search.
- `ofLine_laws`: all of it for the sentence on a line.
-/

namespace PhraseGrammar.Sentence

open Text (isBlank EndsRun)
open Source (AllBlank)

variable {c : Char} {cs front rest space : List Char}

/-- The letters of a text, in order. -/
def lettersOf (cs : List Char) : List Char :=
  cs.filter Char.isAlpha

@[simp] theorem lettersOf_append (front rest : List Char) :
    lettersOf (front ++ rest) = lettersOf front ++ lettersOf rest :=
  List.filter_append front rest

theorem lettersOf_cons_letter (h : c.isAlpha = true) (cs : List Char) :
    lettersOf (c :: cs) = c :: lettersOf cs :=
  List.filter_cons_of_pos h

/-! ## Cutting a line at blanks -/

theorem lettersOfFields_of_space (hspace : AllBlank space) : lettersOfFields space = [] := by
  rw [lettersOfFields, Source.fields_of_space hspace]
  rfl

/-- A text goes on with new words after a blank, and before one. -/
theorem lettersOfFields_append
    (h : EndsRun (fun c => !isBlank c) front.reverse ∨ EndsRun (fun c => !isBlank c) rest) :
    lettersOfFields (front ++ rest) = lettersOfFields front ++ lettersOfFields rest := by
  -- the blank is the last character of the first text or the first one of the second
  rcases h with hfront | hrest
  · rcases List.eq_nil_or_concat front with rfl | ⟨front, c, rfl⟩
    · rfl
    · have hblank : isBlank c = true := by simpa using hfront
      have hends : lettersOfFields (front ++ [c]) = lettersOfFields front ++ [] :=
        lettersOfFields_append_blank hblank front []
      rw [List.concat_eq_append, hends, List.append_nil, List.append_assoc, List.singleton_append,
        lettersOfFields_append_blank hblank]
  · cases rest with
    | nil => rw [List.append_nil, lettersOfFields_of_space (List.forall_mem_nil _), List.append_nil]
    | cons c rest =>
      have hblank : isBlank c = true := by simpa using hrest
      have hstarts : lettersOfFields (c :: rest) = lettersOfFields rest :=
        lettersOfFields_append_blank hblank [] rest
      rw [lettersOfFields_append_blank hblank, hstarts]

/-- White space between two texts parts their words, however much of it there is. -/
theorem lettersOfFields_append_space (ne : space ≠ []) (hspace : AllBlank space)
    (front rest : List Char) :
    lettersOfFields (front ++ space ++ rest) = lettersOfFields front ++ lettersOfFields rest := by
  have hends : EndsRun (fun c => !isBlank c) (front ++ space).reverse := by
    intro c hc
    rw [List.head?_reverse, List.getLast?_append_of_ne_nil _ ne] at hc
    simpa using hspace c (List.mem_of_getLast? hc)
  have hstarts : EndsRun (fun c => !isBlank c) space := by
    intro c hc
    simpa using hspace c (List.mem_of_head? hc)
  rw [lettersOfFields_append (.inl hends), lettersOfFields_append (.inr hstarts),
    lettersOfFields_of_space hspace, List.append_nil]

/-! ## The letters of a line -/

/-- The pieces of a list hold all of it but the places where it is cut. -/
theorem flatten_splitOnP {α : Type} (p : α → Bool) (xs : List α) :
    (xs.splitOnP p).flatten = xs.filter fun x => !p x := by
  -- a place where the list is cut begins a new piece, any other goes to the first piece
  induction xs with
  | nil => rfl
  | cons x xs ih =>
    rw [List.splitOnP_cons_eq_if_modifyHead]
    by_cases hx : p x = true
    · simp [hx, ih]
    · rw [if_neg hx]
      cases hpieces : xs.splitOnP p with
      | nil => exact absurd hpieces (List.splitOnP_ne_nil p xs)
      | cons piece pieces =>
        rw [hpieces] at ih
        simpa [hx] using ih

/-- The words of a text are made of its letters, none of which is lost or moved. -/
theorem flatten_lettersOfFields (cs : List Char) :
    (lettersOfFields cs).flatten = lettersOf cs := by
  unfold lettersOfFields Text.fields
  rw [List.flatten_filter_not_isEmpty, ← List.filter_flatten, List.flatten_filter_not_isEmpty,
    flatten_splitOnP, List.filter_filter, lettersOf]
  -- a letter is no place where a line is cut
  apply List.filter_congr
  intro c _
  cases hc : c.isAlpha with
  | true => simp [not_blank_of_isAlpha hc]
  | false => rfl

/-! ## Letters of one word -/

/-- `InOneWord words before stretch after`: written one after the other, the words are `before`,
then `stretch`, then `after`, and the whole stretch lies in one of them. -/
def InOneWord (words : List (List Char)) (before stretch after : List Char) : Prop :=
  ∃ front head tail back, words = front ++ (head ++ stretch ++ tail) :: back ∧
    before = front.flatten ++ head ∧ after = tail ++ back.flatten

/-- A stretch that goes on over the end of a word lies in no single one. -/
theorem not_inOneWord_of_append {front back : List (List Char)} {before stretch after : List Char}
    (hbefore : before.length < front.flatten.length)
    (hstretch : front.flatten.length < before.length + stretch.length) :
    ¬ InOneWord (front ++ back) before stretch after := by
  rintro ⟨front', head, tail, back', hwords, rfl, -⟩
  rw [List.length_append] at hbefore hstretch
  -- the word that is said to hold the stretch is on one of the two sides of the cut
  rcases List.append_eq_append_iff.mp hwords with ⟨more, hfront', -⟩ | ⟨more, hfront, hback⟩
  · rw [hfront', List.flatten_append, List.length_append] at hbefore
    omega
  · cases more with
    | nil =>
      rw [hfront, List.append_nil] at hbefore
      omega
    | cons word more =>
      obtain ⟨rfl, -⟩ := List.cons_eq_cons.mp hback
      simp only [hfront, List.flatten_append, List.flatten_cons, List.length_append] at hstretch
      omega

/-- Two letters lie in one word if and only if no blank lies between them. -/
theorem inOneWord_iff {before between after : List Char} {x y : Char} (hx : x.isAlpha = true)
    (hy : y.isAlpha = true) :
    InOneWord (lettersOfFields (before ++ x :: (between ++ y :: after))) (lettersOf before)
        (x :: (lettersOf between ++ [y])) (lettersOf after) ↔
      ∀ c ∈ between, isBlank c = false := by
  constructor
  · intro hword c hc
    by_contra hblank
    rw [Bool.not_eq_false] at hblank
    obtain ⟨first, second, rfl⟩ := List.append_of_mem hc
    -- the blank cuts the line after the first letter and before the second
    have hcut : lettersOfFields (before ++ x :: (first ++ c :: second ++ y :: after)) =
        lettersOfFields (before ++ x :: first) ++ lettersOfFields (second ++ y :: after) := by
      rw [← lettersOfFields_append_blank hblank]
      simp
    rw [hcut] at hword
    refine not_inOneWord_of_append ?_ ?_ hword
    · simp [flatten_lettersOfFields, lettersOf_cons_letter hx]
    · simp [flatten_lettersOfFields, lettersOf_cons_letter hx]
  · intro hbetween
    -- the field that holds both letters goes from the blank before them to the blank after them
    obtain ⟨head, front, hbefore, hhead, hfront⟩ :=
      Text.exists_run (fun c => !isBlank c) before.reverse
    obtain ⟨tail, back, rfl, htail, hback⟩ := Text.exists_run (fun c => !isBlank c) after
    obtain rfl : before = front.reverse ++ head.reverse := by
      rw [← List.reverse_append, ← hbefore, List.reverse_reverse]
    have hfield : ∀ c ∈ head.reverse ++ x :: (between ++ y :: tail), isBlank c = false := by
      simp only [List.mem_append, List.mem_cons, List.mem_reverse]
      rintro c (hc | rfl | hc | rfl | hc)
      · simpa using hhead c hc
      · exact not_blank_of_isAlpha hx
      · exact hbetween c hc
      · exact not_blank_of_isAlpha hy
      · simpa using htail c hc
    have hline : front.reverse ++ head.reverse ++ x :: (between ++ y :: (tail ++ back)) =
        front.reverse ++ (head.reverse ++ x :: (between ++ y :: tail) ++ back) := by
      simp
    have hword : lettersOfFields (head.reverse ++ x :: (between ++ y :: tail)) =
        [lettersOf head.reverse ++ x :: (lettersOf between ++ [y]) ++ lettersOf tail] := by
      rw [lettersOfFields_of_not_blank hfield, ← lettersOf]
      simp [lettersOf_cons_letter hx, lettersOf_cons_letter hy]
    refine ⟨lettersOfFields front.reverse, lettersOf head.reverse, lettersOf tail,
      lettersOfFields back, ?_, ?_, ?_⟩
    · rw [hline, lettersOfFields_append (.inl (by rwa [List.reverse_reverse])),
        lettersOfFields_append (.inr hback), hword, List.singleton_append]
    · rw [flatten_lettersOfFields, lettersOf_append]
    · rw [flatten_lettersOfFields, lettersOf_append]

/-! ## The mark at the end of a line -/

/-- The first character of a text that ends sentences and has nothing but blanks after it. -/
def firstClosing : List Char → Option Char
  | [] => none
  | c :: rest => if isMark c && rest.all isBlank then some c else firstClosing rest

/-- The mark of a line ends sentences, and nothing but blanks follows it. -/
theorem finalMark_eq_some_iff :
    finalMark cs = some c ↔
      isMark c = true ∧ ∃ front space, cs = front ++ c :: space ∧ AllBlank space := by
  rw [finalMark, Text.trimEnd, List.getLast?_reverse, Option.filter_eq_some_iff]
  -- the blanks at the end are a run of the reversed text, and the mark is what ends it
  constructor
  · rintro ⟨hhead, hmark⟩
    obtain ⟨space, rest, hrev, hspace, hrest⟩ := Text.exists_run isBlank cs.reverse
    rw [hrev, Text.dropWhile_run hspace hrest] at hhead
    obtain ⟨front, rfl⟩ := List.head?_eq_some_iff.mp hhead
    refine ⟨hmark, front.reverse, space.reverse, ?_, ?_⟩
    · rw [← List.reverse_reverse cs, hrev]
      simp
    · exact fun d hd => hspace d (List.mem_reverse.mp hd)
  · rintro ⟨hmark, front, space, rfl, hspace⟩
    have hspace' : ∀ d ∈ space.reverse, isBlank d = true :=
      fun d hd => hspace d (List.mem_reverse.mp hd)
    have hends : EndsRun isBlank (c :: front.reverse) :=
      Text.endsRun_cons.mpr (not_blank_of_isMark hmark)
    have hrev : (front ++ c :: space).reverse = space.reverse ++ c :: front.reverse := by simp
    rw [hrev, Text.dropWhile_run hspace' hends]
    exact ⟨rfl, hmark⟩

/-- The search finds what ends sentences and has nothing but blanks after it. -/
theorem firstClosing_eq_some_iff :
    firstClosing cs = some c ↔
      isMark c = true ∧ ∃ front space, cs = front ++ c :: space ∧ AllBlank space := by
  -- the mark is found here, or the search goes on
  induction cs with
  | nil => simp [firstClosing]
  | cons d cs ih =>
    rw [firstClosing]
    split
    · next hfound =>
      obtain ⟨hmark, hspace⟩ := (Bool.and_eq_true _ _).mp hfound
      rw [List.all_eq_true] at hspace
      constructor
      · rintro ⟨rfl⟩
        exact ⟨hmark, [], cs, rfl, hspace⟩
      · rintro ⟨hc, front, space, hcs, -⟩
        cases front with
        | nil => rw [(List.cons_eq_cons.mp hcs).1]
        | cons _ front =>
          -- all that comes after the first character is blank, and a mark is not
          have hmem : c ∈ cs := by
            rw [(List.cons_eq_cons.mp hcs).2]
            simp
          have hblank := hspace c hmem
          rw [not_blank_of_isMark hc] at hblank
          cases hblank
    · next hnot =>
      rw [ih]
      apply and_congr_right
      intro hc
      constructor
      · rintro ⟨front, space, rfl, hspace⟩
        exact ⟨d :: front, space, rfl, hspace⟩
      · rintro ⟨front, space, hcs, hspace⟩
        cases front with
        | nil =>
          obtain ⟨rfl, rfl⟩ := List.cons_eq_cons.mp hcs
          exact absurd ((Bool.and_eq_true _ _).mpr ⟨hc, List.all_eq_true.mpr hspace⟩) hnot
        | cons _ front =>
          obtain ⟨rfl, rfl⟩ := List.cons_eq_cons.mp hcs
          exact ⟨front, space, rfl, hspace⟩

/-- The search for the mark finds the last character that is not blank. -/
theorem finalMark_eq_firstClosing (cs : List Char) : finalMark cs = firstClosing cs := by
  apply Option.ext
  intro c
  rw [finalMark_eq_some_iff, firstClosing_eq_some_iff]

/-- Where a text has more than blanks, nothing in front of it has a say in the mark. -/
theorem finalMark_append_of_not_blank (h : ∃ c ∈ cs, isBlank c = false) (front : List Char) :
    finalMark (front ++ cs) = finalMark cs := by
  -- what is left after the blanks at the end is not empty, so its first character counts
  have ne : cs.reverse.dropWhile isBlank ≠ [] := by
    obtain ⟨c, hc, hblank⟩ := h
    intro hnil
    rw [List.dropWhile_eq_nil_iff] at hnil
    rw [hnil c (List.mem_reverse.mpr hc)] at hblank
    cases hblank
  have hdrop : (front ++ cs).reverse.dropWhile isBlank =
      cs.reverse.dropWhile isBlank ++ front.reverse := by
    rw [List.reverse_append, List.dropWhile_append, if_neg (by simpa using ne)]
  rw [finalMark, finalMark, Text.trimEnd, Text.trimEnd, hdrop, List.getLast?_reverse,
    List.getLast?_reverse, List.head?_append_of_ne_nil _ ne]

/-! ## The sentence on a line -/

/-- How the words of a sentence come from the line it stands on. -/
structure WordsOf (line : String) (words : List String) : Prop where
  ne_empty : ∀ word ∈ words, word ≠ ""
  letters : ∀ word ∈ words, ∀ c ∈ word.toList, c.isAlpha = true
  /-- No letter of the line is lost, and none is moved. -/
  join_eq : String.join words = String.ofList (lettersOf line.toList)
  /-- Two letters lie in one word if and only if no blank lies between them. -/
  inOneWord_iff : ∀ before x between y after,
    line.toList = before ++ x :: (between ++ y :: after) → x.isAlpha = true → y.isAlpha = true →
      (InOneWord (words.map String.toList) (lettersOf before) (x :: (lettersOf between ++ [y]))
        (lettersOf after) ↔ ∀ c ∈ between, isBlank c = false)
  /-- On a line of their own, with single spaces between them, they are the same words. -/
  reread : (ofLine (" ".intercalate words)).words = words

theorem map_toList_words (line : String) :
    (ofLine line).words.map String.toList = lettersOfFields line.toList := by
  simp [ofLine, Function.comp_def]

/-- The words that are read from a line come from it in this way. -/
theorem wordsOf_ofLine (line : String) : WordsOf line (ofLine line).words := by
  have hne : ∀ word ∈ (ofLine line).words, word.toList ≠ [] := by
    intro word hword
    have hmem := List.mem_map_of_mem (f := String.toList) hword
    rw [map_toList_words] at hmem
    simpa using (List.mem_filter.mp hmem).2
  have hletters := (letters_ofLine line).1
  have hproper : Proper ⟨(ofLine line).words, none⟩ := ⟨hne, hletters, nofun⟩
  refine ⟨?_, hletters, ?_, ?_, ?_⟩
  · rintro word hword rfl
    exact hne _ hword rfl
  · rw [← String.toList_inj, String.toList_join, List.flatMap_def, map_toList_words,
      flatten_lettersOfFields, String.toList_ofList]
  · rintro before x between y after hline hx hy
    rw [map_toList_words, hline]
    exact Sentence.inOneWord_iff hx hy
  · have hline : Sentence.line ⟨(ofLine line).words, none⟩ = " ".intercalate (ofLine line).words :=
      String.append_empty
    rw [← hline, ofLine_line hproper]

/-- **The sentence on a line.**  White space between two texts, however much of it, parts their
words, and the words of both together are those of the one and then those of the other.  The words
of any line have at least one letter each and letters only; written without spaces they are the
letters of the line, and two letters lie in one word if and only if no blank lies between them;
written with single spaces they are read again.  The mark is the last character of the line that is
not blank, if that ends sentences, which is what a search from the left for such a character before
blanks finds; text in front of that character does not change it. -/
theorem ofLine_laws :
    (∀ a w b : String, w ≠ "" → (∀ c ∈ w.toList, isBlank c = true) →
      (ofLine (a ++ w ++ b)).words = (ofLine a).words ++ (ofLine b).words) ∧
    (∀ line : String, WordsOf line (ofLine line).words) ∧
    (∀ (line : String) (c : Char), (ofLine line).mark = some c ↔
      (∃ front space, line.toList = front ++ c :: space ∧ isBlank c = false ∧
        ∀ d ∈ space, isBlank d = true) ∧ (c = '.' ∨ c = '!' ∨ c = '?')) ∧
    (∀ line : String, (ofLine line).mark = firstClosing line.toList) ∧
    ∀ front line : String, (∃ c ∈ line.toList, isBlank c = false) →
      (ofLine (front ++ line)).mark = (ofLine line).mark := by
  refine ⟨?_, wordsOf_ofLine, ?_, fun line => finalMark_eq_firstClosing line.toList, ?_⟩
  · intro a w b hw hspace
    have ne : w.toList ≠ [] := by simpa using hw
    rw [ofLine, String.toList_append, String.toList_append,
      lettersOfFields_append_space ne hspace, List.map_append]
    rfl
  · intro line c
    rw [← isMark_iff]
    constructor
    · intro hmark
      obtain ⟨hc, front, space, hline, hspace⟩ := finalMark_eq_some_iff.mp hmark
      exact ⟨⟨front, space, hline, not_blank_of_isMark hc, hspace⟩, hc⟩
    · rintro ⟨⟨front, space, hline, -, hspace⟩, hc⟩
      exact finalMark_eq_some_iff.mpr ⟨hc, front, space, hline, hspace⟩
  · intro front line hline
    show finalMark (front ++ line).toList = finalMark line.toList
    rw [String.toList_append]
    exact finalMark_append_of_not_blank hline front.toList

/-- An ideographic space parts words and an apostrophe does not; the question mark vanishes, as the
exclamation mark comes after it, and that is the mark. -/
theorem ofLine_laws_sally :
    "\u3000" ≠ "" ∧ (∀ c ∈ "\u3000".toList, isBlank c = true) ∧
      (ofLine ("Sally's" ++ "\u3000" ++ "pickle?! ")).words = ["Sallys", "pickle"] ∧
      InOneWord ((ofLine "Sally's").words.map String.toList) ['S', 'a', 'l', 'l'] ['y', 's'] [] ∧
      (∃ c ∈ "pickle?! ".toList, isBlank c = false) ∧
      (ofLine ("Sally's\u3000" ++ "pickle?! ")).mark = some '!' := by
  obtain ⟨happend, hwords, -, hsearch, hfront⟩ := ofLine_laws
  have hne : "\u3000" ≠ "" := by decide
  have hblank : ∀ c ∈ "\u3000".toList, isBlank c = true :=
    List.all_eq_true.mp (by decide)
  have hsome : ∃ c ∈ "pickle?! ".toList, isBlank c = false := ⟨'p', by decide, by decide⟩
  have hsally : (ofLine "Sally's").words = ["Sallys"] := by decide
  have hpickle : (ofLine "pickle?! ").words = ["pickle"] := by decide
  have hword := (hwords "Sally's").inOneWord_iff ['S', 'a', 'l', 'l'] 'y' ['\''] 's' []
    (by decide) (by decide) (by decide)
  refine ⟨hne, hblank, ?_, ?_, hsome, ?_⟩
  · rw [happend _ _ _ hne hblank, hsally, hpickle]
    rfl
  · exact hword.mpr (List.forall_mem_singleton.mpr (by decide))
  · rw [hfront _ _ hsome, hsearch]
    decide

end PhraseGrammar.Sentence
