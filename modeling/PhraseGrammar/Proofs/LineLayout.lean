import PhraseGrammar.Grammar.Source
import PhraseGrammar.Proofs.Runs

/-!
# The layout of a text

A text falls into lines, and a line into fields, white space and a comment.  The reader finds lines
and fields by cutting; this module says what it finds by saying how a text is put together from
its lines, and a line from its fields.  Every text is put together in exactly one way.

## Main statements

- `linesOf_iff`: the lines of a text are those that the text is put together from.
- `laidOut_iff`: the fields of a line, without its comment, are those that it is put together
  from.
- `trimmed_iff`: a line is its trimmed text with white space around it.
-/

namespace PhraseGrammar

namespace Text

/-! ## Lines -/

/-- `LinesOf text ls`: the text is the lines `ls`, each ended by a line feed or by a carriage
return and a line feed.  The last line may lack its end if it is not empty.  A line feed alone
does not end a line whose last character is a carriage return, since that would be part of the
line's end. -/
inductive LinesOf : List Char → List (List Char) → Prop where
  | none : LinesOf [] []
  | last {line : List Char} (ne : line ≠ []) (hline : '\n' ∉ line) : LinesOf line [line]
  | feed {line rest : List Char} {ls : List (List Char)} (hline : '\n' ∉ line)
      (hreturn : line.getLast? ≠ some '\r') (hrest : LinesOf rest ls) :
      LinesOf (line ++ '\n' :: rest) (line :: ls)
  | returnFeed {line rest : List Char} {ls : List (List Char)} (hline : '\n' ∉ line)
      (hrest : LinesOf rest ls) : LinesOf (line ++ '\r' :: '\n' :: rest) (line :: ls)

section Marks

variable {α : Type} [BEq α] [LawfulBEq α] {feed ret : α} {line : List α}

/-- The mark that ends lines ends the first line, whatever the lines are made of. -/
theorem linesAt_append_feed (hline : feed ∉ line) (ret : α) (rest : List α) :
    linesAt feed ret (line ++ feed :: rest) = dropReturn ret line :: linesAt feed ret rest := by
  have hsplit : (line ++ feed :: rest).splitOn feed = line :: rest.splitOn feed :=
    List.splitOn_append_cons_self_of_not_mem hline rest
  unfold linesAt
  rw [hsplit]
  -- there is a piece after the mark, if only an empty one
  cases hpieces : rest.splitOn feed with
  | nil => exact absurd hpieces (List.splitOn_ne_nil _ _)
  | cons piece pieces => rfl

/-- Without a mark there is one line, or none. -/
theorem linesAt_of_not_mem (hline : feed ∉ line) (ret : α) :
    linesAt feed ret line = if line.isEmpty then [] else [line] := by
  unfold linesAt
  rw [List.splitOn_eq_singleton hline]
  rfl

@[simp] theorem linesAt_nil : linesAt feed ret [] = [] :=
  linesAt_of_not_mem List.not_mem_nil ret

theorem dropReturn_of_ne (h : line.getLast? ≠ some ret) : dropReturn ret line = line := by
  simp [dropReturn, h]

theorem dropReturn_append (line : List α) : dropReturn ret (line ++ [ret]) = line := by
  simp [dropReturn]

end Marks

theorem lines_append_feed {line : List Char} (hline : '\n' ∉ line) (rest : List Char) :
    lines (line ++ '\n' :: rest) = dropReturn '\r' line :: lines rest :=
  linesAt_append_feed hline '\r' rest

/-- A text without line feeds is one line, or none. -/
theorem lines_of_not_mem {line : List Char} (hline : '\n' ∉ line) :
    lines line = if line.isEmpty then [] else [line] :=
  linesAt_of_not_mem hline '\r'

/-- A text is cut into the lines that it is put together from. -/
theorem LinesOf.lines_eq {text : List Char} {ls : List (List Char)} (h : LinesOf text ls) :
    lines text = ls := by
  -- one line at a time; only the last one may lack its mark
  induction h with
  | none => rfl
  | last ne hline => simp [lines_of_not_mem hline, ne]
  | feed hline hreturn _ ih => rw [lines_append_feed hline, dropReturn_of_ne hreturn, ih]
  | @returnFeed line rest ls hline _ ih =>
    have hpiece : '\n' ∉ line ++ ['\r'] := by simp [hline]
    have htext : line ++ '\r' :: '\n' :: rest = (line ++ ['\r']) ++ '\n' :: rest := by simp
    rw [htext, lines_append_feed hpiece, dropReturn_append, ih]

/-- Every text is put together from lines. -/
theorem exists_linesOf (text : List Char) : ∃ ls, LinesOf text ls := by
  induction hn : text.length using Nat.strongRecOn generalizing text with
  -- by the length of the text, which the first line feed cuts in two
  | ind n ih =>
    subst hn
    obtain ⟨line, rest, rfl, hrun, hrest⟩ := exists_run (· != '\n') text
    have hline : '\n' ∉ line := fun hmem => by simpa using hrun '\n' hmem
    cases rest with
    | nil =>
      rw [List.append_nil]
      rcases List.eq_nil_or_concat line with rfl | ⟨front, c, rfl⟩
      · exact ⟨[], .none⟩
      · exact ⟨_, .last (by simp) hline⟩
    | cons c rest =>
      obtain rfl : c = '\n' := by simpa using hrest
      obtain ⟨ls, hls⟩ := ih rest.length (by simp; omega) rest rfl
      -- a carriage return before the line feed belongs to the end of the line
      by_cases hreturn : line.getLast? = some '\r'
      · obtain ⟨front, rfl⟩ := List.getLast?_eq_some_iff.mp hreturn
        have hfront : '\n' ∉ front := fun hmem => hline (List.mem_append_left _ hmem)
        refine ⟨front :: ls, ?_⟩
        rw [List.append_assoc, List.singleton_append]
        exact .returnFeed hfront hls
      · exact ⟨line :: ls, .feed hline hreturn hls⟩

/-- The lines that a text is cut into are those that it is put together from. -/
theorem linesOf_iff {text : List Char} {ls : List (List Char)} :
    LinesOf text ls ↔ ls = lines text := by
  obtain ⟨ls', h'⟩ := exists_linesOf text
  constructor
  · intro h
    exact h.lines_eq.symm
  · intro h
    rwa [h, h'.lines_eq]

end Text

/-! ## Fields -/

namespace Source

open Text (EndsRun isBlank)

/-- All characters are white space. -/
def AllBlank (cs : List Char) : Prop :=
  ∀ c ∈ cs, isBlank c = true

/-- Nothing, or a comment. -/
def OptionalComment (cs : List Char) : Prop :=
  cs = [] ∨ ∃ text, cs = '#' :: text

/-- A character that may stand in a field: neither white space nor the mark of a comment. -/
def inField (c : Char) : Bool :=
  !isBlank c && c != '#'

/-- Something that is not empty and has neither white space nor a comment in it. -/
def IsField (cs : List Char) : Prop :=
  cs ≠ [] ∧ ∀ c ∈ cs, inField c = true

/-- `Continues fields text`: the text, which stands after a field, is the `fields`, each with
white space before it, then white space if wanted and a comment if wanted. -/
inductive Continues : List (List Char) → List Char → Prop where
  | done {space comment : List Char} (hspace : AllBlank space)
      (hcomment : OptionalComment comment) : Continues [] (space ++ comment)
  | next {gap field rest : List Char} {fields : List (List Char)} (ne : gap ≠ [])
      (hgap : AllBlank gap) (hfield : IsField field) (hrest : Continues fields rest) :
      Continues (field :: fields) (gap ++ (field ++ rest))

/-- `LaidOut fields line`: the line is white space if wanted and a comment if wanted, around and
after the `fields`, which have white space between them. -/
inductive LaidOut : List (List Char) → List Char → Prop where
  | blank {space comment : List Char} (hspace : AllBlank space)
      (hcomment : OptionalComment comment) : LaidOut [] (space ++ comment)
  | fields {space field rest : List Char} {fields : List (List Char)} (hspace : AllBlank space)
      (hfield : IsField field) (hrest : Continues fields rest) :
      LaidOut (field :: fields) (space ++ (field ++ rest))

theorem not_hash_of_inField {c : Char} (h : inField c = true) : (c != '#') = true := by
  simp only [inField, Bool.and_eq_true] at h
  exact h.2

theorem not_blank_of_inField {c : Char} (h : inField c = true) : isBlank c = false := by
  simp only [inField, Bool.and_eq_true, Bool.not_eq_true'] at h
  exact h.1

/-- Visible ASCII characters are not white space. -/
theorem inField_of_visible {c : Char} (hlow : 0x20 < c.toNat) (hhigh : c.toNat < 0x7f)
    (hhash : c ≠ '#') : inField c = true := by
  have hblank : isBlank c = false := by
    rw [Bool.eq_false_iff]
    intro hblank
    simp only [isBlank, Text.inRanges, Text.blankRanges, List.any_cons, List.any_nil,
      Bool.or_eq_true, Bool.and_eq_true, decide_eq_true_eq, Bool.or_false] at hblank
    omega
  simp [inField, hblank, hhash]

theorem not_hash_of_blank {c : Char} (h : isBlank c = true) : (c != '#') = true := by
  rw [bne_iff_ne]
  rintro rfl
  exact absurd h (by decide)

/-! ### Cutting a line that is laid out -/

theorem fields_blank {space : List Char} (hspace : AllBlank space) (cs : List Char) :
    Text.fields (space ++ cs) = Text.fields cs := by
  -- a cut at a blank leaves an empty piece in front, which is no field
  induction space with
  | nil => rfl
  | cons c space ih =>
    have hc : isBlank c = true := hspace c List.mem_cons_self
    have hrest := ih fun d hd => hspace d (List.mem_cons_of_mem c hd)
    rw [← hrest]
    simp [Text.fields, List.splitOnP_cons_eq_if_modifyHead, hc]

/-- Where a line is cut for its fields, nothing or white space stands after a field. -/
theorem fields_field {field rest : List Char} (hfield : IsField field)
    (hrest : EndsRun (fun c => !isBlank c) rest) :
    Text.fields (field ++ rest) = field :: Text.fields rest := by
  obtain ⟨ne, hall⟩ := hfield
  have hblank : ∀ c ∈ field, isBlank c = false := fun c hc => not_blank_of_inField (hall c hc)
  cases rest with
  | nil => simp [Text.fields, List.splitOnP_eq_singleton hblank, ne]
  | cons c rest =>
    have hc : isBlank c = true := by simpa using hrest
    have hsplit := List.splitOnP_append_cons_of_forall_mem hblank c hc rest
    simp [Text.fields, hsplit, List.splitOnP_cons_eq_if_modifyHead, hc, ne]

theorem dropComment_of_space {space comment : List Char} (hspace : AllBlank space)
    (hcomment : OptionalComment comment) : dropComment (space ++ comment) = space := by
  have hends : EndsRun (· != '#') comment := by
    rcases hcomment with rfl | ⟨text, rfl⟩ <;> simp
  exact Text.takeWhile_run (fun c hc => not_hash_of_blank (hspace c hc)) hends

/-- White space is in front of any comment. -/
theorem dropComment_blank {space : List Char} (hspace : AllBlank space) (rest : List Char) :
    dropComment (space ++ rest) = space ++ dropComment rest :=
  List.takeWhile_append_of_pos fun c hc => not_hash_of_blank (hspace c hc)

/-- A field is in front of any comment. -/
theorem dropComment_field {field : List Char} (hfield : IsField field) (rest : List Char) :
    dropComment (field ++ rest) = field ++ dropComment rest :=
  List.takeWhile_append_of_pos fun c hc => not_hash_of_inField (hfield.2 c hc)

theorem fields_of_space {space : List Char} (hspace : AllBlank space) : Text.fields space = [] := by
  have h := fields_blank hspace []
  rw [List.append_nil] at h
  rw [h]
  rfl

/-- Without its comment, what follows a field is over, or begins with white space. -/
theorem Continues.endsRun {fields : List (List Char)} {text : List Char}
    (h : Continues fields text) : EndsRun (fun c => !isBlank c) (dropComment text) := by
  cases h with
  | @done space comment hspace hcomment =>
    rw [dropComment_of_space hspace hcomment]
    cases space with
    | nil => simp
    | cons c space => simp [hspace c List.mem_cons_self]
  | @next gap field rest fields ne hgap _ _ =>
    rw [dropComment_blank hgap]
    cases gap with
    | nil => exact absurd rfl ne
    | cons c gap => simp [hgap c List.mem_cons_self]

/-- The fields that follow a field are those that are cut. -/
theorem Continues.fields_eq {fields : List (List Char)} {text : List Char}
    (h : Continues fields text) : Text.fields (dropComment text) = fields := by
  -- a gap and a field are cut off at a time, and a comment is dropped at the end
  induction h with
  | done hspace hcomment => rw [dropComment_of_space hspace hcomment, fields_of_space hspace]
  | next _ hgap hfield hrest ih =>
    rw [dropComment_blank hgap, fields_blank hgap, dropComment_field hfield,
      fields_field hfield hrest.endsRun, ih]

/-- The fields of a line are those that are cut. -/
theorem LaidOut.fields_eq {fields : List (List Char)} {line : List Char}
    (h : LaidOut fields line) : Text.fields (dropComment line) = fields := by
  cases h with
  | blank hspace hcomment => rw [dropComment_of_space hspace hcomment, fields_of_space hspace]
  | fields hspace hfield hrest =>
    rw [dropComment_blank hspace, fields_blank hspace, dropComment_field hfield,
      fields_field hfield hrest.endsRun, hrest.fields_eq]

/-! ### Every line is laid out -/

/-- After white space, a text is over, goes on with a comment, or goes on with a field. -/
theorem exists_space (text : List Char) :
    ∃ space rest, text = space ++ rest ∧ AllBlank space ∧
      (OptionalComment rest ∨
        ∃ field rest', rest = field ++ rest' ∧ IsField field ∧ EndsRun inField rest') := by
  obtain ⟨space, rest, rfl, hspace, hrest⟩ := Text.exists_run isBlank text
  refine ⟨space, rest, rfl, hspace, ?_⟩
  obtain ⟨field, rest', rfl, hfield, hrest'⟩ := Text.exists_run inField rest
  cases field with
  | nil =>
    left
    cases rest' with
    | nil => exact .inl rfl
    -- what is neither white space nor in a field begins a comment
    | cons c rest' =>
      have hblank : isBlank c = false := by simpa using hrest
      have hhash : c = '#' := by simpa [inField, hblank] using hrest'
      exact .inr ⟨rest', by rw [hhash, List.nil_append]⟩
  | cons c field => exact .inr ⟨c :: field, rest', rfl, ⟨List.cons_ne_nil _ _, hfield⟩, hrest'⟩

/-- Whatever a field ends before is laid out in further fields. -/
theorem exists_continues (text : List Char) (hends : EndsRun inField text) :
    ∃ fields, Continues fields text := by
  -- by the length of the text, which a field and the gap before it shorten
  induction hn : text.length using Nat.strongRecOn generalizing text with
  | ind n ih =>
    subst hn
    obtain ⟨space, rest, rfl, hspace, hcomment | ⟨field, rest', rfl, hfield, hrest'⟩⟩ :=
      exists_space text
    · exact ⟨[], .done hspace hcomment⟩
    · have hpos : 0 < field.length := List.length_pos_iff.mpr hfield.1
      obtain ⟨fields, hfields⟩ := ih rest'.length (by simp; omega) rest' hrest' rfl
      refine ⟨field :: fields, .next ?_ hspace hfield hfields⟩
      -- a field right after a field would belong to it
      rintro rfl
      cases field with
      | nil => exact absurd rfl hfield.1
      | cons c field =>
        have hc : inField c = false := by simpa using hends
        rw [hfield.2 c List.mem_cons_self] at hc
        cases hc

/-- Every line is laid out. -/
theorem exists_laidOut (line : List Char) : ∃ fields, LaidOut fields line := by
  obtain ⟨space, rest, rfl, hspace, hcomment | ⟨field, rest', rfl, hfield, hrest'⟩⟩ :=
    exists_space line
  · exact ⟨[], .blank hspace hcomment⟩
  · obtain ⟨fields, hfields⟩ := exists_continues rest' hrest'
    exact ⟨field :: fields, .fields hspace hfield hfields⟩

/-- The fields that a line is cut into, once its comment is dropped, are those that it is put
together from. -/
theorem laidOut_iff {fields : List (List Char)} {line : List Char} :
    LaidOut fields line ↔ fields = Text.fields (dropComment line) := by
  obtain ⟨fields', h'⟩ := exists_laidOut line
  constructor
  · intro h
    exact h.fields_eq.symm
  · intro h
    rwa [h, h'.fields_eq]

theorem isField_of_continues {fields : List (List Char)} {text : List Char}
    (h : Continues fields text) : ∀ field ∈ fields, IsField field := by
  induction h with
  | done => simp
  | next _ _ hfield _ ih => exact List.forall_mem_cons.mpr ⟨hfield, ih⟩

/-- What a line is laid out with are fields. -/
theorem isField_of_laidOut {fields : List (List Char)} {line : List Char}
    (h : LaidOut fields line) : ∀ field ∈ fields, IsField field := by
  cases h with
  | blank => simp
  | fields _ hfield hrest => exact List.forall_mem_cons.mpr ⟨hfield, isField_of_continues hrest⟩

/-! ## Blanks at both ends -/

/-- `Trimmed line text`: the line is the text with white space around it, and the text neither
begins nor ends with white space. -/
inductive Trimmed : List Char → List Char → Prop where
  | intro {front text back : List Char} (hfront : AllBlank front) (hback : AllBlank back)
      (hstart : EndsRun isBlank text) (hend : EndsRun isBlank text.reverse) :
      Trimmed (front ++ (text ++ back)) text

/-- What is between the white space at both ends is what trimming leaves. -/
theorem Trimmed.trim_eq {line text : List Char} (h : Trimmed line text) :
    Text.trim line = text := by
  obtain @⟨front, _, back, hfront, hback, hstart, hend⟩ := h
  unfold Text.trim Text.trimStart Text.trimEnd
  -- an empty text leaves white space alone, which is trimmed as a whole
  cases text with
  | nil =>
    have hall : AllBlank (front ++ back) := List.forall_mem_append.mpr ⟨hfront, hback⟩
    have hdrop : (front ++ back).dropWhile isBlank = [] := List.dropWhile_eq_nil_iff.mpr hall
    simp [hdrop]
  | cons c text =>
    have hdrop : (front ++ (c :: text ++ back)).dropWhile isBlank = c :: text ++ back :=
      Text.dropWhile_run hfront (by simpa using hstart)
    have hback' : ∀ c ∈ back.reverse, isBlank c = true :=
      fun c hc => hback c (List.mem_reverse.mp hc)
    rw [hdrop, List.reverse_append, Text.dropWhile_run hback' hend, List.reverse_reverse]

/-- Every line has a text between the white space at its ends. -/
theorem exists_trimmed (line : List Char) : ∃ text, Trimmed line text := by
  obtain ⟨front, rest, rfl, hfront, hrest⟩ := Text.exists_run isBlank line
  obtain ⟨back, text, hrev, hback, hend⟩ := Text.exists_run isBlank rest.reverse
  obtain rfl : rest = text.reverse ++ back.reverse := by
    rw [← List.reverse_append, ← hrev, List.reverse_reverse]
  refine ⟨text.reverse, .intro hfront ?_ ?_ ?_⟩
  · exact fun c hc => hback c (List.mem_reverse.mp hc)
  -- the front run was taken as far as it goes, so the text does not begin with white space
  · cases hcases : text.reverse with
    | nil => simp
    | cons c text' => simpa [hcases] using hrest
  · rwa [List.reverse_reverse]

/-- A line that is trimmed loses the white space around it. -/
theorem trimmed_iff {line text : List Char} : Trimmed line text ↔ text = Text.trim line := by
  obtain ⟨text', h'⟩ := exists_trimmed line
  constructor
  · intro h
    exact h.trim_eq.symm
  · intro h
    rwa [h, h'.trim_eq]

end Source

end PhraseGrammar
