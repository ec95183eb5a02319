import PhraseGrammar.Proofs.EncodedLines
import PhraseGrammar.Proofs.ReadingGrammars

/-!
# Grammar texts put together

The reader takes the lines of a text one by one, and keeps of a line no more than the production
that it states.  A text put together from two, where the first ends with a line's end, is therefore
read as its parts are, one after the other: only the numbers of the lines in the second part are
others, and whether there is any production is asked once for both.

Lines that are blank or hold only a comment state nothing.  Put in anywhere, they move the lines
below them down and leave everything else that the reader says as it was.

## Main statements

- `readLines_append`: the lines of two texts, read one after the other.
- `readLines_append_newline`: an end for the last line changes nothing.
- `readProductions_append`: what is said of two texts put together, and of a text with blank lines
  put in.
-/

namespace PhraseGrammar

/-- The error for a text in which `k` lines were put in below the line `n`: the lines further down
have moved, with the error if it names one of them. -/
def SourceError.insertLines (n k : Nat) : SourceError → SourceError
  | .badLine number line fault => .badLine (if number ≤ n then number else number + k) line fault
  | .noProductions => .noProductions

/-! ## As many lines as ends of lines -/

namespace Text

variable {α : Type} {feed : α} {xs : List α}

theorem length_linesAt_of_ended [BEq α] [LawfulBEq α] (h : Ended feed xs) (ret : α) :
    (linesAt feed ret xs).length = xs.count feed := by
  obtain ⟨pieces, hpieces, rfl⟩ := h.exists_pieces
  rw [linesAt_flatMap hpieces, List.length_map]
  clear h
  -- each piece is followed by one mark and has none in it
  induction pieces with
  | nil => rfl
  | cons piece pieces ih =>
    obtain ⟨hpiece, hpieces⟩ := List.forall_mem_cons.mp hpieces
    have hcount : piece.count feed = 0 := List.count_eq_zero.mpr hpiece
    simp [ih hpieces, hcount, Nat.add_comm]

theorem Ended.append {ys : List α} (hxs : Ended feed xs) (hys : Ended feed ys) :
    Ended feed (xs ++ ys) := by
  rcases hys with rfl | hys
  · rwa [List.append_nil]
  · right
    rw [List.getLast?_append, hys, Option.some_or]

/-- Every sequence is ended lines and a piece after them, which may be empty. -/
theorem exists_ended_append (feed : α) (xs : List α) :
    ∃ front piece, xs = front ++ piece ∧ Ended feed front ∧ feed ∉ piece := by
  induction xs with
  | nil => exact ⟨[], [], rfl, .inl rfl, List.not_mem_nil⟩
  | cons x xs ih =>
    obtain ⟨front, piece, rfl, hfront, hpiece⟩ := ih
    by_cases hx : x = feed
    · subst hx
      exact ⟨x :: front, piece, rfl, hfront.append_feed [], hpiece⟩
    -- anything but a mark goes to the front if there is one, and else to the piece
    · cases front with
      | nil => exact ⟨[], x :: piece, rfl, .inl rfl, by simp [Ne.symm hx, hpiece]⟩
      | cons y front =>
        refine ⟨x :: y :: front, piece, rfl, .inr ?_, hpiece⟩
        rcases hfront with h | h
        · cases h
        · rwa [List.getLast?_cons_cons]

end Text

namespace Source

open Text (Ended)

/-! ## White space at the end of a line -/

section Space

variable {fields : List (List Char)} {line space : List Char}

/-- White space at the end of a line belongs to the space before the comment, or to the comment. -/
theorem OptionalComment.append_space {comment : List Char} (h : OptionalComment comment)
    {before : List Char} (hbefore : AllBlank before) (hspace : AllBlank space) :
    ∃ before' comment', before ++ comment ++ space = before' ++ comment' ∧ AllBlank before' ∧
      OptionalComment comment' := by
  rcases h with rfl | ⟨text, rfl⟩
  · refine ⟨before ++ space, [], by simp, ?_, .inl rfl⟩
    exact List.forall_mem_append.mpr ⟨hbefore, hspace⟩
  -- in a comment, white space is as good as anything
  · exact ⟨before, '#' :: (text ++ space), by simp, hbefore, .inr ⟨text ++ space, rfl⟩⟩

/-- White space at the end does not add to the fields that follow a field. -/
theorem Continues.append_space {text : List Char} (h : Continues fields text)
    (hspace : AllBlank space) : Continues fields (text ++ space) := by
  -- the white space comes after the last field, however many fields there are
  induction h with
  | done hbefore hcomment =>
    obtain ⟨before', comment', heq, hbefore', hcomment'⟩ := hcomment.append_space hbefore hspace
    rw [heq]
    exact .done hbefore' hcomment'
  | next ne hgap hfield _ ih =>
    rw [List.append_assoc, List.append_assoc]
    exact .next ne hgap hfield ih

/-- White space at the end of a line leaves its fields as they are. -/
theorem LaidOut.append_space (h : LaidOut fields line) (hspace : AllBlank space) :
    LaidOut fields (line ++ space) := by
  cases h with
  | blank hbefore hcomment =>
    obtain ⟨before', comment', heq, hbefore', hcomment'⟩ := hcomment.append_space hbefore hspace
    rw [heq]
    exact .blank hbefore' hcomment'
  | fields hbefore hfield hrest =>
    rw [List.append_assoc, List.append_assoc]
    exact .fields hbefore hfield (hrest.append_space hspace)

/-- White space at the end of a line makes no difference to what is read. -/
theorem readLine_append_space (line : List Char) (hspace : AllBlank space) :
    readLine (line ++ space) = readLine line := by
  obtain ⟨fields, hfields⟩ := exists_laidOut line
  unfold readLine
  rw [hfields.fields_eq, (hfields.append_space hspace).fields_eq]

/-- White space at the end of a line makes no difference to the echo of the line. -/
theorem trim_append_space (line : List Char) (hspace : AllBlank space) :
    Text.trim (line ++ space) = Text.trim line := by
  obtain ⟨text, htrimmed⟩ := exists_trimmed line
  rw [htrimmed.trim_eq]
  obtain @⟨front, _, back, hfront, hback, hstart, hend⟩ := htrimmed
  -- the space at the end becomes longer, and the text before it is the same
  rw [List.append_assoc, List.append_assoc]
  have hback' : AllBlank (back ++ space) := List.forall_mem_append.mpr ⟨hback, hspace⟩
  exact Trimmed.trim_eq (.intro hfront hback' hstart hend)

end Space

/-! ## Numbered lines -/

section Numbered

variable {ls : List (List Char)} {number : Nat} {e : SourceError}

/-- Lines are read one after the other, with the numbers going on. -/
theorem readNumbered_append (before after : List (List Char)) (number : Nat) :
    readNumbered ((before ++ after).zipIdx number) = do
      let ps ← readNumbered (before.zipIdx number)
      let ps' ← readNumbered (after.zipIdx (number + before.length))
      return ps ++ ps' := by
  -- line by line, and the number of the first line moves along
  induction before generalizing number with
  | nil =>
    rw [List.nil_append, List.length_nil, Nat.add_zero]
    cases readNumbered (after.zipIdx number) <;> rfl
  | cons line before ih =>
    rw [List.cons_append, List.zipIdx_cons, List.zipIdx_cons, readNumbered, readNumbered,
      List.length_cons, Nat.add_comm before.length, ← Nat.add_assoc]
    cases readLine line with
    | error fault => rfl
    | ok reading =>
      cases reading with
      | none => exact ih (number + 1)
      | some p =>
        dsimp only
        rw [ih (number + 1)]
        cases readNumbered (before.zipIdx (number + 1)) with
        | error e => rfl
        | ok ps => cases readNumbered (after.zipIdx (number + 1 + before.length)) <;> rfl

/-- Blank lines give no productions. -/
theorem readNumbered_of_blank (h : ∀ line ∈ ls, LaidOut [] line) (number : Nat) :
    readNumbered (ls.zipIdx number) = .ok [] :=
  readNumbered_eq_ok.mpr (conforms_none_iff.mpr h)

/-- An error names one of the lines. -/
theorem FirstFault.exists_badLine (h : FirstFault number ls e) :
    ∃ k line fault, e = .badLine k line fault ∧ number ≤ k ∧ k < number + ls.length := by
  cases h with
  | @intro before after fields bad text fault =>
    refine ⟨_, _, _, rfl, Nat.le_add_left _ _, ?_⟩
    rw [List.length_append, List.length_cons]
    omega

/-- Lines that begin further down have their first fault further down. -/
theorem FirstFault.insertLines (h : FirstFault 1 ls e) (k : Nat) :
    FirstFault (1 + k) ls (e.insertLines 0 k) := by
  cases h with
  | @intro before _ _ _ _ _ hbefore hfields hfault htext =>
    have hnumber : before.length + 1 + k = before.length + (1 + k) := Nat.add_assoc _ _ _
    rw [SourceError.insertLines, if_neg (Nat.not_succ_le_zero _), hnumber]
    exact .intro hbefore hfields hfault htext

/-- Lines that begin further down are read alike, with the number of a wrong line moved. -/
theorem readNumbered_below (ls : List (List Char)) (k : Nat) :
    readNumbered (ls.zipIdx (1 + k)) =
      (readNumbered (ls.zipIdx 1)).mapError (·.insertLines 0 k) := by
  -- only errors depend on the numbers
  cases h : readNumbered (ls.zipIdx 1) with
  | ok ps => exact readNumbered_eq_ok.mpr (readNumbered_eq_ok.mp h)
  | error e => exact readNumbered_eq_error.mpr ((readNumbered_eq_error.mp h).insertLines k)

end Numbered

/-! ## Texts put together -/

section Joined

variable {a b w : String} {ps ps' : List Production} {e : SourceError}

/-- An error at the lines of a text names one of them. -/
theorem exists_badLine_of_readLines (h : readLines a = .error e) :
    ∃ number line fault, e = .badLine number line fault ∧ 1 ≤ number ∧
      number ≤ (Text.lines a.toList).length := by
  obtain ⟨number, line, fault, rfl, hpos, hlt⟩ := (readNumbered_eq_error.mp h).exists_badLine
  exact ⟨number, line, fault, rfl, hpos, by omega⟩

/-- Two texts are read one after the other. -/
theorem readLines_append (h : Ended '\n' a.toList) (b : String) :
    readLines (a ++ b) = do
      let ps ← readLines a
      let ps' ← (readLines b).mapError (·.insertLines 0 (a.toList.count '\n'))
      return ps ++ ps' := by
  have hlines : Text.lines (a ++ b).toList = Text.lines a.toList ++ Text.lines b.toList := by
    rw [String.toList_append]
    exact Text.linesAt_append_of_ended h '\r' b.toList
  have hlength : (Text.lines a.toList).length = a.toList.count '\n' :=
    Text.length_linesAt_of_ended h '\r'
  unfold readLines
  rw [hlines, readNumbered_append, hlength, readNumbered_below]

theorem readLines_of_blank (h : ∀ line ∈ Text.lines w.toList, LaidOut [] line) :
    readLines w = .ok [] :=
  readNumbered_of_blank h 1

/-- Blank lines at the end add nothing. -/
theorem readLines_append_blank (h : Ended '\n' a.toList)
    (hw : ∀ line ∈ Text.lines w.toList, LaidOut [] line) : readLines (a ++ w) = readLines a := by
  rw [readLines_append h, readLines_of_blank hw]
  cases readLines a with
  | error e => rfl
  | ok ps => exact congrArg Except.ok (List.append_nil ps)

/-- An error within the first lines stays where it is if lines are put in below them. -/
theorem insertLines_of_readLines (h : Ended '\n' a.toList) (hread : readLines a = .error e)
    (k : Nat) : e.insertLines (a.toList.count '\n') k = e := by
  obtain ⟨number, line, fault, rfl, -, hle⟩ := exists_badLine_of_readLines hread
  rw [Text.lines, Text.length_linesAt_of_ended h] at hle
  rw [SourceError.insertLines, if_pos hle]

/-- Blank lines put in between two texts move the lines of the second down. -/
theorem readLines_insert (ha : Ended '\n' a.toList) (hw : Ended '\n' w.toList)
    (hblank : ∀ line ∈ Text.lines w.toList, LaidOut [] line) (b : String) :
    readLines (a ++ w ++ b) = (readLines (a ++ b)).mapError
      (·.insertLines (a.toList.count '\n') (w.toList.count '\n')) := by
  have haw : Ended '\n' (a ++ w).toList := by
    rw [String.toList_append]
    exact ha.append hw
  rw [readLines_append haw, readLines_append_blank ha hblank, readLines_append ha,
    String.toList_append, List.count_append]
  -- an error in the first text is above what is put in; one in the second is below
  cases hread : readLines a with
  | error e => exact congrArg Except.error (insertLines_of_readLines ha hread _).symm
  | ok ps =>
    cases hreadb : readLines b with
    | ok ps' => rfl
    | error e =>
      obtain ⟨number, line, fault, rfl, hpos, -⟩ := exists_badLine_of_readLines hreadb
      have hzero : ¬number ≤ 0 := Nat.not_le.mpr hpos
      have hbelow : ¬number + a.toList.count '\n' ≤ a.toList.count '\n' := by omega
      simp [Except.mapError, Bind.bind, Except.bind, SourceError.insertLines, hzero, hbelow,
        Nat.add_assoc]

/-! ### The end of the last line -/

/-- A carriage return at the end of a line makes no difference to the reader. -/
theorem readNumbered_dropReturn (line : List Char) (number : Nat) :
    readNumbered [(Text.dropReturn '\r' line, number)] = readNumbered [(line, number)] := by
  rcases Text.eq_dropReturn_or '\r' line with heq | heq
  · rw [← heq]
  -- a carriage return is white space
  · have hspace : AllBlank ['\r'] := by
      intro c hc
      rw [List.mem_singleton.mp hc]
      rfl
    have hread := readLine_append_space (Text.dropReturn '\r' line) hspace
    have htrim := trim_append_space (Text.dropReturn '\r' line) hspace
    rw [← heq] at hread htrim
    simp only [readNumbered, hread, htrim]

/-- A text of one line is read as the line, also if it is empty. -/
theorem readNumbered_of_piece {piece : List Char} (hpiece : '\n' ∉ piece) (number : Nat) :
    readNumbered ((Text.lines piece).zipIdx number) = readNumbered [(piece, number)] := by
  rw [Text.lines_of_not_mem hpiece]
  cases piece with
  | nil => rfl
  | cons c piece => rfl

/-- An end for the last line, where it may have had one, changes nothing. -/
theorem readLines_append_newline {newline : String} (h : newline = "\n" ∨ newline = "\r\n")
    (text : String) : readLines (text ++ newline) = readLines text := by
  obtain ⟨front, piece, htext, hended, hpiece⟩ := Text.exists_ended_append '\n' text.toList
  -- with its end, the last line is as it was, but for a carriage return at most
  have hlast : ∃ line, Text.lines (piece ++ newline.toList) = [Text.dropReturn '\r' line] ∧
      ∀ number, readNumbered [(line, number)] = readNumbered [(piece, number)] := by
    rcases h with rfl | rfl
    · exact ⟨piece, Text.lines_append_feed hpiece [], fun _ => rfl⟩
    · have hreturn : '\n' ∉ piece ++ ['\r'] := by simp [hpiece]
      have hnewline : piece ++ "\r\n".toList = piece ++ ['\r'] ++ '\n' :: [] := by simp
      refine ⟨piece ++ ['\r'], ?_, ?_⟩
      · rw [hnewline, Text.lines_append_feed hreturn]
        rfl
      · intro number
        rw [← readNumbered_dropReturn, Text.dropReturn_append]
  obtain ⟨line, hline, hread⟩ := hlast
  have hlines : ∀ rest, Text.lines (front ++ rest) = Text.lines front ++ Text.lines rest :=
    Text.linesAt_append_of_ended hended '\r'
  unfold readLines
  rw [String.toList_append, htext, List.append_assoc, hlines, hlines, hline, readNumbered_append,
    readNumbered_append, readNumbered_of_piece hpiece, List.zipIdx_singleton,
    readNumbered_dropReturn, hread]

/-! ### Whether there are productions -/

/-- What moves the errors of the lines moves those of the whole text. -/
theorem readProductions_of_readLines {n k : Nat}
    (h : readLines w = (readLines a).mapError (·.insertLines n k)) :
    readProductions w = (readProductions a).mapError (·.insertLines n k) := by
  unfold readProductions
  rw [h]
  cases readLines a with
  | error e => rfl
  | ok ps => cases ps <;> rfl

/-- The text contributes the productions `ps` to a grammar: it is read with them, or there are none
in it. -/
def Contributes (text : String) (ps : List Production) : Prop :=
  readProductions text = .ok ps ∨ readProductions text = .error .noProductions ∧ ps = []

/-- A text lacks productions if all its lines are read, and none of them gives one. -/
theorem readProductions_eq_noProductions :
    readProductions a = .error .noProductions ↔ readLines a = .ok [] := by
  rw [readProductions_eq_error_iff]
  constructor
  -- an error at a line is another one
  · rintro (h | ⟨h, -⟩)
    · obtain ⟨_, _, _, ⟨⟩, -⟩ := exists_badLine_of_readLines h
    · exact h
  · intro h
    exact .inr ⟨h, rfl⟩

theorem readProductions_eq_badLine {number : Nat} {line : String} {fault : LineFault} :
    readProductions a = .error (.badLine number line fault) ↔
      readLines a = .error (.badLine number line fault) := by
  rw [readProductions_eq_error_iff]
  simp

/-- A text contributes what its lines are read as. -/
theorem contributes_iff : Contributes a ps ↔ readLines a = .ok ps := by
  rw [Contributes, readProductions_eq_ok_iff, readProductions_eq_noProductions]
  constructor
  · rintro (⟨h, -⟩ | ⟨h, rfl⟩) <;> exact h
  · intro h
    -- without productions the lines are read all the same, but the text is refused
    by_cases ne : ps = []
    · subst ne
      exact .inr ⟨h, rfl⟩
    · exact .inl ⟨h, ne⟩

/-- Two texts are read if both are, and give the productions of both. -/
theorem readLines_append_eq_ok (h : Ended '\n' a.toList) {qs : List Production} :
    readLines (a ++ b) = .ok qs ↔
      ∃ ps ps', readLines a = .ok ps ∧ readLines b = .ok ps' ∧ ps ++ ps' = qs := by
  rw [readLines_append h]
  cases readLines a <;> cases readLines b <;>
    simp [Bind.bind, Except.bind, Except.mapError, pure, Except.pure]

/-- An error at a line of the first text is the error for both. -/
theorem readProductions_append_of_badLine (ha : Ended '\n' a.toList) (b : String) {number : Nat}
    {line : String} {fault : LineFault}
    (h : readProductions a = .error (.badLine number line fault)) :
    readProductions (a ++ b) = .error (.badLine number line fault) := by
  rw [readProductions_eq_badLine] at *
  rw [readLines_append ha, h]
  rfl

/-- An error at a line of the second text is found as far down as the first text has lines. -/
theorem readProductions_append_of_contributes_badLine (ha : Ended '\n' a.toList)
    (hps : Contributes a ps) {number : Nat} {line : String} {fault : LineFault}
    (h : readProductions b = .error (.badLine number line fault)) :
    1 ≤ number ∧ readProductions (a ++ b) =
      .error (.badLine (number + a.toList.count '\n') line fault) := by
  rw [readProductions_eq_badLine] at *
  obtain ⟨_, _, _, ⟨⟩, hpos, -⟩ := exists_badLine_of_readLines h
  have hzero : ¬number ≤ 0 := Nat.not_le.mpr hpos
  refine ⟨hpos, ?_⟩
  rw [readLines_append ha, contributes_iff.mp hps, h]
  simp [Bind.bind, Except.bind, Except.mapError, SourceError.insertLines, hzero]

/-- Without errors, the productions of both texts are read in a row. -/
theorem readProductions_append_of_contributes (ha : Ended '\n' a.toList) (hps : Contributes a ps)
    (hps' : Contributes b ps') (ne : ps ++ ps' ≠ []) :
    readProductions (a ++ b) = .ok (ps ++ ps') := by
  rw [contributes_iff] at hps hps'
  have hread := (readLines_append_eq_ok ha).mpr ⟨ps, ps', hps, hps', rfl⟩
  exact readProductions_eq_ok_iff.mpr ⟨hread, ne⟩

/-- There are no productions in both texts together if there are none in either. -/
theorem readProductions_append_eq_noProductions (ha : Ended '\n' a.toList) :
    readProductions (a ++ b) = .error .noProductions ↔
      readProductions a = .error .noProductions ∧ readProductions b = .error .noProductions := by
  simp only [readProductions_eq_noProductions, readLines_append_eq_ok ha, List.append_eq_nil_iff]
  constructor
  · rintro ⟨ps, ps', hps, hps', rfl, rfl⟩
    exact ⟨hps, hps'⟩
  · rintro ⟨hps, hps'⟩
    exact ⟨[], [], hps, hps', rfl, rfl⟩

/-- Blank lines in between two texts, or after the lines of one, move what is below them down. -/
theorem readProductions_insert (ha : Ended '\n' a.toList)
    (hblank : ∀ line ∈ Text.lines w.toList, LaidOut [] line)
    (h : Ended '\n' w.toList ∨ b = "") :
    readProductions (a ++ w ++ b) = (readProductions (a ++ b)).mapError
      (·.insertLines (a.toList.count '\n') (w.toList.count '\n')) := by
  apply readProductions_of_readLines
  rcases h with hw | rfl
  · exact readLines_insert ha hw hblank b
  -- after the last line there is nothing that could move
  · rw [String.append_empty, String.append_empty, readLines_append_blank ha hblank]
    cases hread : readLines a with
    | ok ps => rfl
    | error e => exact congrArg Except.error (insertLines_of_readLines ha hread _).symm

/-- An end for the last line, and blank lines after it, change nothing. -/
theorem readProductions_append_newline {newline : String}
    (hnewline : newline = "\n" ∨ newline = "\r\n")
    (hblank : ∀ line ∈ Text.lines w.toList, LaidOut [] line) (text : String) :
    readProductions (text ++ newline ++ w) = readProductions text := by
  -- the end of the last line ends the text, so blank lines after it add nothing
  have hended : Ended '\n' (text ++ newline).toList := by
    rw [String.toList_append]
    right
    rcases hnewline with rfl | rfl <;> simp
  have hread : readLines (text ++ newline ++ w) = readLines text := by
    rw [readLines_append_blank hended hblank, readLines_append_newline hnewline]
  unfold readProductions
  rw [hread]

/-- **Texts put together.**  Let the text `a` end with the end of a line, or be empty.  Then what is
said of `a` and some text `b` after it comes from what is said of each.  An error at a line of `a`
is the error for both.  If there is none, an error at a line of `b` is the error for both, further
down by the ends of lines in `a`.  If there is none either, the productions of both are those of
`a`, then those of `b`, and there are none if there are none in either part.

Hence lines `w` that are blank or hold only a comment, put in between `a` and `b`, or after the end
of the last line of any text, move the errors below them down, and change nothing else. -/
theorem readProductions_append (ha : Ended '\n' a.toList) (b : String) :
    (∀ number line fault, readProductions a = .error (.badLine number line fault) →
      readProductions (a ++ b) = .error (.badLine number line fault)) ∧
    (∀ ps number line fault, Contributes a ps →
      readProductions b = .error (.badLine number line fault) →
      1 ≤ number ∧ readProductions (a ++ b) =
        .error (.badLine (number + a.toList.count '\n') line fault)) ∧
    (∀ ps ps', Contributes a ps → Contributes b ps' → ps ++ ps' ≠ [] →
      readProductions (a ++ b) = .ok (ps ++ ps')) ∧
    (readProductions (a ++ b) = .error .noProductions ↔
      readProductions a = .error .noProductions ∧ readProductions b = .error .noProductions) ∧
    (∀ w, (∀ line ∈ Text.lines w.toList, LaidOut [] line) → Ended '\n' w.toList ∨ b = "" →
      readProductions (a ++ w ++ b) = (readProductions (a ++ b)).mapError
        (·.insertLines (a.toList.count '\n') (w.toList.count '\n'))) ∧
    ∀ text newline w, newline = "\n" ∨ newline = "\r\n" →
      (∀ line ∈ Text.lines w.toList, LaidOut [] line) →
      readProductions (text ++ newline ++ w) = readProductions text := by
  refine ⟨?_, ?_, ?_, ?_, ?_, ?_⟩
  · intro number line fault h
    exact readProductions_append_of_badLine ha b h
  · intro ps number line fault hps h
    exact readProductions_append_of_contributes_badLine ha hps h
  · intro ps ps' hps hps' ne
    exact readProductions_append_of_contributes ha hps hps' ne
  · exact readProductions_append_eq_noProductions ha
  · intro w hblank h
    exact readProductions_insert ha hblank h
  · intro text newline w hnewline hblank
    exact readProductions_append_newline hnewline hblank text

/-- The second of two texts has a bracket in its second line: behind a text of one line, the error
names the third line. -/
theorem readProductions_append_bracket :
    Ended '\n' "1 S x\r\n".toList ∧
      Contributes "1 S x\r\n" [⟨"S", .word "x", .ofMagnitude .one⟩] ∧
      readProductions "# none yet\n1 S (x" = .error (.badLine 2 "1 S (x" (.badSymbol "(x")) ∧
      readProductions ("1 S x\r\n" ++ "# none yet\n1 S (x") =
        .error (.badLine 3 "1 S (x" (.badSymbol "(x")) := by
  have hended : Ended '\n' "1 S x\r\n".toList := .inr (by decide)
  have hread : Contributes "1 S x\r\n" [⟨"S", .word "x", .ofMagnitude .one⟩] :=
    .inl (by decide +kernel)
  have herror : readProductions "# none yet\n1 S (x" =
      .error (.badLine 2 "1 S (x" (.badSymbol "(x")) := by
    decide +kernel
  obtain ⟨-, hsecond, -⟩ := readProductions_append hended "# none yet\n1 S (x"
  exact ⟨hended, hread, herror, (hsecond _ _ _ _ hread herror).2⟩

end Joined

end Source

end PhraseGrammar
