import PhraseGrammar.CommandLine.Session
import PhraseGrammar.Proofs.LineLayout

/-!
# Lines of encoded text

A run cuts its input into lines while it is still bytes, and decodes each line by itself.  For an
input that is text this finds the lines of the text: a byte below `0x80` is an encoded character by
itself and no part of the encoding of another, so the bytes that end lines are where the characters
are that end them.

Cutting goes on after the end of a line as if nothing had come before it, whether or not the bytes
before it are text.

## Main statements

- `decode?_eq_some_iff`: bytes decode to a text if they are its encoding.
- `byteLines_bytesOf`: the lines of an encoded text are its lines, encoded.
- `linesAt_append_of_ended`: the lines of a sequence, after a sequence of ended lines.
- `exists_first_not_text`: where bytes stop being lines of text.
-/

namespace PhraseGrammar

/-! ## Sequences of ended lines -/

namespace Text

/-- Every line in the sequence has its end: nothing comes after the last mark. -/
def Ended {α : Type} (feed : α) (xs : List α) : Prop :=
  xs = [] ∨ xs.getLast? = some feed

section Marks

variable {α : Type} {feed : α} {xs : List α}

theorem Ended.of_cons {x : α} (h : Ended feed (x :: xs)) : Ended feed xs := by
  cases xs with
  | nil => exact .inl rfl
  | cons y ys => simpa [Ended] using h

/-- A sequence of ended lines is put together from pieces with the mark after each. -/
theorem Ended.exists_pieces (h : Ended feed xs) :
    ∃ pieces : List (List α), (∀ piece ∈ pieces, feed ∉ piece) ∧
      xs = pieces.flatMap (· ++ [feed]) := by
  induction xs with
  | nil => exact ⟨[], List.forall_mem_nil _, rfl⟩
  | cons x xs ih =>
    by_cases hx : x = feed
    -- a mark ends an empty piece
    · subst hx
      obtain ⟨pieces, hpieces, rfl⟩ := ih h.of_cons
      exact ⟨[] :: pieces, by simpa using hpieces, rfl⟩
    -- anything else belongs to the first of the pieces after it, which there must be
    · have ne : xs ≠ [] := by
        rintro rfl
        simp [Ended, hx] at h
      obtain ⟨pieces, hpieces, rfl⟩ := ih h.of_cons
      cases pieces with
      | nil => exact absurd rfl ne
      | cons piece pieces =>
        refine ⟨(x :: piece) :: pieces, ?_, rfl⟩
        simpa [Ne.symm hx] using hpieces

/-- A mark in front of ended lines ends whatever comes before it. -/
theorem Ended.append_feed (h : Ended feed xs) (piece : List α) :
    Ended feed (piece ++ feed :: xs) := by
  right
  rcases h with rfl | h
  · rw [List.getLast?_concat]
  · rw [List.append_cons, List.getLast?_append, h, Option.some_or]

variable [BEq α] [LawfulBEq α]

/-- A piece loses at most one mark. -/
theorem eq_dropReturn_or (ret : α) (piece : List α) :
    piece = dropReturn ret piece ∨ piece = dropReturn ret piece ++ [ret] := by
  by_cases h : piece.getLast? = some ret
  · obtain ⟨front, rfl⟩ := List.getLast?_eq_some_iff.mp h
    exact .inr (by rw [dropReturn_append])
  · exact .inl (dropReturn_of_ne h).symm

/-- Pieces with the mark after each are lines, and what comes after them is cut by itself. -/
theorem linesAt_flatMap_append {pieces : List (List α)} (hpieces : ∀ piece ∈ pieces, feed ∉ piece)
    (ret : α) (rest : List α) :
    linesAt feed ret (pieces.flatMap (· ++ [feed]) ++ rest) =
      pieces.map (dropReturn ret) ++ linesAt feed ret rest := by
  induction pieces with
  | nil => rfl
  | cons piece pieces ih =>
    obtain ⟨hpiece, hpieces⟩ := List.forall_mem_cons.mp hpieces
    rw [List.flatMap_cons, List.append_assoc, List.append_assoc, List.singleton_append,
      linesAt_append_feed hpiece, ih hpieces, List.map_cons, List.cons_append]

theorem linesAt_flatMap {pieces : List (List α)} (hpieces : ∀ piece ∈ pieces, feed ∉ piece)
    (ret : α) : linesAt feed ret (pieces.flatMap (· ++ [feed])) = pieces.map (dropReturn ret) := by
  have happend := linesAt_flatMap_append hpieces ret []
  rwa [List.append_nil, linesAt_nil, List.append_nil] at happend

/-- After ended lines, cutting starts afresh. -/
theorem linesAt_append_of_ended (h : Ended feed xs) (ret : α) (rest : List α) :
    linesAt feed ret (xs ++ rest) = linesAt feed ret xs ++ linesAt feed ret rest := by
  obtain ⟨pieces, hpieces, rfl⟩ := h.exists_pieces
  rw [linesAt_flatMap_append hpieces, linesAt_flatMap hpieces]

/-- Where the lines of a sequence are cut in two, the sequence is cut after the end of a line. -/
theorem exists_append_of_linesAt {ret : α} {before after : List (List α)} (ne : after ≠ [])
    (h : linesAt feed ret xs = before ++ after) :
    ∃ front back, xs = front ++ back ∧ Ended feed front ∧ linesAt feed ret front = before ∧
      linesAt feed ret back = after := by
  induction before generalizing xs with
  | nil => exact ⟨[], xs, rfl, .inl rfl, linesAt_nil, h⟩
  | cons line before ih =>
    by_cases hfeed : feed ∈ xs
    · obtain ⟨piece, rest, rfl, hpiece⟩ := List.eq_append_cons_of_mem hfeed
      rw [linesAt_append_feed hpiece, List.cons_append, List.cons.injEq] at h
      obtain ⟨rfl, hrest⟩ := h
      obtain ⟨front, back, rfl, hended, rfl, hback⟩ := ih hrest
      refine ⟨piece ++ feed :: front, back, by simp, ?_, linesAt_append_feed hpiece ret front, hback⟩
      exact hended.append_feed piece
    -- without a mark there is one line at most, and two are needed
    · have hle : (linesAt feed ret xs).length ≤ 1 := by
        rw [linesAt_of_not_mem hfeed]
        split <;> simp
      have hpos := List.length_pos_iff.mpr ne
      rw [h, List.length_append, List.length_cons] at hle
      omega

end Marks

end Text

/-! ## Encoded text -/

namespace CommandLine

/-- The bytes that encode a text. -/
def bytesOf (text : String) : List UInt8 :=
  text.toUTF8.data.toList

/-- The encoding of a text decodes to the text. -/
theorem decode?_bytesOf (text : String) : decode? (bytesOf text) = some text := by
  unfold decode? bytesOf
  rw [Array.toArray_toList]
  unfold String.fromUTF8?
  rw [String.toUTF8_eq_toByteArray, dif_pos text.isValidUTF8]
  rfl

/-- Bytes decode to a text if they are its encoding, and to nothing otherwise. -/
theorem decode?_eq_some_iff {bytes : List UInt8} {text : String} :
    decode? bytes = some text ↔ bytes = bytesOf text := by
  constructor
  · intro h
    unfold decode? String.fromUTF8? at h
    split at h
    · rw [← Option.some.inj h]
      simp [bytesOf, String.fromUTF8]
    · cases h
  · intro h
    rw [h, decode?_bytesOf]

/-- A file that holds the text of a closed grammar is loaded, whether or not the run is strict. -/
theorem load_bytesOf {world : Surroundings} {path source : String} {g : Grammar}
    (hfile : world.file path = .ok (bytesOf source)) (hread : Grammar.read source = .ok g)
    (closed : g.IsClosed) (strict : Bool) : load world path strict = .ok g := by
  simp [load, hfile, decode?_bytesOf, hread, closed]

theorem bytesOf_ofList (cs : List Char) :
    bytesOf (String.ofList cs) = cs.flatMap String.utf8EncodeChar := by
  have hbytes : (String.ofList cs).toUTF8 = (cs.flatMap String.utf8EncodeChar).toByteArray := rfl
  rw [bytesOf, hbytes, List.data_toByteArray]

theorem bytesOf_eq_flatMap (text : String) :
    bytesOf text = text.toList.flatMap String.utf8EncodeChar := by
  rw [← bytesOf_ofList, String.ofList_toList]

theorem bytesOf_append (front back : String) :
    bytesOf (front ++ back) = bytesOf front ++ bytesOf back := by
  simp only [bytesOf_eq_flatMap, String.toList_append, List.flatMap_append]

/-- The bytes encode a text. -/
def IsText (bytes : List UInt8) : Prop :=
  (decode? bytes).isSome = true

/-- Bytes are text if some text is encoded by them. -/
theorem isText_iff {bytes : List UInt8} : IsText bytes ↔ ∃ text, bytes = bytesOf text := by
  simp only [IsText, Option.isSome_iff_exists, decode?_eq_some_iff]

theorem not_isText_iff {bytes : List UInt8} : ¬ IsText bytes ↔ decode? bytes = none := by
  rw [IsText, Option.not_isSome_iff_eq_none]

theorem isText_bytesOf (text : String) : IsText (bytesOf text) :=
  isText_iff.mpr ⟨text, rfl⟩

theorem IsText.append {front back : List UInt8} (hfront : IsText front) (hback : IsText back) :
    IsText (front ++ back) := by
  obtain ⟨text, rfl⟩ := isText_iff.mp hfront
  obtain ⟨text', rfl⟩ := isText_iff.mp hback
  rw [← bytesOf_append]
  exact isText_bytesOf _

/-! ## Characters in encoded text -/

/-- A byte below `0x80` is an encoded character by itself. -/
theorem toNat_eq_of_mem_encodeChar {c : Char} {b : UInt8} (hb : b ∈ String.utf8EncodeChar c)
    (low : b.toNat < 0x80) : c.toNat = b.toNat := by
  simp only [String.utf8EncodeChar] at hb
  split at hb
  · next hsize =>
    rw [List.mem_singleton.mp hb, UInt8.toNat_ofNat']
    exact (Nat.mod_eq_of_lt (Nat.lt_of_le_of_lt hsize (by decide))).symm
  -- a longer encoding marks all of its bytes by their highest bit
  · exfalso
    split_ifs at hb
    all_goals
      simp only [List.mem_cons, List.not_mem_nil, or_false] at hb
      grind [UInt8.toNat_ofNat']

section Ascii

variable {c : Char} {cs : List Char}

/-- The byte of an ASCII character is in the encoding of no other character. -/
theorem eq_of_mem_encodeChar (ascii : c.toNat < 0x80) {d : Char}
    (h : UInt8.ofNat c.toNat ∈ String.utf8EncodeChar d) : d = c := by
  have hbyte : (UInt8.ofNat c.toNat).toNat = c.toNat := by
    rw [UInt8.toNat_ofNat']
    exact Nat.mod_eq_of_lt (Nat.lt_trans ascii (by decide))
  have hsame := toNat_eq_of_mem_encodeChar h (by rwa [hbyte])
  rw [hbyte] at hsame
  exact Char.toNat_inj.mp hsame

/-- An ASCII character whose byte occurs in an encoded text is in the text. -/
theorem mem_of_mem_encode (ascii : c.toNat < 0x80)
    (h : UInt8.ofNat c.toNat ∈ cs.flatMap String.utf8EncodeChar) : c ∈ cs := by
  obtain ⟨d, hd, hmem⟩ := List.mem_flatMap.mp h
  rwa [← eq_of_mem_encodeChar ascii hmem]

/-- An ASCII character whose byte ends an encoded text ends the text. -/
theorem getLast?_of_getLast?_encode (ascii : c.toNat < 0x80)
    (h : (cs.flatMap String.utf8EncodeChar).getLast? = some (UInt8.ofNat c.toNat)) :
    cs.getLast? = some c := by
  rcases List.eq_nil_or_concat cs with rfl | ⟨front, d, rfl⟩
  · cases h
  · obtain ⟨b, hb⟩ := Option.ne_none_iff_exists'.mp
      (mt List.getLast?_eq_none_iff.mp String.utf8EncodeChar_ne_nil)
    rw [List.concat_eq_append, List.flatMap_append, List.flatMap_singleton, List.getLast?_append,
      hb, Option.some_or] at h
    rw [h] at hb
    rw [eq_of_mem_encodeChar ascii (List.mem_of_getLast? hb)]
    simp

end Ascii

/-- The lines of an encoded text are its lines, encoded. -/
theorem byteLines_encode {cs : List Char} {ls : List (List Char)} (h : Text.LinesOf cs ls) :
    Text.byteLines (cs.flatMap String.utf8EncodeChar) =
      ls.map fun line => line.flatMap String.utf8EncodeChar := by
  -- the bytes that end lines come from the characters that do
  have hfeed : ∀ {line : List Char}, '\n' ∉ line → 0x0a ∉ line.flatMap String.utf8EncodeChar :=
    mt (mem_of_mem_encode (c := '\n') (by decide))
  have hreturn : ∀ {line : List Char}, line.getLast? ≠ some '\r' →
      (line.flatMap String.utf8EncodeChar).getLast? ≠ some 0x0d :=
    mt (getLast?_of_getLast?_encode (c := '\r') (by decide))
  unfold Text.byteLines
  induction h with
  | none => rfl
  -- the last line, without a mark after it
  | @last line ne hline =>
    obtain ⟨c, hc⟩ := List.exists_mem_of_ne_nil line ne
    have hne : line.flatMap String.utf8EncodeChar ≠ [] := fun hnil =>
      String.utf8EncodeChar_ne_nil (List.flatMap_eq_nil_iff.mp hnil c hc)
    rw [Text.linesAt_of_not_mem (hfeed hline), if_neg (mt List.isEmpty_iff.mp hne)]
    rfl
  | @feed line rest ls hline hend _ ih =>
    have hbytes : (line ++ '\n' :: rest).flatMap String.utf8EncodeChar =
        line.flatMap String.utf8EncodeChar ++ 0x0a :: rest.flatMap String.utf8EncodeChar := by
      rw [List.flatMap_append]
      rfl
    rw [hbytes, Text.linesAt_append_feed (hfeed hline), Text.dropReturn_of_ne (hreturn hend), ih,
      List.map_cons]
  -- here the line is ended by two characters, and the first of them is dropped
  | @returnFeed line rest ls hline _ ih =>
    have hpiece : '\n' ∉ line ++ ['\r'] := by simp [hline]
    have hbytes : (line ++ '\r' :: '\n' :: rest).flatMap String.utf8EncodeChar =
        (line ++ ['\r']).flatMap String.utf8EncodeChar ++
          0x0a :: rest.flatMap String.utf8EncodeChar := by
      rw [List.flatMap_append, List.flatMap_append, List.append_assoc]
      rfl
    have hcut : (line ++ ['\r']).flatMap String.utf8EncodeChar =
        line.flatMap String.utf8EncodeChar ++ [0x0d] := List.flatMap_append
    rw [hbytes, Text.linesAt_append_feed (hfeed hpiece), hcut, Text.dropReturn_append, ih,
      List.map_cons]

/-- The lines of a text. -/
def textLines (text : String) : List String :=
  (Text.lines text.toList).map String.ofList

theorem byteLines_bytesOf (text : String) :
    Text.byteLines (bytesOf text) = (textLines text).map bytesOf := by
  have hlines := byteLines_encode (Text.linesOf_iff.mpr (Eq.refl (Text.lines text.toList)))
  rw [bytesOf_eq_flatMap, hlines, textLines, List.map_map]
  apply List.map_congr_left
  intro line _
  exact (bytesOf_ofList line).symm

/-! ## The first line that is not text -/

/-- A carriage return at the end makes no difference to whether bytes are text. -/
theorem isText_of_dropReturn {piece : List UInt8} (h : IsText (Text.dropReturn 0x0d piece)) :
    IsText piece := by
  rcases Text.eq_dropReturn_or 0x0d piece with heq | heq
  · rwa [heq]
  · rw [heq]
    exact h.append (isText_bytesOf "\r")

/-- Ended lines that are all text are text together. -/
theorem isText_of_lines {bytes : List UInt8} (hended : Text.Ended 0x0a bytes)
    (h : ∀ line ∈ Text.byteLines bytes, IsText line) : IsText bytes := by
  obtain ⟨pieces, hpieces, rfl⟩ := hended.exists_pieces
  rw [Text.byteLines, Text.linesAt_flatMap hpieces, List.forall_mem_map] at h
  clear hended hpieces
  induction pieces with
  | nil => exact isText_bytesOf ""
  | cons piece pieces ih =>
    obtain ⟨hpiece, hpieces⟩ := List.forall_mem_cons.mp h
    have hline : IsText (piece ++ [0x0a]) :=
      (isText_of_dropReturn hpiece).append (isText_bytesOf "\n")
    exact hline.append (ih hpieces)

/-- Bytes with a line that is not text have a front that is, and that ends where the first such line
begins. -/
theorem exists_first_not_text {bytes : List UInt8}
    (h : ∃ line ∈ Text.byteLines bytes, ¬ IsText line) :
    ∃ front back bad after, bytes = front ++ back ∧ IsText front ∧ Text.Ended 0x0a front ∧
      Text.byteLines back = bad :: after ∧ ¬ IsText bad := by
  obtain ⟨line, hmem, hline⟩ := h
  cases hfind : (Text.byteLines bytes).find? fun line => (decode? line).isNone with
  | none =>
    have hall := List.find?_eq_none.mp hfind line hmem
    simp [not_isText_iff.mp hline] at hall
  -- the input is cut in front of the first line that does not decode
  | some bad =>
    obtain ⟨hbad, before, after, hlines, hbefore⟩ := List.find?_eq_some_iff_append.mp hfind
    obtain ⟨front, back, rfl, hended, hfront, hback⟩ :=
      Text.exists_append_of_linesAt (List.cons_ne_nil bad after) hlines
    have htext : IsText front := by
      apply isText_of_lines hended
      intro line hmem
      have hsome := hbefore line (hfront ▸ hmem)
      simpa [IsText, Option.isSome_iff_ne_none] using hsome
    exact ⟨front, back, bad, after, rfl, htext, hended, hback,
      not_isText_iff.mpr (Option.isNone_iff_eq_none.mp hbad)⟩

end CommandLine

end PhraseGrammar
