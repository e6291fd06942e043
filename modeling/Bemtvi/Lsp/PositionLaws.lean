/-
Module: Bemtvi.Lsp.PositionLaws
Purpose: A column and a place resolve to the byte the protocol means: whatever the encoding, whatever
  line the resolver last looked at, with `'endofline'` on or off, within the document or past its
  end.
Trusted boundary: none
Main exports: byteCol_eq, LineCols.byte_eq, documentByte_rope, LspPosResolver.pos_eq,
  lspRangeToBytesIn_eq
-/
import Bemtvi.Lib.Lines
import Bemtvi.Lsp.Position

namespace Bemtvi.Lsp

open Utf8
open Bemtvi.Core (Buffer stripEol)

/-! ### Columns -/

theorem columnByte_le_size (encoding : PositionEncoding) (line : Text) (character : Nat) :
    columnByte encoding line character ≤ size line := by
  induction line generalizing character with
  | nil => exact Nat.le_refl 0
  | cons c line ih =>
      rw [columnByte, size_cons]
      split
      · exact Nat.add_le_add_left (ih _) _
      · exact Nat.zero_le _

/-- A column is a boundary of its line. -/
theorem cut_columnByte (encoding : PositionEncoding) (line : Text) (character : Nat) :
    ∃ front back, line = front ++ back ∧ size front = columnByte encoding line character := by
  induction line generalizing character with
  | nil => exact ⟨[], [], rfl, rfl⟩
  | cons c line ih =>
      rw [columnByte]
      split
      · obtain ⟨front, back, rfl, length⟩ := ih (character - encoding.units c)
        exact ⟨c :: front, back, rfl, by rw [size_cons, length]⟩
      · exact ⟨[], c :: line, rfl, rfl⟩

variable {byte : Nat} {c : Char}

theorem isCharBoundary_iff {line : Text} :
    isCharBoundary line byte = true ↔ ∃ front back, line = front ++ back ∧ size front = byte := by
  rw [isCharBoundary, Option.isSome_iff_exists]
  constructor
  · rintro ⟨⟨front, back⟩, found⟩
    exact ⟨front, back, cut_eq_some.1 found⟩
  · rintro ⟨front, back, whole⟩
    exact ⟨(front, back), cut_eq_some.2 whole⟩

/-- A column in UTF-8 is the last boundary up to it. -/
theorem not_isCharBoundary {line : Text} {character : Nat}
    (beyond : columnByte .utf8 line character < byte) (within : byte ≤ character) :
    isCharBoundary line byte = false := by
  rw [← Bool.not_eq_true, isCharBoundary_iff]
  rintro ⟨front, back, rfl, rfl⟩
  induction front generalizing character with
  | nil => simp at beyond
  | cons c front ih =>
      rw [List.cons_append, columnByte, size_cons] at beyond
      rw [size_cons] at within
      have passes : PositionEncoding.utf8.passes c character = true := by
        simp only [PositionEncoding.passes, decide_eq_true_eq]
        omega
      rw [if_pos passes] at beyond
      refine ih ?_ (Nat.lt_of_add_lt_add_left beyond)
      simp only [PositionEncoding.units]
      omega

theorem columnByte_utf8_le (line : Text) (character : Nat) :
    columnByte .utf8 line character ≤ character := by
  induction line generalizing character with
  | nil => exact Nat.zero_le _
  | cons c line ih =>
      rw [columnByte]
      split
      · next passes =>
          have rest := ih (character - c.utf8Size)
          simp only [PositionEncoding.passes, decide_eq_true_eq] at passes
          simp only [PositionEncoding.units]
          omega
      · exact Nat.zero_le _

theorem snapDown_eq {line : Text} {boundary : Nat} (isBoundary : isCharBoundary line boundary)
    (below : boundary ≤ byte)
    (last : ∀ other, boundary < other → other ≤ byte → isCharBoundary line other = false) :
    snapDown line byte = boundary := by
  induction byte with
  | zero => exact (Nat.le_zero.1 below).symm
  | succ byte ih =>
      rw [snapDown]
      rcases Nat.eq_or_lt_of_le below with rfl | further
      · rw [if_pos isBoundary]
      · rw [last (byte + 1) further (Nat.le_refl _)]
        exact ih (Nat.le_of_lt_succ further) fun other above within =>
          last other above (Nat.le_succ_of_le within)

theorem utf16ToByteFrom_eq (u16Units units byte : Nat) (line : Text) :
    utf16ToByteFrom u16Units units byte line =
      byte + columnByte .utf16 line (u16Units - units) := by
  induction line generalizing units byte with
  | nil => rfl
  | cons c line ih =>
      rw [utf16ToByteFrom, columnByte]
      simp only [PositionEncoding.passes, PositionEncoding.units, decide_eq_true_eq]
      by_cases reached : u16Units ≤ units
      · rw [if_pos reached, if_neg (by omega)]
        rfl
      · rw [if_neg reached, if_pos (by omega), ih, Nat.sub_sub, Nat.add_assoc]

theorem nthByte_eq (line : Text) (character : Nat) :
    nthByte line character = columnByte .utf32 line character := by
  induction line generalizing character with
  | nil => rfl
  | cons c line ih =>
      cases character with
      | zero => rfl
      | succ character =>
          rw [nthByte, columnByte, ih]
          rfl

/-- **`byte_col` is the protocol's column.** -/
theorem byteCol_eq (encoding : PositionEncoding) (line : Text) (character : Nat) :
    byteCol encoding line character = columnByte encoding line character := by
  cases encoding with
  | utf8 =>
      apply snapDown_eq
      · exact isCharBoundary_iff.2 (cut_columnByte .utf8 line character)
      · exact Nat.le_min.2 ⟨columnByte_utf8_le line character, columnByte_le_size .utf8 line character⟩
      · intro other beyond within
        exact not_isCharBoundary beyond (Nat.le_trans within (Nat.min_le_left _ _))
  | utf16 =>
      rw [byteCol, utf16ToByte, utf16ToByteFrom_eq, Nat.zero_add]
      rfl
  | utf32 => exact nthByte_eq line character

theorem lenUtf16_le (c : Char) : lenUtf16 c ≤ c.utf8Size := by
  have positive := c.utf8Size_pos
  unfold lenUtf16
  split
  · exact positive
  · next wide =>
    have above : ¬ c.val ≤ 0x7f := by
      rw [UInt32.le_iff_toNat_le]
      exact fun small => wide (Nat.lt_of_le_of_lt small (by decide))
    simp only [Char.utf8Size]
    split
    · next small => exact absurd small above
    · split
      · exact Nat.le_refl 2
      · split <;> decide

/-- A character passes a column that counts as many units as it has bytes. -/
theorem passes_of_size_le (encoding : PositionEncoding) {left : Nat} (enough : c.utf8Size ≤ left) :
    encoding.passes c left = true ∧ encoding.units c ≤ c.utf8Size := by
  have positive := c.utf8Size_pos
  cases encoding with
  | utf8 => exact ⟨decide_eq_true enough, Nat.le_refl _⟩
  | utf16 => exact ⟨decide_eq_true (Nat.lt_of_lt_of_le positive enough), lenUtf16_le c⟩
  | utf32 => exact ⟨decide_eq_true (Nat.lt_of_lt_of_le positive enough), positive⟩

/-- A column no less than a line's bytes is past the line. -/
theorem columnByte_of_size_le (encoding : PositionEncoding) {line : Text} {character : Nat}
    (beyond : size line ≤ character) : columnByte encoding line character = size line := by
  induction line generalizing character with
  | nil => rfl
  | cons c line ih =>
      rw [size_cons] at beyond
      obtain ⟨passes, units⟩ := passes_of_size_le encoding ((Nat.le_add_right _ _).trans beyond)
      rw [columnByte, if_pos passes, ih (by omega), size_cons]

/-- In an ASCII line every encoding counts bytes. -/
theorem columnByte_ascii (encoding : PositionEncoding) {line : Text} (character : Nat)
    (ascii : ∀ c ∈ line, c.toNat < 0x80) :
    columnByte encoding line character = min character (size line) := by
  induction line generalizing character with
  | nil => simp [columnByte]
  | cons c line ih =>
      have small := ascii c List.mem_cons_self
      have one_byte : c.utf8Size = 1 := by
        have bound : c.val ≤ 0x7f := by
          rw [UInt32.le_iff_toNat_le]
          exact Nat.le_of_lt_succ small
        simp [Char.utf8Size, bound]
      have one_unit : encoding.units c = 1 := by
        cases encoding with
        | utf8 => exact one_byte
        | utf16 => exact if_pos (by omega)
        | utf32 => rfl
      have passes : encoding.passes c character = decide (0 < character) := by
        cases encoding with
        | utf8 => simp [PositionEncoding.passes, one_byte, Nat.succ_le_iff]
        | utf16 => rfl
        | utf32 => rfl
      rw [columnByte, passes, one_unit, one_byte, size_cons, one_byte,
        ih _ fun c' member => ascii c' (List.mem_cons_of_mem c member)]
      simp only [decide_eq_true_eq]
      split <;> omega

namespace LineCols

/-- The bound a UTF-16 or UTF-32 column falls on, by what the bounds say of the column. -/
theorem bounds_eq {encoding : PositionEncoding} {of : Nat × Nat × Nat → Nat}
    (passes : ∀ c n, encoding.passes c n = decide (0 < n))
    (counts : ∀ c units chars byte, of (units + lenUtf16 c, chars + 1, byte + c.utf8Size) =
      of (units, chars, byte) + encoding.units c)
    (character units chars byte : Nat) (line : Text) :
    let bounds := boundsFrom units chars byte line
    (bounds[partitionPoint bounds fun bound => of bound < character]?).elim
        (byte + size line) (fun bound => bound.2.2) =
      byte + columnByte encoding line (character - of (units, chars, byte)) := by
  induction line generalizing units chars byte with
  | nil =>
      by_cases reached : of (units, chars, byte) < character <;>
        simp [boundsFrom, partitionPoint, columnByte, reached]
  | cons c line ih =>
      simp only [boundsFrom, partitionPoint, columnByte, passes]
      by_cases reached : of (units, chars, byte) < character
      · have rest := ih (units + lenUtf16 c) (chars + 1) (byte + c.utf8Size)
        simp only [partitionPoint] at rest
        rw [List.takeWhile_cons_of_pos (by simpa using reached)]
        have left : 0 < character - of (units, chars, byte) := by omega
        simp only [List.length_cons, List.getElem?_cons_succ, size_cons, decide_eq_true_eq, left,
          if_true]
        rw [← Nat.add_assoc, rest, counts, Nat.sub_sub, Nat.add_assoc]
      · have left : ¬ 0 < character - of (units, chars, byte) := by omega
        rw [List.takeWhile_cons_of_neg (by simpa using reached)]
        simp [left]

/-- **A line's columns are the protocol's.** -/
theorem byte_eq (text : Text) (encoding : PositionEncoding) (character : Nat) :
    (LineCols.new text).byte encoding character = columnByte encoding text character := by
  rw [LineCols.byte]
  split
  · next ascii =>
      rw [columnByte_ascii encoding character]
      · rfl
      · intro c member
        have small := List.all_eq_true.1 ascii c member
        simpa using small
  · split
    · exact byteCol_eq encoding text character
    · next wide =>
        cases encoding with
        | utf8 => exact absurd rfl wide
        | utf16 =>
            have bound := @bounds_eq .utf16 (fun bound => bound.1) (fun _ _ => rfl) (fun _ _ _ _ => rfl)
              character 0 0 0 text
            simp only [Nat.zero_add, Nat.sub_zero] at bound
            exact bound
        | utf32 =>
            have bound := @bounds_eq .utf32 (fun bound => bound.2.1) (fun _ _ => rfl) (fun _ _ _ _ => rfl)
              character 0 0 0 text
            simp only [Nat.zero_add, Nat.sub_zero] at bound
            exact bound

end LineCols

/-! ### Lines of a document -/

/-- A line without breaks in front of a newline. -/
structure IsLine (line : Text) : Prop where
  no_newline : '\n' ∉ line
  no_carriage : '\r' ∉ line

theorem IsLine.of_cons {line : Text} (isLine : IsLine (c :: line)) : IsLine line :=
  ⟨fun member => isLine.no_newline (List.mem_cons_of_mem c member),
    fun member => isLine.no_carriage (List.mem_cons_of_mem c member)⟩

theorem IsLine.stays {line : Text} (isLine : IsLine (c :: line)) (next : Option Char) :
    breaks c next = false := by
  have not_newline : c ≠ '\n' := by
    rintro rfl
    exact isLine.no_newline List.mem_cons_self
  have not_carriage : c ≠ '\r' := by
    rintro rfl
    exact isLine.no_carriage List.mem_cons_self
  simp [breaks, not_newline, not_carriage]

theorem lines_line {line : Text} (isLine : IsLine line) (rest : Text) :
    lines (line ++ '\n' :: rest) = (line ++ ['\n']) :: lines rest := by
  induction line with
  | nil => rfl
  | cons c line ih =>
      rw [List.cons_append, lines, isLine.stays, ih isLine.of_cons]
      rfl

theorem lineStart_line {line : Text} (isLine : IsLine line) (rest : Text) (row : Nat) :
    Utf8.lineStart (line ++ '\n' :: rest) (row + 1) =
      size line + 1 + Utf8.lineStart rest row := by
  induction line with
  | nil => rfl
  | cons c line ih =>
      rw [List.cons_append, Utf8.lineStart, isLine.stays, size_cons]
      simp only [Bool.false_eq_true, if_false]
      rw [ih isLine.of_cons]
      omega

theorem IsLine.apart {line : Text} (isLine : IsLine line) :
    ∀ c ∈ line, decide (c ≠ '\n') = true := by
  intro c member
  have not_newline : c ≠ '\n' := by
    rintro rfl
    exact isLine.no_newline member
  simpa using not_newline

theorem takeWhile_line {line : Text} (isLine : IsLine line) (rest : Text) :
    (line ++ '\n' :: rest).takeWhile (· ≠ '\n') = line := by
  rw [List.takeWhile_append_of_pos isLine.apart]
  simp

theorem dropWhile_line {line : Text} (isLine : IsLine line) (rest : Text) :
    (line ++ '\n' :: rest).dropWhile (· ≠ '\n') = '\n' :: rest := by
  rw [List.dropWhile_append_of_pos isLine.apart]
  simp

theorem stripEol_line {line : Text} (isLine : IsLine line) : stripEol (line ++ ['\n']) = line := by
  have no_carriage : line.getLast? ≠ some '\r' := by
    intro last
    exact isLine.no_carriage (List.mem_of_getLast? last)
  rw [stripEol, List.getLast?_concat, if_pos rfl, List.dropLast_concat, if_neg no_carriage]

/-- The first line of a text that ends in a newline. -/
theorem exists_line {text : Text} (ends : text.getLast? = some '\n') (plain : '\r' ∉ text) :
    ∃ line rest, text = line ++ '\n' :: rest ∧ IsLine line := by
  obtain ⟨line, rest, whole, no_newline⟩ :=
    List.eq_append_cons_of_mem (List.mem_of_getLast? ends)
  exact ⟨line, rest, whole, no_newline, fun member => plain (whole ▸ List.mem_append_left _ member)⟩

/-- The document of a rope: without the newline that is not in it. -/
def documentOf (endofline : Bool) (rope : Text) : Text := if endofline then rope else rope.dropLast

/-- Behind a line comes the rest of the rope, or the document ends with the line. -/
theorem documentOf_line (endofline : Bool) (line rest : Text) :
    documentOf endofline (line ++ '\n' :: rest) =
      if rest = [] ∧ endofline = false then line else line ++ '\n' :: documentOf endofline rest := by
  cases endofline with
  | true => simp [documentOf]
  | false =>
      cases rest with
      | nil => simp [documentOf]
      | cons c rest => simp [documentOf, List.dropLast_append_of_ne_nil]

/-- The line of a rope at a row, as `line_cow` has it. -/
def rowText (rope : Text) (row : Nat) : Text :=
  if row < (lines rope).length - 1 then stripEol ((lines rope)[row]?.getD []) else []

theorem rowText_zero {line : Text} (isLine : IsLine line) (rest : Text) :
    rowText (line ++ '\n' :: rest) 0 = line := by
  have positive := List.length_pos_of_ne_nil (lines_ne_nil rest)
  rw [rowText, lines_line isLine, List.length_cons, if_pos (by omega)]
  exact stripEol_line isLine

theorem rowText_succ {line : Text} (isLine : IsLine line) (rest : Text) (row : Nat) :
    rowText (line ++ '\n' :: rest) (row + 1) = rowText rest row := by
  have positive := List.length_pos_of_ne_nil (lines_ne_nil rest)
  have same : row + 1 < (lines rest).length + 1 - 1 ↔ row < (lines rest).length - 1 := by omega
  rw [rowText, rowText, lines_line isLine, List.length_cons, if_congr same rfl rfl]
  rfl

/-- The byte of a place on a rope, past its document's last row the document's end. -/
def ropeByte (encoding : PositionEncoding) (character : Nat) (endofline : Bool) (row : Nat)
    (rope : Text) : Nat :=
  if row > (lines rope).length - 1 - (if endofline then 0 else 1) then
    size rope - if endofline then 0 else 1
  else Utf8.lineStart rope row + columnByte encoding (rowText rope row) character

theorem newline_size : '\n'.utf8Size = 1 := rfl

/-- A rope has the row and the byte that its document is short of. -/
theorem tail_inside {endofline : Bool} {rope : Text}
    (ends : rope.getLast? = some '\n' ∨ (rope = [] ∧ endofline = true)) (plain : '\r' ∉ rope) :
    (if endofline then 0 else 1) ≤ (lines rope).length - 1 ∧
      (if endofline then 0 else 1) ≤ size rope := by
  rcases ends with ends | ⟨rfl, rfl⟩
  · obtain ⟨line, rest, rfl, isLine⟩ := exists_line ends plain
    have positive := List.length_pos_of_ne_nil (lines_ne_nil rest)
    rw [lines_line isLine, List.length_cons, size_append, size_cons, newline_size]
    split <;> omega
  · exact ⟨Nat.zero_le _, Nat.zero_le _⟩

/-- **The rope and the document agree on every place.**  By induction on the row, a line at a time. -/
theorem documentByte_rope (encoding : PositionEncoding) (character : Nat) (endofline : Bool)
    (row : Nat) {rope : Text} (plain : '\r' ∉ rope)
    (ends : rope.getLast? = some '\n' ∨ (rope = [] ∧ endofline = true)) :
    documentByte encoding character row (documentOf endofline rope) =
      ropeByte encoding character endofline row rope := by
  induction row generalizing rope with
  | zero =>
      rcases ends with ends | ⟨rfl, rfl⟩
      · obtain ⟨line, rest, rfl, isLine⟩ := exists_line ends plain
        have positive := List.length_pos_of_ne_nil (lines_ne_nil rest)
        have within : ¬ 0 > (lines (line ++ '\n' :: rest)).length - 1 - (if endofline then 0 else 1) :=
          Nat.not_lt_zero _
        rw [ropeByte, if_neg within, rowText_zero isLine, documentOf_line]
        split
        · rw [documentByte, List.takeWhile_eq_self_iff.2 isLine.apart]
          simp [Utf8.lineStart]
        · rw [documentByte, takeWhile_line isLine]
          simp [Utf8.lineStart]
      · rfl
  | succ row ih =>
      rcases ends with ends | ⟨rfl, rfl⟩
      · obtain ⟨line, rest, rfl, isLine⟩ := exists_line ends plain
        have positive := List.length_pos_of_ne_nil (lines_ne_nil rest)
        rw [documentOf_line]
        by_cases last : rest = [] ∧ endofline = false
        · obtain ⟨rfl, rfl⟩ := last
          rw [if_pos ⟨rfl, rfl⟩, documentByte, List.dropWhile_eq_nil_iff.2 isLine.apart, ropeByte,
            lines_line isLine]
          simp [lines, newline_size]
        · have ends' : rest.getLast? = some '\n' ∨ (rest = [] ∧ endofline = true) := by
            cases rest with
            | nil => exact Or.inr ⟨rfl, by simpa using last⟩
            | cons c rest => exact Or.inl (by simpa using ends)
          have plain' : '\r' ∉ rest := fun member =>
            plain (List.mem_append_right _ (List.mem_cons_of_mem _ member))
          rw [if_neg last, documentByte, dropWhile_line isLine, takeWhile_line isLine]
          simp only
          obtain ⟨rows, bytes⟩ := tail_inside ends' plain'
          rw [ih plain' ends', ropeByte, ropeByte, rowText_succ isLine, lineStart_line isLine,
            lines_line isLine, List.length_cons, size_append, size_cons, newline_size]
          generalize (if endofline = true then 0 else 1) = phantom at rows bytes ⊢
          by_cases past : row > (lines rest).length - 1 - phantom
          · rw [if_pos past, if_pos (by omega)]
            omega
          · rw [if_neg past, if_neg (by omega)]
            omega
      · rfl

/-! ### The resolver -/

namespace LspPosResolver

variable {E : Type}

/-- The columns at hand are those of their row. -/
def Coherent (resolver : LspPosResolver E) : Prop :=
  ∀ row cols, resolver.line = some (row, cols) →
    cols = LineCols.new (resolver.buffer.lineCow row)

variable {resolver : LspPosResolver E} {encoding : PositionEncoding} {pos : Position}

theorem Coherent.colsOf (coherent : resolver.Coherent) (row : Nat) :
    resolver.colsOf row = LineCols.new (resolver.buffer.lineCow row) := by
  rw [LspPosResolver.colsOf]
  split
  · next at_row cols at_hand =>
      split
      · next same => rw [coherent at_row cols at_hand, same]
      · rfl
  · rfl

theorem pos_of_past (past : pos.line > resolver.buffer.lineCount -
      (if resolver.buffer.options.endofline then 0 else 1)) :
    resolver.pos pos encoding = (resolver.buffer.documentLenBytes, resolver) :=
  if_pos past

theorem pos_of_within (within : ¬ pos.line > resolver.buffer.lineCount -
      (if resolver.buffer.options.endofline then 0 else 1)) : resolver.pos pos encoding =
      (Utf8.lineStart resolver.buffer.text pos.line +
          (resolver.colsOf pos.line).byte encoding pos.character,
        { resolver with line := some (pos.line, resolver.colsOf pos.line) }) :=
  if_neg within

/-- **A place resolves to the byte the protocol means**, whatever the resolver looked at before. -/
theorem pos_eq (coherent : resolver.Coherent) (ends : resolver.buffer.text.getLast? = some '\n')
    (plain : '\r' ∉ resolver.buffer.text) (pos : Position) (encoding : PositionEncoding) :
    (resolver.pos pos encoding).1 =
        documentByte encoding pos.character pos.line resolver.buffer.documentText ∧
      (resolver.pos pos encoding).2.buffer = resolver.buffer ∧
      (resolver.pos pos encoding).2.Coherent := by
  have same : documentByte encoding pos.character pos.line resolver.buffer.documentText =
      ropeByte encoding pos.character resolver.buffer.options.endofline pos.line
        resolver.buffer.text :=
    documentByte_rope encoding pos.character resolver.buffer.options.endofline pos.line plain
      (Or.inl ends)
  rw [same]
  by_cases past : pos.line > resolver.buffer.lineCount -
      (if resolver.buffer.options.endofline then 0 else 1)
  · have ended : ropeByte encoding pos.character resolver.buffer.options.endofline pos.line
        resolver.buffer.text = resolver.buffer.documentLenBytes := if_pos past
    rw [pos_of_past past, ended]
    exact ⟨rfl, rfl, coherent⟩
  · have inside : ropeByte encoding pos.character resolver.buffer.options.endofline pos.line
        resolver.buffer.text = Utf8.lineStart resolver.buffer.text pos.line +
          columnByte encoding (resolver.buffer.lineCow pos.line) pos.character := if_neg past
    rw [pos_of_within past, inside]
    refine ⟨?_, rfl, ?_⟩
    · simp only [coherent.colsOf, LineCols.byte_eq]
    · intro row cols at_hand
      cases at_hand
      exact coherent.colsOf pos.line

end LspPosResolver

/-- The bytes of a range of the document; a reversed one is empty. -/
def documentRange (encoding : PositionEncoding) (range : Range) (document : Text) : Nat × Nat :=
  let start := documentByte encoding range.start.character range.start.line document
  let stop := documentByte encoding range.stop.character range.stop.line document
  (start, max stop start)

theorem lspRangeToBytesIn_eq {E : Type} {buffer : Buffer E}
    (ends : buffer.text.getLast? = some '\n') (plain : '\r' ∉ buffer.text) (range : Range)
    (encoding : PositionEncoding) :
    lspRangeToBytesIn buffer range encoding =
      documentRange encoding range buffer.documentText := by
  have fresh : (LspPosResolver.new buffer).Coherent := by
    intro row cols at_hand
    cases at_hand
  have unfolded : lspRangeToBytesIn buffer range encoding =
      (((LspPosResolver.new buffer).pos range.start encoding).1,
        max ((((LspPosResolver.new buffer).pos range.start encoding).2).pos range.stop encoding).1
          ((LspPosResolver.new buffer).pos range.start encoding).1) := rfl
  obtain ⟨start, same_buffer, coherent⟩ :=
    LspPosResolver.pos_eq fresh ends plain range.start encoding
  obtain ⟨stop, -, -⟩ := LspPosResolver.pos_eq coherent (by rw [same_buffer]; exact ends)
    (by rw [same_buffer]; exact plain) range.stop encoding
  rw [unfolded, start, stop, same_buffer]
  rfl

end Bemtvi.Lsp
