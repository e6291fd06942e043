/-
Module: Bemtvi.Core.LineEditsLaws
Purpose: The line-level edits as operations on the list of lines: what each leaves, for ranges that
  touch the end of the buffer and for the whole of it.
Trusted boundary: none
Main exports: Buffer.Holds, LineEdit, LineEdit.outcome, LineEdit.Exact, line_edits_exact_iff
-/
import Bemtvi.Core.Journal
import Bemtvi.Core.LineEdits
import Bemtvi.Core.UndoRuns

namespace Bemtvi.Core

open Utf8

namespace Buffer

variable {E : Type} [ExtmarkStore E] {buffer : Buffer E}

/-! ### What the rope's edits leave of the text -/

variable {back front : Text}

theorem remove_text {old : Text} (here : buffer.text = front ++ old ++ back) :
    ∃ after, buffer.remove (size front) (size front + size old) = some after ∧
      after.text = front ++ back := by
  unfold remove
  split
  · next nothing =>
      have empty : old = [] := size_eq_zero.1 (by omega)
      subst empty
      exact ⟨buffer, rfl, by simpa using here⟩
  · rw [here, splice_append, List.append_nil]
    exact ⟨_, rfl, rfl⟩

theorem insert_text (here : buffer.text = front ++ back) (s : Text) :
    ∃ after, buffer.insert (size front) s = some after ∧ after.text = front ++ s ++ back := by
  unfold insert
  split
  · next nothing =>
      rw [List.isEmpty_iff] at nothing
      subst nothing
      exact ⟨buffer, rfl, by simpa using here⟩
  · have spliced := splice_append front [] back s
    rw [List.append_nil, size_nil, Nat.add_zero, ← here] at spliced
    rw [spliced]
    exact ⟨_, rfl, rfl⟩

theorem normalize_text (buffer : Buffer E) :
    ∃ after, buffer.normalize = some after ∧ after.text = ensureTrailingNewline buffer.text := by
  simp only [normalize, ensureTrailingNewline]
  split
  · exact ⟨buffer, rfl, rfl⟩
  · have whole : buffer.text = buffer.text ++ [] := (List.append_nil _).symm
    obtain ⟨after, inserted, text⟩ := insert_text whole ['\n']
    rw [inserted]
    exact ⟨_, rfl, by simpa using text⟩

/-- **An API edit between two characters replaces what lies between them.** -/
theorem spliceChunk_text {old : Text} (here : buffer.text = front ++ old ++ back) (chunk : Text) :
    ∃ after, buffer.spliceChunk (size front) (size front + size old) chunk = some after ∧
      after.text = ensureTrailingNewline (front ++ chunk ++ back) := by
  obtain ⟨removed, remove_ok, removed_text⟩ := remove_text here
  obtain ⟨inserted, insert_ok, inserted_text⟩ := insert_text removed_text chunk
  obtain ⟨normal, normalize_ok, normal_text⟩ := normalize_text inserted
  have put : (if chunk.isEmpty then some removed else removed.insert (size front) chunk) =
      some inserted := by
    split
    · next nothing =>
        rw [← insert_ok]
        simp only [insert, nothing, if_true]
    · exact insert_ok
  refine ⟨{ normal with modified := true }, ?_, by rw [← inserted_text]; exact normal_text⟩
  rw [spliceChunk, remove_ok, Option.bind_some, put, Option.bind_some, normalize_ok]
  rfl

/-! ### Lines -/

omit [ExtmarkStore E]

/-- The buffer's text is these lines, each with its newline. -/
structure Holds (buffer : Buffer E) (ls : List Text) : Prop where
  text : buffer.text = unlines ls
  free : ∀ line ∈ ls, BreakFree line
  some_lines : ls ≠ []

theorem stripEol_line {line : Text} (free : BreakFree line) : stripEol (line ++ ['\n']) = line := by
  have last : line.getLast? ≠ some '\r' := fun carriage => free.2 (List.mem_of_getLast? carriage)
  simp [stripEol, last]

namespace Holds

variable {ls : List Text}

theorem lines_eq (holds : buffer.Holds ls) : lines buffer.text = ls.map (· ++ ['\n']) ++ [[]] := by
  rw [holds.text, lines_unlines holds.free]

theorem lineCount (holds : buffer.Holds ls) : buffer.lineCount = ls.length := by
  rw [Buffer.lineCount, holds.lines_eq, List.length_append, List.length_map]
  rfl

theorem iterLines (holds : buffer.Holds ls) : buffer.iterLines = ls := by
  have whole : (ls.map (· ++ ['\n']) ++ [[]]).take ls.length = ls.map (· ++ ['\n']) :=
    List.take_left' (List.length_map _)
  rw [Buffer.iterLines, holds.lineCount, holds.lines_eq, whole, List.map_map]
  conv_rhs => rw [← List.map_id ls]
  exact List.map_congr_left fun line member => stripEol_line (holds.free line member)

/-- A row starts behind the lines before it. -/
theorem lineStart (holds : buffer.Holds ls) {row : Nat} (inside : row ≤ ls.length) :
    buffer.lineStart row = size (unlines (ls.take row)) := by
  have front : (ls.map (· ++ ['\n']) ++ [[]]).take row = (ls.take row).map (· ++ ['\n']) := by
    rw [List.take_append_of_le_length (by rwa [List.length_map]), List.map_take]
  rw [Buffer.lineStart, lineStart_eq, holds.lines_eq, front]
  rfl

/-- The buffer's end is where the row behind its last line would start. -/
theorem size_text (holds : buffer.Holds ls) : size buffer.text = buffer.lineStart ls.length := by
  rw [holds.lineStart (Nat.le_refl _), List.take_length, holds.text]

/-- The text around the rows from one to another. -/
theorem around (holds : buffer.Holds ls) {first stop : Nat} (ordered : first ≤ stop)
    (inside : stop ≤ ls.length) :
    buffer.text = unlines (ls.take first) ++ unlines ((ls.take stop).drop first) ++
        unlines (ls.drop stop) ∧
      buffer.lineStart first = size (unlines (ls.take first)) ∧
      buffer.lineStart stop =
        size (unlines (ls.take first)) + size (unlines ((ls.take stop).drop first)) := by
  have front : ls.take first ++ (ls.take stop).drop first = ls.take stop := by
    conv_rhs => rw [← List.take_append_drop first (ls.take stop), List.take_take,
      Nat.min_eq_left ordered]
  refine ⟨?_, holds.lineStart (by omega), ?_⟩
  · rw [← unlines_append, front, ← unlines_append, List.take_append_drop, holds.text]
  · rw [holds.lineStart inside, ← size_append, ← unlines_append, front]

/-- What `linewise_byte_span` finds, also for a range that runs to the last line. -/
theorem linewiseByteSpan (holds : buffer.Holds ls) {range : ExRange}
    (inside : range.hi < ls.length) :
    buffer.linewiseByteSpan range =
      (buffer.lineStart range.lo, buffer.lineStart (range.hi + 1)) := by
  unfold Buffer.linewiseByteSpan lastLine
  rw [holds.lineCount, holds.size_text]
  split
  · rfl
  · next at_end =>
      have last : ls.length = range.hi + 1 := by omega
      rw [last]

theorem linesSpan (holds : buffer.Holds ls) (start stop : Nat) :
    buffer.linesSpan start stop =
      (buffer.lineStart (min start ls.length),
        buffer.lineStart (max (min start ls.length) (min stop ls.length))) := by
  simp only [Buffer.linesSpan, holds.lineCount, holds.size_text]
  split
  · next at_end =>
      have last : max (min start ls.length) (min stop ls.length) = ls.length := by omega
      rw [last]
  · rfl

theorem slice (holds : buffer.Holds ls) {first stop : Nat} (ordered : first ≤ stop)
    (inside : stop ≤ ls.length) :
    buffer.slice (buffer.lineStart first) (buffer.lineStart stop) =
      some (unlines ((ls.take stop).drop first)) := by
  obtain ⟨text, start_eq, stop_eq⟩ := holds.around ordered inside
  rw [start_eq, stop_eq, Buffer.slice, if_pos (Nat.le_add_right _ _), text, List.append_assoc,
    cut_append, Option.bind_some, Nat.add_sub_cancel_left]
  simp only [cut_append, Option.map_some]

theorem of_text (holds : buffer.Holds ls) (after : Buffer E) (same : after.text = buffer.text) :
    after.Holds ls :=
  ⟨same.trans holds.text, holds.free, holds.some_lines⟩

end Holds

/-- The lines a buffer is left with: never none. -/
def orEmpty (ls : List Text) : List Text := if ls = [] then [[]] else ls

theorem orEmpty_of_some {ls : List Text} (some_lines : ls ≠ []) : orEmpty ls = ls :=
  if_neg some_lines

theorem ensureTrailingNewline_unlines (ls : List Text) : ensureTrailingNewline (unlines ls) = unlines (orEmpty ls) := by
  unfold orEmpty
  split
  · next nothing =>
      rw [nothing]
      rfl
  · next some_lines => exact if_pos (unlines_getLast? some_lines)

theorem breakFree_orEmpty {ls : List Text} (free : ∀ line ∈ ls, BreakFree line) :
    ∀ line ∈ orEmpty ls, BreakFree line := by
  unfold orEmpty
  split
  · simp [BreakFree]
  · exact free

theorem orEmpty_ne_nil (ls : List Text) : orEmpty ls ≠ [] := by
  unfold orEmpty
  split
  · exact List.cons_ne_nil _ _
  · next some_lines => exact some_lines

theorem Holds.of_terminated {after : Buffer E} {ls : List Text}
    (free : ∀ line ∈ ls, BreakFree line) (text : after.text = ensureTrailingNewline (unlines ls)) :
    after.Holds (orEmpty ls) :=
  ⟨text.trans (ensureTrailingNewline_unlines ls), breakFree_orEmpty free, orEmpty_ne_nil ls⟩

theorem breakFree_splice {ls new : List Text} (free : ∀ line ∈ ls, BreakFree line)
    (free' : ∀ line ∈ new, BreakFree line) (first stop : Nat) :
    ∀ line ∈ ls.take first ++ new ++ ls.drop stop, BreakFree line := by
  intro line member
  simp only [List.mem_append] at member
  rcases member with (front | inside) | back
  · exact free line (List.mem_of_mem_take front)
  · exact free' line inside
  · exact free line (List.mem_of_mem_drop back)

section Edits

variable [ExtmarkStore E]

namespace Holds

variable {ls : List Text}

variable {first stop row : Nat} {new : List Text}

/-- Taking rows out, and the newline back when none is left. -/
theorem remove_rows (holds : buffer.Holds ls) (ordered : first ≤ stop) (inside : stop ≤ ls.length) :
    ∃ removed normal,
      buffer.remove (buffer.lineStart first) (buffer.lineStart stop) = some removed ∧
      removed.normalize = some normal ∧
      normal.Holds (orEmpty (ls.take first ++ ls.drop stop)) := by
  obtain ⟨text, start_eq, stop_eq⟩ := holds.around ordered inside
  obtain ⟨removed, remove_ok, removed_text⟩ := remove_text text
  obtain ⟨normal, normalize_ok, normal_text⟩ := normalize_text removed
  refine ⟨removed, normal, ?_, normalize_ok, ?_⟩
  · rw [start_eq, stop_eq, remove_ok]
  · have free : ∀ line ∈ ls.take first ++ [] ++ ls.drop stop, BreakFree line :=
      breakFree_splice holds.free (List.forall_mem_nil _) first stop
    rw [List.append_nil] at free
    refine .of_terminated free ?_
    rw [normal_text, removed_text, unlines_append]

/-- Putting lines in before a row. -/
theorem insert_rows (holds : buffer.Holds ls) (free : ∀ line ∈ new, BreakFree line)
    (inside : row ≤ ls.length) :
    ∃ inserted, buffer.insert (buffer.lineStart row) (unlines new) = some inserted ∧
      inserted.normalize = some inserted ∧
      inserted.Holds (ls.take row ++ new ++ ls.drop row) := by
  obtain ⟨text, start_eq, -⟩ := holds.around (Nat.le_refl row) inside
  have nothing : (ls.take row).drop row = [] := by
    rw [List.drop_eq_nil_iff, List.length_take]
    omega
  rw [nothing, unlines_nil, List.append_nil] at text
  obtain ⟨inserted, insert_ok, inserted_text⟩ := insert_text text (unlines new)
  have whole : inserted.Holds (ls.take row ++ new ++ ls.drop row) := by
    refine ⟨?_, breakFree_splice holds.free free row row, ?_⟩
    · rw [inserted_text, unlines_append, unlines_append]
    · intro empty
      simp only [List.append_eq_nil_iff] at empty
      apply holds.some_lines
      rw [← List.take_append_drop row ls, empty.1.1, empty.2, List.append_nil]
  refine ⟨inserted, by rw [start_eq, insert_ok], ?_, whole⟩
  obtain ⟨normal, normalize_ok, -⟩ := normalize_text inserted
  have ends : inserted.text.getLast? = some '\n' := by
    rw [whole.text]
    exact unlines_getLast? whole.some_lines
  simp only [normalize, ends, if_true]

/-- `splice_lines_below` puts the lines in behind the one it is told, `-1` being above the first. -/
theorem spliceLinesBelow (holds : buffer.Holds ls) (free : ∀ line ∈ new, BreakFree line)
    {dest : Int} (inside : dest < ls.length) :
    ∃ spliced, buffer.spliceLinesBelow dest (unlines new) = some (spliced, (dest + 1).toNat) ∧
      spliced.Holds (ls.take (dest + 1).toNat ++ new ++ ls.drop (dest + 1).toNat) := by
  have row : min (dest + 1).toNat ls.length = (dest + 1).toNat := by omega
  have landed : (max (dest + 1) 0).toNat = (dest + 1).toNat := by omega
  have fits : (dest + 1).toNat ≤ ls.length := by omega
  obtain ⟨inserted, insert_ok, normalize_ok, whole⟩ := holds.insert_rows free fits
  refine ⟨{ inserted with modified := true }, ?_, whole.of_text _ rfl⟩
  simp only [Buffer.spliceLinesBelow, holds.lineCount, row, landed, insert_ok, Option.bind_some,
    normalize_ok, Option.map_some]

/-- An API edit of whole rows. -/
theorem spliceChunk (holds : buffer.Holds ls) (free : ∀ line ∈ new, BreakFree line)
    (ordered : first ≤ stop) (inside : stop ≤ ls.length) :
    ∃ after, buffer.spliceChunk (buffer.lineStart first) (buffer.lineStart stop) (unlines new) =
        some after ∧
      after.Holds (orEmpty (ls.take first ++ new ++ ls.drop stop)) := by
  obtain ⟨text, start_eq, stop_eq⟩ := holds.around ordered inside
  obtain ⟨after, splice_ok, after_text⟩ := spliceChunk_text text (unlines new)
  refine ⟨after, by rw [start_eq, stop_eq, splice_ok], ?_⟩
  refine .of_terminated (breakFree_splice holds.free free first stop) ?_
  rw [after_text, unlines_append, unlines_append]

/-! ### Rows and graphemes -/

omit [ExtmarkStore E] in
/-- The place at which a row starts has that offset. -/
theorem lineStart_byteToLine (holds : buffer.Holds ls) (inside : row ≤ ls.length) :
    buffer.lineStart (buffer.byteToLine (buffer.lineStart row)) = buffer.lineStart row := by
  have column : (point buffer.text (buffer.lineStart row)).2 = 0 := by
    obtain ⟨text, start_eq, -⟩ := holds.around (Nat.le_refl row) inside
    rw [start_eq, text, List.append_assoc, point_append]
    by_cases at_top : ls.take row = []
    · rw [at_top]
      rfl
    · obtain ⟨front, last, split⟩ := (List.eq_nil_or_concat' (ls.take row)).resolve_left at_top
      have behind : unlines (ls.take row) = (unlines front ++ last) ++ ['\n'] := by
        rw [split]
        simp
      rw [behind, walk_append]
      rfl
  have whole := lineStart_point buffer.text (buffer.lineStart row)
  rw [column, Nat.add_zero] at whole
  exact whole

variable [Graphemes]

omit [ExtmarkStore E] in
@[simp] theorem floorGrapheme_zero (line : Text) : floorGrapheme line 0 = 0 := by
  unfold floorGrapheme
  split
  · omega
  · rfl

omit [ExtmarkStore E] in
theorem graphemeFloorAbs (holds : buffer.Holds ls) (inside : row ≤ ls.length) :
    buffer.graphemeFloorAbs (buffer.lineStart row) = buffer.lineStart row := by
  simp only [Buffer.graphemeFloorAbs, holds.lineStart_byteToLine inside, Nat.sub_self,
    Nat.zero_min, floorGrapheme_zero, Nat.add_zero]

omit [ExtmarkStore E] in
/-- A span of whole rows snaps to itself. -/
theorem snapRange (holds : buffer.Holds ls) (ordered : first ≤ stop) (inside : stop ≤ ls.length) :
    buffer.snapRange (buffer.lineStart first) (buffer.lineStart stop) =
      (buffer.lineStart first, buffer.lineStart stop) := by
  have within : buffer.lineStart stop ≤ size buffer.text := lineStart_le _ _
  have below : buffer.lineStart first ≤ buffer.lineStart stop := lineStart_mono _ ordered
  simp only [Buffer.snapRange, Nat.min_eq_left within, Nat.min_eq_left below,
    holds.graphemeFloorAbs (Nat.le_trans ordered inside), graphemeCeilAbs,
    holds.graphemeFloorAbs inside, ge_iff_le, Nat.le_refl, if_true]

end Holds

end Edits

end Buffer

/-! ### The edits of a session -/

variable {E : Type} [ExtmarkStore E]

namespace Editor

@[simp] theorem commitUndo_buffer (editor : Editor E) :
    editor.commitUndo.buffer = editor.buffer := by
  unfold commitUndo
  split
  · rfl
  · split <;> rfl

@[simp] theorem pushUndo_buffer (editor : Editor E) : editor.pushUndo.buffer = editor.buffer := by
  unfold pushUndo
  split
  · split <;> rfl
  · exact commitUndo_buffer editor

@[simp] theorem pushUndoFor_buffer (editor : Editor E) :
    editor.pushUndoFor.buffer = editor.buffer :=
  commitUndo_buffer editor

end Editor

@[simp] theorem OpenBuffer.pushUndoFor_buffer (ob : OpenBuffer E) (now : Int) :
    (ob.pushUndoFor now).buffer = ob.buffer := by
  unfold pushUndoFor commitUndo
  split
  · rfl
  · split <;> rfl

namespace OpenBuffers

variable {session : OpenBuffers E} {id : Nat}

/-- Opening a change group leaves every buffer as it is. -/
@[simp] theorem bufferOf_pushUndoFor (session : OpenBuffers E) (id other : Nat) :
    (session.pushUndoFor id).bufferOf other = session.bufferOf other := by
  unfold pushUndoFor
  split
  · simp [bufferOf]
  · by_cases same : other = id
    · subst same
      simp [bufferOf, Option.map_map, Function.comp_def]
    · simp [bufferOf, same]

omit [ExtmarkStore E] in
theorem bufferOf_setBuffer {buffer : Buffer E} (here : session.bufferOf id = some buffer)
    (after : Buffer E) : (session.setBuffer id after).bufferOf id = some after := by
  unfold setBuffer
  split
  · next focused => simp [bufferOf, focused]
  · next elsewhere =>
      simp only [bufferOf, elsewhere, if_false] at here ⊢
      obtain ⟨ob, found, -⟩ := Option.map_eq_some_iff.1 here
      simp [found]

omit [ExtmarkStore E] in
theorem bufferOf_setBuffer_of_ne {other : Nat} (elsewhere : other ≠ id) (after : Buffer E) :
    (session.setBuffer id after).bufferOf other = session.bufferOf other := by
  unfold setBuffer
  split
  · next focused => simp [bufferOf, focused ▸ elsewhere]
  · simp [bufferOf, elsewhere]

/-- **An API edit of a buffer that may be changed is its splice.** -/
theorem apiEdit_editable {buffer : Buffer E} {start stop : Nat}
    (here : session.bufferOf id = some buffer) (unlocked : session.locked id = false)
    (ordinary : session.quickfix id = false) (span : Buffer E → Except String (Nat × Nat))
    (found : span buffer = .ok (start, stop)) (chunk : Text) :
    session.apiEdit id span chunk = (buffer.spliceChunk start stop chunk).map fun after =>
      (.ok (), (session.pushUndoFor id).setBuffer id after) := by
  simp [apiEdit, here, unlocked, found, ordinary]

end OpenBuffers

/-- The chunk of `api_set_lines` is the lines, each with its newline. -/
theorem setLines_chunk (replacement : List Text) :
    (if replacement.isEmpty then [] else OpenBuffers.joinLines replacement ++ ['\n']) =
      unlines replacement := by
  cases replacement with
  | nil => rfl
  | cons line rest =>
      simp only [List.isEmpty_cons, Bool.false_eq_true, if_false, OpenBuffers.joinLines]
      induction rest generalizing line with
      | nil => simp [List.intercalate]
      | cons line' rest ih =>
          have rest' := ih line'
          rw [List.intercalate_cons_cons, List.append_assoc, List.append_assoc, rest']
          simp

/-! ### Lists of lines -/

/-- An edit by whole lines. -/
inductive LineEdit where
  | setLines (id start stop : Nat) (replacement : List Text)
  | delete (range : ExRange)
  | copy (range : ExRange) (dest : Int)
  | move (range : ExRange) (dest : Int)
  /-- A linewise register put over a selection. -/
  | put (name : Option Char) (register : List Text) (count : Nat) (selection : Selection)

namespace ExRange

/-- The range's lines. -/
def block (range : ExRange) (ls : List Text) : List Text :=
  (ls.take (range.hi + 1)).drop range.lo

/-- The range lies in a buffer of so many lines. -/
def Inside (range : ExRange) (count : Nat) : Prop := range.lo ≤ range.hi ∧ range.hi < count

end ExRange

namespace LineEdit

/-- The buffer an edit is made in. -/
def target (session : OpenBuffers E) : LineEdit → Nat
  | .setLines id _ _ _ => id
  | _ => session.current

/-- The edit, as the code makes it. -/
def run [Graphemes] (session : OpenBuffers E) : LineEdit → Option (OpenBuffers E)
  | .setLines id start stop replacement =>
      (session.apiSetLines id start stop replacement).map (·.2)
  | .delete range => (session.editor.exDelete range).map ({ session with editor := · })
  | .copy range dest => (session.editor.exCopy range (.ok dest)).map ({ session with editor := · })
  | .move range dest => (session.editor.exMove range (.ok dest)).map ({ session with editor := · })
  | .put name register count selection =>
      (session.editor.visualPaste name (some (unlines register, .line)) count selection).map
        ({ session with editor := · })

/-- The edit is made: the buffer may be changed, the lines are there, and the put is not refused as
too long. -/
def Accepted (session : OpenBuffers E) (ls : List Text) : LineEdit → Prop
  | .setLines id _ _ replacement =>
      session.locked id = false ∧ session.quickfix id = false ∧
        ∀ line ∈ replacement, BreakFree line
  | .delete range => session.editor.around.modifiable = true ∧ range.Inside ls.length
  | .copy range dest =>
      session.editor.around.modifiable = true ∧ range.Inside ls.length ∧ -1 ≤ dest ∧
        dest < ls.length
  | .move range dest =>
      session.editor.around.modifiable = true ∧ range.Inside ls.length ∧ -1 ≤ dest ∧
        dest < ls.length ∧ ¬ (range.lo ≤ dest ∧ dest < range.hi)
  | .put _ register count selection =>
      session.editor.around.modifiable = true ∧ selection.linewise = true ∧
        selection.rows.1 ≤ selection.rows.2 ∧ selection.rows.2 < ls.length ∧ register ≠ [] ∧
        (∀ line ∈ register, BreakFree line) ∧ 1 ≤ count ∧
        pasteTooLong (unlines register) count = false

/-- The lines an edit leaves. -/
def outcome (ls : List Text) : LineEdit → List Text
  | .setLines _ start stop replacement =>
      Buffer.orEmpty (ls.take start ++ replacement ++ ls.drop (max start stop))
  | .delete range => Buffer.orEmpty (ls.take range.lo ++ ls.drop (range.hi + 1))
  | .copy range dest =>
      ls.take (dest + 1).toNat ++ range.block ls ++ ls.drop (dest + 1).toNat
  | .move range dest =>
      if dest < range.lo then
        ls.take (dest + 1).toNat ++ range.block ls ++
          (ls.take range.lo).drop (dest + 1).toNat ++ ls.drop (range.hi + 1)
      else
        ls.take range.lo ++ (ls.take (dest + 1).toNat).drop (range.hi + 1) ++ range.block ls ++
          ls.drop (dest + 1).toNat
  | .put _ register count selection =>
      ls.take selection.rows.1 ++ (List.replicate count register).flatten ++
        ls.drop (selection.rows.2 + 1)

/-- Where the first line of a moved block stands after the move. -/
def landing (range : ExRange) (dest : Int) : Nat :=
  if dest < range.lo then (dest + 1).toNat else (dest + 1).toNat - (range.hi + 1 - range.lo)

/-- A move carries the marks from `a` to `z` of its lines; one to where the lines are changes
nothing. -/
def Carries (buffer after : Buffer E) : LineEdit → Prop
  | .move range dest =>
      (dest = (range.lo : Int) - 1 ∨ dest = range.hi → after = buffer) ∧
        ∀ name, 'a' ≤ name → name ≤ 'z' → ∀ line col, buffer.marks name = some (line, col) →
          range.lo ≤ line → line ≤ range.hi →
          after.marks name = some (landing range dest + (line - range.lo), col)
  | _ => True

/-- **The edit is exactly what it should be on the list of lines.** -/
def Exact [Graphemes] (session : OpenBuffers E) (buffer : Buffer E) (edit : LineEdit) : Prop :=
  ∃ session' after, edit.run session = some session' ∧
    session'.bufferOf (edit.target session) = some after ∧
    after.Holds (edit.outcome buffer.iterLines) ∧ edit.Carries buffer after

/-- A put over the whole buffer. -/
def CoversAll (ls : List Text) : LineEdit → Prop
  | .put _ _ _ selection => selection.rows.1 = 0 ∧ selection.rows.2 + 1 = ls.length
  | _ => False

/-! ### Each edit -/

variable [Graphemes] {session : OpenBuffers E} {buffer : Buffer E} {ls : List Text}

theorem setLines_exact {id start stop : Nat} {replacement : List Text}
    (here : session.bufferOf id = some buffer) (holds : buffer.Holds ls)
    (accepted : (LineEdit.setLines id start stop replacement).Accepted session ls) :
    (LineEdit.setLines id start stop replacement).Exact session buffer := by
  obtain ⟨unlocked, ordinary, free⟩ := accepted
  have ordered : min start ls.length ≤ max (min start ls.length) (min stop ls.length) :=
    Nat.le_max_left _ _
  obtain ⟨after, splice_ok, whole⟩ := holds.spliceChunk free ordered (by omega)
  have made := OpenBuffers.apiEdit_editable here unlocked ordinary
    (fun buffer => .ok (buffer.linesSpan start stop))
    (congrArg Except.ok (holds.linesSpan start stop)) (unlines replacement)
  rw [splice_ok] at made
  refine ⟨(session.pushUndoFor id).setBuffer id after, after, ?_, ?_, ?_, trivial⟩
  · rw [run, OpenBuffers.apiSetLines, setLines_chunk, made]
    rfl
  · rw [← OpenBuffers.bufferOf_pushUndoFor session id] at here
    exact OpenBuffers.bufferOf_setBuffer here after
  · rw [holds.iterLines, outcome]
    convert whole using 3
    · rw [List.take_eq_take_min]
    · rcases Nat.le_total (max start stop) ls.length with within | beyond
      · congr 1
        omega
      · rw [List.drop_eq_nil_of_le beyond, List.drop_eq_nil_of_le (by omega)]

omit [ExtmarkStore E] [Graphemes] in
/-- The buffer of the focused editor. -/
theorem focused (session : OpenBuffers E) :
    session.bufferOf session.current = some session.editor.buffer := by
  simp [OpenBuffers.bufferOf]

/-- An edit of the focused buffer, by what it does to the buffer. -/
theorem exact_of_buffer {edit : LineEdit} (editor : Editor E)
    (here : edit.target session = session.current)
    (made : edit.run session = some { session with editor := editor })
    (holds : editor.buffer.Holds (edit.outcome buffer.iterLines))
    (carries : edit.Carries buffer editor.buffer) : edit.Exact session buffer := by
  refine ⟨_, editor.buffer, made, ?_, holds, carries⟩
  rw [here]
  simp [OpenBuffers.bufferOf]

variable {range : ExRange} {dest : Int} {count : Nat} {name : Option Char} {register : List Text}
  {selection : Selection}

theorem delete_exact (holds : session.editor.buffer.Holds ls)
    (accepted : (LineEdit.delete range).Accepted session ls) :
    (LineEdit.delete range).Exact session session.editor.buffer := by
  obtain ⟨modifiable, ordered, inside⟩ := accepted
  have start_below : range.lo ≤ range.hi + 1 := by omega
  have stop_inside : range.hi + 1 ≤ ls.length := inside
  obtain ⟨removed, normal, remove_ok, normalize_ok, whole⟩ :=
    holds.remove_rows start_below stop_inside
  refine exact_of_buffer { session.editor.pushUndo with buffer := normal } rfl ?_ ?_ trivial
  · simp [run, Editor.exDelete, modifiable, Editor.edit, holds.linewiseByteSpan inside, remove_ok,
      normalize_ok]
  · rw [holds.iterLines]
    exact whole

omit [ExtmarkStore E] [Graphemes] in
theorem breakFree_block (holds : buffer.Holds ls) (range : ExRange) :
    ∀ line ∈ range.block ls, BreakFree line := fun line member =>
  holds.free line (List.mem_of_mem_take (List.mem_of_mem_drop member))

theorem copy_exact (holds : session.editor.buffer.Holds ls)
    (accepted : (LineEdit.copy range dest).Accepted session ls) :
    (LineEdit.copy range dest).Exact session session.editor.buffer := by
  obtain ⟨modifiable, ⟨ordered, inside⟩, above, below⟩ := accepted
  have start_below : range.lo ≤ range.hi + 1 := by omega
  have stop_inside : range.hi + 1 ≤ ls.length := inside
  have chunk := holds.slice start_below stop_inside
  obtain ⟨spliced, splice_ok, whole⟩ := holds.spliceLinesBelow (breakFree_block holds range) below
  refine exact_of_buffer { session.editor.pushUndo with buffer := spliced } rfl ?_ ?_ trivial
  · have splice_ok' := splice_ok
    unfold ExRange.block at splice_ok'
    simp [run, Editor.exCopy, modifiable, Editor.edit, holds.linewiseByteSpan inside, chunk,
      splice_ok']
  · rw [holds.iterLines]
    exact whole

/-! ### The move -/

omit [Graphemes] [ExtmarkStore E] in
/-- A move to just above its range, or to just below its last line, is none. -/
theorem outcome_move_still (ordered : range.lo ≤ range.hi)
    (still : dest = (range.lo : Int) - 1 ∨ dest = range.hi) :
    (LineEdit.move range dest).outcome ls = ls := by
  have whole : ls.take range.lo ++ range.block ls ++ ls.drop (range.hi + 1) = ls := by
    have front : ls.take range.lo = (ls.take (range.hi + 1)).take range.lo := by
      rw [List.take_take, Nat.min_eq_left (by omega)]
    rw [front, ExRange.block, List.take_append_drop, List.take_append_drop]
  rcases still with above | below
  · have row : (dest + 1).toNat = range.lo := by omega
    have nothing : (ls.take range.lo).drop range.lo = [] :=
      List.drop_eq_nil_of_le (List.length_take_le _ _)
    rw [outcome, if_pos (by omega), row, nothing, List.append_nil, whole]
  · have row : (dest + 1).toNat = range.hi + 1 := by omega
    have nothing : (ls.take (range.hi + 1)).drop (range.hi + 1) = [] :=
      List.drop_eq_nil_of_le (List.length_take_le _ _)
    rw [outcome, if_neg (by omega), row, nothing, List.append_nil, whole]

omit [Graphemes] [ExtmarkStore E] in
/-- A move takes the block out of the lines and puts it in behind the line where the destination
has come to stand. -/
theorem outcome_move (ordered : range.lo ≤ range.hi) (inside : range.hi < ls.length)
    (apart : dest < range.lo ∨ range.hi ≤ dest) : (LineEdit.move range dest).outcome ls =
      (ls.take range.lo ++ ls.drop (range.hi + 1)).take (landing range dest) ++ range.block ls ++
        (ls.take range.lo ++ ls.drop (range.hi + 1)).drop (landing range dest) := by
  have length : (ls.take range.lo).length = range.lo := by
    rw [List.length_take]
    omega
  simp only [outcome, landing]
  by_cases above : dest < range.lo
  · have fits : (dest + 1).toNat ≤ (ls.take range.lo).length := by omega
    rw [if_pos above, if_pos above, List.take_append_of_le_length fits,
      List.drop_append_of_le_length fits, List.take_take, Nat.min_eq_left (by omega),
      List.append_assoc _ _ (ls.drop _)]
  · have behind : (dest + 1).toNat - (range.hi + 1 - range.lo) =
        (ls.take range.lo).length + ((dest + 1).toNat - (range.hi + 1)) := by omega
    have onwards : range.hi + 1 + ((dest + 1).toNat - (range.hi + 1)) = (dest + 1).toNat := by omega
    rw [if_neg above, if_neg above, behind, List.take_length_add_append,
      List.drop_length_add_append, List.drop_take, List.drop_drop, onwards]

omit [Graphemes] in
/-- What `ex_move` leaves of the lines and of a mark on the block. -/
theorem moveLines_holds (holds : buffer.Holds ls) (ordered : range.lo ≤ range.hi)
    (inside : range.hi < ls.length) (above : -1 ≤ dest) (below : dest < ls.length)
    (apart : dest < (range.lo : Int) - 1 ∨ range.hi < dest) :
    ∃ spliced : Buffer E, buffer.moveLines range dest =
        some (spliced.plantMarks (buffer.carriedMarks range) (landing range dest)) ∧
      spliced.Holds ((LineEdit.move range dest).outcome ls) := by
  have stop_inside : range.hi + 1 ≤ ls.length := inside
  have start_below : range.lo ≤ range.hi + 1 := by omega
  have chunk := holds.slice start_below stop_inside
  obtain ⟨removed, normal, remove_ok, normalize_ok, rest⟩ :=
    (holds.of_text (buffer.liftMarks (buffer.carriedMarks range)) rfl).remove_rows
      start_below stop_inside
  have length : (ls.take range.lo ++ ls.drop (range.hi + 1)).length =
      ls.length - (range.hi + 1 - range.lo) := by
    rw [List.length_append, List.length_take, List.length_drop]
    omega
  have some_rest : ls.take range.lo ++ ls.drop (range.hi + 1) ≠ [] :=
    List.ne_nil_of_length_pos (by omega)
  rw [Buffer.orEmpty_of_some some_rest] at rest
  -- Where the destination has come to stand.
  have fits : (if dest > range.hi then dest - (range.hi - range.lo + 1 : Int) else dest) <
      ((ls.take range.lo ++ ls.drop (range.hi + 1)).length : Int) := by
    split <;> omega
  have landed : ((if dest > range.hi then dest - (range.hi - range.lo + 1 : Int) else dest) +
      1).toNat = landing range dest := by
    unfold landing
    split <;> split <;> omega
  obtain ⟨spliced, splice_ok, whole⟩ := rest.spliceLinesBelow (breakFree_block holds range) fits
  rw [landed] at splice_ok whole
  refine ⟨spliced, ?_, ?_⟩
  · have remove_ok' : (buffer.liftMarks (buffer.carriedMarks range)).remove
        (buffer.lineStart range.lo) (buffer.lineStart (range.hi + 1)) = some removed := remove_ok
    unfold ExRange.block at splice_ok
    simp only [Buffer.moveLines, holds.linewiseByteSpan inside, chunk, Option.bind_some, remove_ok',
      normalize_ok, splice_ok, Option.map_some]
  · rw [outcome_move ordered inside (by omega)]
    exact whole

theorem move_exact (holds : session.editor.buffer.Holds ls)
    (accepted : (LineEdit.move range dest).Accepted session ls) :
    (LineEdit.move range dest).Exact session session.editor.buffer := by
  obtain ⟨modifiable, ⟨ordered, inside⟩, above, below, outside⟩ := accepted
  by_cases still : dest = (range.lo : Int) - 1 ∨ dest = range.hi
  · refine exact_of_buffer session.editor rfl ?_ ?_ ⟨fun _ => rfl, ?_⟩
    · simp [run, Editor.exMove, modifiable, still, outside]
    · rw [holds.iterLines, outcome_move_still ordered still]
      exact holds
    · intro name _ _ line col marked from_lo to_hi
      have home : landing range dest + (line - range.lo) = line := by
        unfold landing
        split <;> omega
      rw [home, marked]
  · obtain ⟨spliced, made, whole⟩ :=
      moveLines_holds holds ordered inside above below (by omega)
    refine exact_of_buffer { session.editor.pushUndo with
      buffer := spliced.plantMarks (session.editor.buffer.carriedMarks range)
        (landing range dest) } rfl ?_ ?_ ⟨fun here => absurd here still, ?_⟩
    · simp [run, Editor.exMove, modifiable, still, outside, Editor.edit, made]
    · rw [holds.iterLines]
      exact whole.of_text _ rfl
    · intro name from_a to_z line col marked from_lo to_hi
      have plain : name ≠ '.' := by
        rintro rfl
        exact absurd from_a (by decide)
      simp [Buffer.plantMarks, Buffer.carriedMarks, marked, plain, from_lo, to_hi]

/-! ### The put -/

omit [Graphemes] [ExtmarkStore E] in
theorem flatten_replicate_unlines (register : List Text) (count : Nat) :
    (List.replicate count (unlines register)).flatten =
      unlines (List.replicate count register).flatten := by
  induction count with
  | zero => rfl
  | succ count ih =>
      rw [List.replicate_succ, List.replicate_succ, List.flatten_cons, List.flatten_cons,
        unlines_append, ih]

/-- What `delete_range` leaves of whole rows. -/
theorem deleteRange_holds {editor : Editor E} (holds : editor.buffer.Holds ls) {first stop : Nat}
    (ordered : first < stop) (inside : stop ≤ ls.length) :
    ∃ deleted, editor.deleteRange (editor.buffer.lineStart first) (editor.buffer.lineStart stop) =
        some deleted ∧
      deleted.buffer.Holds (Buffer.orEmpty (ls.take first ++ ls.drop stop)) := by
  obtain ⟨removed, normal, remove_ok, normalize_ok, rest⟩ :=
    holds.remove_rows (Nat.le_of_lt ordered) inside
  obtain ⟨-, start_eq, stop_eq⟩ := holds.around (Nat.le_of_lt ordered) inside
  have some_bytes : size (unlines ((ls.take stop).drop first)) ≠ 0 := by
    rw [Ne, size_eq_zero]
    intro nothing
    have some_rows : (ls.take stop).drop first ≠ [] := by
      rw [Ne, List.drop_eq_nil_iff, List.length_take]
      omega
    have ends := unlines_getLast? some_rows
    rw [nothing] at ends
    cases ends
  have apart : ¬ editor.buffer.lineStart first ≥ editor.buffer.lineStart stop := by omega
  refine ⟨{ editor.pushUndo with buffer := { normal with modified := true } }, ?_,
    rest.of_text _ rfl⟩
  simp only [Editor.deleteRange, holds.snapRange (Nat.le_of_lt ordered) inside, if_neg apart,
    Editor.edit, Editor.pushUndo_buffer, remove_ok, Option.bind_some, normalize_ok,
    Option.map_some]

/-- **What a put over whole lines leaves: the register's lines in the hole that the deletion left,
which is never quite empty.** -/
theorem put_holds (holds : session.editor.buffer.Holds ls)
    (accepted : (LineEdit.put name register count selection).Accepted session ls) :
    ∃ editor, (LineEdit.put name register count selection).run session =
        some { session with editor := editor } ∧
      editor.buffer.Holds
        ((Buffer.orEmpty (ls.take selection.rows.1 ++ ls.drop (selection.rows.2 + 1))).take
            selection.rows.1 ++ (List.replicate count register).flatten ++
          (Buffer.orEmpty (ls.take selection.rows.1 ++ ls.drop (selection.rows.2 + 1))).drop
            selection.rows.1) := by
  obtain ⟨modifiable, linewise, ordered, inside, some_lines, free, positive, short⟩ := accepted
  have some_text : unlines register ≠ [] := by
    intro nothing
    have ends := unlines_getLast? some_lines
    rw [nothing] at ends
    cases ends
  have last : min (selection.rows.2 + 1) ls.length = selection.rows.2 + 1 := Nat.min_eq_left inside
  have range : session.editor.buffer.visualRange selection =
      (session.editor.buffer.lineStart selection.rows.1,
        session.editor.buffer.lineStart (selection.rows.2 + 1)) := by
    simp only [Buffer.visualRange, linewise, if_true, holds.lineCount, last]
  let marked : Editor E := { session.editor with
    buffer := (session.editor.buffer.recordVisualMarks selection).recordChangeBounds
      (session.editor.buffer.lineStart selection.rows.1)
      (session.editor.buffer.lineStart (selection.rows.2 + 1)) }
  have marked_holds : marked.pushUndo.buffer.Holds ls := by
    rw [Editor.pushUndo_buffer]
    exact holds.of_text _ rfl
  have same_start : ∀ row, marked.pushUndo.buffer.lineStart row =
      session.editor.buffer.lineStart row := by
    intro row
    rw [Editor.pushUndo_buffer]
    rfl
  obtain ⟨deleted, delete_ok, rest⟩ :=
    deleteRange_holds marked_holds (Nat.lt_succ_of_le ordered) inside
  rw [same_start, same_start] at delete_ok
  -- The rows in front of the hole are those that stood there.
  have front_rows : selection.rows.1 ≤
      (Buffer.orEmpty (ls.take selection.rows.1 ++ ls.drop (selection.rows.2 + 1))).length ∧
      (Buffer.orEmpty (ls.take selection.rows.1 ++ ls.drop (selection.rows.2 + 1))).take
        selection.rows.1 = ls.take selection.rows.1 := by
    have length : (ls.take selection.rows.1).length = selection.rows.1 := by
      rw [List.length_take]
      omega
    unfold Buffer.orEmpty
    split
    · next nothing =>
        have none_before := (List.append_eq_nil_iff.1 nothing).1
        have at_top : selection.rows.1 = 0 := by
          rw [none_before] at length
          exact length.symm
        rw [none_before, at_top]
        exact ⟨Nat.zero_le _, rfl⟩
    · refine ⟨?_, List.take_left' length⟩
      rw [List.length_append, length]
      exact Nat.le_add_right _ _
  have hole : deleted.buffer.lineStart selection.rows.1 =
      session.editor.buffer.lineStart selection.rows.1 := by
    rw [rest.lineStart front_rows.1, front_rows.2, holds.lineStart (by omega)]
  have free' : ∀ line ∈ (List.replicate count register).flatten, BreakFree line := by
    intro line member
    obtain ⟨copy, is_copy, here⟩ := List.mem_flatten.1 member
    rw [List.eq_of_mem_replicate is_copy] at here
    exact free line here
  obtain ⟨inserted, insert_ok, normalize_ok, whole⟩ := rest.insert_rows free' front_rows.1
  rw [hole] at insert_ok
  have normal : Buffer.normalize { inserted with modified := true } =
      some { inserted with modified := true } := by
    have ends : inserted.text.getLast? = some '\n' := by
      rw [whole.text]
      exact unlines_getLast? whole.some_lines
    simp only [Buffer.normalize, ends, if_true]
  have held : (some (unlines register, RegKind.line)).filter (fun held => !held.1.isEmpty) =
      some (unlines register, .line) := by
    simp [Option.filter, some_text]
  refine ⟨{ deleted with buffer := { inserted with modified := true } }, ?_, whole.of_text _ rfl⟩
  have pasted : session.editor.visualPaste name (some (unlines register, .line)) count selection =
      some { deleted with buffer := { inserted with modified := true } } := by
    unfold Editor.visualPaste
    rw [if_neg (by simp [modifiable]), held]
    simp only [short, range, Bool.false_eq_true, if_false]
    change (marked.pushUndo.deleteRange _ _).bind _ = _
    rw [delete_ok, Option.bind_some, linewise]
    simp only [Editor.edit, Buffer.insertLinesAt, flatten_replicate_unlines, insert_ok,
      Option.bind_some, normalize_ok, normal, Option.map_some]
  rw [run, pasted]
  rfl

omit [Graphemes] [ExtmarkStore E] in
/-- A buffer holds one list of lines. -/
theorem holds_unique {ls' : List Text} (holds : buffer.Holds ls) (holds' : buffer.Holds ls') :
    ls = ls' := by
  rw [← holds.iterLines, holds'.iterLines]

/-- A put that leaves some line standing is exact. -/
theorem put_exact (holds : session.editor.buffer.Holds ls)
    (accepted : (LineEdit.put name register count selection).Accepted session ls)
    (partly : ¬ (LineEdit.put name register count selection).CoversAll ls) :
    (LineEdit.put name register count selection).Exact session session.editor.buffer := by
  obtain ⟨editor, made, whole⟩ := put_holds holds accepted
  obtain ⟨-, -, ordered, inside, -⟩ := accepted
  have length : (ls.take selection.rows.1).length = selection.rows.1 := by
    rw [List.length_take]
    omega
  have some_rest : ls.take selection.rows.1 ++ ls.drop (selection.rows.2 + 1) ≠ [] := by
    apply List.ne_nil_of_length_pos
    rw [List.length_append, length, List.length_drop]
    unfold CoversAll at partly
    omega
  rw [Buffer.orEmpty_of_some some_rest, List.take_left' length, List.drop_left' length] at whole
  refine exact_of_buffer editor rfl made ?_ trivial
  rw [holds.iterLines]
  exact whole

/-- A put over the whole buffer leaves an empty line below the register's. -/
theorem put_all_leaves (holds : session.editor.buffer.Holds ls)
    (accepted : (LineEdit.put name register count selection).Accepted session ls)
    (covers : (LineEdit.put name register count selection).CoversAll ls) :
    ∃ editor, (LineEdit.put name register count selection).run session =
        some { session with editor := editor } ∧
      editor.buffer.Holds ((LineEdit.put name register count selection).outcome ls ++ [[]]) := by
  obtain ⟨editor, made, whole⟩ := put_holds holds accepted
  obtain ⟨at_top, to_end⟩ := covers
  refine ⟨editor, made, ?_⟩
  simpa [outcome, at_top, to_end, Buffer.orEmpty] using whole

end LineEdit

/-- **Every line-level edit is the operation on the list of lines it should be, and a move carries the
marks of its lines, but for one: a put over the whole buffer.**  The deletion leaves the line that
a buffer is never without, and the put leaves that line standing below. -/
theorem line_edits_exact_iff [Graphemes] (session : OpenBuffers E) (edit : LineEdit)
    {buffer : Buffer E} (here : session.bufferOf (edit.target session) = some buffer)
    (ends : buffer.text.getLast? = some '\n') (no_carriage : '\r' ∉ buffer.text)
    (accepted : edit.Accepted session buffer.iterLines) :
    edit.Exact session buffer ↔ ¬ edit.CoversAll buffer.iterLines := by
  obtain ⟨ls, some_lines, free, text⟩ := exists_unlines no_carriage ends
  have holds : buffer.Holds ls := ⟨text, free, some_lines⟩
  rw [holds.iterLines] at accepted ⊢
  have focused := LineEdit.focused session
  cases edit with
  | setLines id start stop replacement =>
      exact ⟨fun _ covers => covers, fun _ => LineEdit.setLines_exact here holds accepted⟩
  | delete range =>
      obtain rfl : session.editor.buffer = buffer := Option.some.inj (focused.symm.trans here)
      exact ⟨fun _ covers => covers, fun _ => LineEdit.delete_exact holds accepted⟩
  | copy range dest =>
      obtain rfl : session.editor.buffer = buffer := Option.some.inj (focused.symm.trans here)
      exact ⟨fun _ covers => covers, fun _ => LineEdit.copy_exact holds accepted⟩
  | move range dest =>
      obtain rfl : session.editor.buffer = buffer := Option.some.inj (focused.symm.trans here)
      exact ⟨fun _ covers => covers, fun _ => LineEdit.move_exact holds accepted⟩
  | put name register count selection =>
      obtain rfl : session.editor.buffer = buffer := Option.some.inj (focused.symm.trans here)
      constructor
      · rintro ⟨session', after, made, found, exact_holds, -⟩ covers
        obtain ⟨editor, made', whole⟩ := LineEdit.put_all_leaves holds accepted covers
        rw [made', Option.some.injEq] at made
        subst made
        obtain rfl : editor.buffer = after := Option.some.inj
          ((LineEdit.focused { session with editor := editor }).symm.trans found)
        rw [holds.iterLines] at exact_holds
        have same := congrArg List.length (LineEdit.holds_unique exact_holds whole)
        rw [List.length_append, List.length_singleton] at same
        omega
      · exact LineEdit.put_exact holds accepted

/-- A cluster a character. -/
instance : Graphemes where
  isBoundary line byte := (cut line byte).isSome

/-- One ordinary buffer, open. -/
def OpenBuffers.single (text : Text) : OpenBuffers Unit where
  current := 1
  editor := .start (.ofText text) UndoRuns.calm
  background := fun _ => none
  locked := fun _ => false
  quickfix := fun _ => false

/-- The first of two lines moved below the other. -/
theorem line_edits_exact_swap :
    (LineEdit.move ⟨0, 0⟩ 1).Exact (.single ['a', '\n', 'b', '\n'])
        (.ofText ['a', '\n', 'b', '\n']) ∧
      (LineEdit.move ⟨0, 0⟩ 1).outcome [['a'], ['b']] = [['b'], ['a']] :=
  ⟨(line_edits_exact_iff (.single ['a', '\n', 'b', '\n']) (.move ⟨0, 0⟩ 1) rfl rfl (by decide)
      ⟨rfl, ⟨by decide, by decide⟩, by decide, by decide, by decide⟩).2 (fun covers => covers), rfl⟩

/-- The whole of a buffer selected, for a put. -/
def wholeLine : Selection where
  anchor := (0, 0)
  cursor := (0, 0)
  linewise := true
  foldLineStart := id
  foldLineEnd := id

/-- A line put over the only line leaves an empty one below it. -/
theorem put_all_leaves_empty_line :
    ((LineEdit.put none [['b']] 1 wholeLine).run (.single ['a', '\n'])).map
        (·.editor.buffer.text) = some ['b', '\n', '\n'] ∧
      ¬ (LineEdit.put none [['b']] 1 wholeLine).Exact (.single ['a', '\n'])
        (.ofText ['a', '\n']) := by
  have left : ((LineEdit.put none [['b']] 1 wholeLine).run (.single ['a', '\n'])).map
      (fun session => session.bufferOf 1 |>.map (·.text)) = some (some ['b', '\n', '\n']) := rfl
  refine ⟨rfl, ?_⟩
  rintro ⟨session', after, made, found, holds, -⟩
  have there : session'.bufferOf 1 = some after := found
  rw [made, Option.map_some, there, Option.map_some] at left
  have text : after.text = ['b', '\n'] := holds.text
  rw [text] at left
  exact absurd left (by decide)

end Bemtvi.Core
