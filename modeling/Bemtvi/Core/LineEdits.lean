/-
Module: Bemtvi.Core.LineEdits
Purpose: The edits by whole lines and by row and column: a plugin's `set_lines` and `set_text` on any
  open buffer, `:delete`, `:copy`, `:move`, and a put over a Visual selection.
Trusted boundary: human-reviewed model of bemtvi-core/src/editor/buffers.rs:688-822,
  bemtvi-core/src/editor/ex.rs:2360-2518, bemtvi-core/src/editor/operators.rs:643-673, 945-971 and
  1768-1927, and bemtvi-core/src/editor/cursor.rs:118-186, as to the text, its marks and its history;
  the cursor, the registers a put writes and the line-count report are left out, the address of a
  destination is read already, and where graphemes start is a parameter
Main exports: OpenBuffers, apiSetLines, apiSetText, ExRange, exDelete, exCopy, exMove, visualPaste
-/
import Bemtvi.Core.Registers
import Bemtvi.Core.Undo
import Bemtvi.Lib.Lines

namespace Bemtvi.Core

open Utf8

/-! ### Spans -/

namespace Buffer

variable {E : Type}

/-- `line_len`: nothing past the last line. -/
def lineLen (buffer : Buffer E) (index : Nat) : Nat :=
  if index < buffer.lineCount then size (stripEol ((lines buffer.text)[index]?.getD [])) else 0

/-- `byte_at`: the offset of a row and column. -/
def byteAt (buffer : Buffer E) (row col : Nat) : Nat := buffer.lineStart row + col

/-- `byte_at` of `api_set_text`, clamped to the buffer and the line. -/
def clampedByteAt (buffer : Buffer E) (row col : Nat) : Nat :=
  let n := buffer.lineCount
  let row := min row n
  let lineLen := if row < n then buffer.lineLen row else 0
  buffer.lineStart row + min col lineLen

/-- The bytes between two places, both clamped. -/
def textSpan (buffer : Buffer E) (startRow startCol endRow endCol : Nat) :
    Except String (Nat × Nat) :=
  let start := buffer.clampedByteAt startRow startCol
  let stop := buffer.clampedByteAt endRow endCol
  if stop < start then .error "E5555: nvim_buf_set_text: 'end' is before 'start'"
  else .ok (start, stop)

/-- The bytes of the lines from one to before another, both clamped. -/
def linesSpan (buffer : Buffer E) (start stop : Nat) : Nat × Nat :=
  let count := buffer.lineCount
  let start := min start count
  let stop := max start (min stop count)
  (buffer.lineStart start, if stop ≥ count then size buffer.text else buffer.lineStart stop)

variable [ExtmarkStore E]

/-- What an API edit does to the buffer it may change. -/
def spliceChunk (buffer : Buffer E) (start stop : Nat) (chunk : Text) : Option (Buffer E) :=
  (buffer.remove start stop).bind fun removed =>
    (if chunk.isEmpty then some removed else removed.insert start chunk).bind fun inserted =>
      inserted.normalize.map fun normal => { normal with modified := true }

end Buffer

/-! ### The API -/

/-- An open buffer that is not the focused one. -/
structure OpenBuffer (E : Type) where
  buffer : Buffer E
  undo : UndoTree E
  savedCursor : Point
  undolevels : Int

/-- The open buffers, each by its id. -/
structure OpenBuffers (E : Type) where
  current : Nat
  /-- The focused buffer. -/
  editor : Editor E
  background : Nat → Option (OpenBuffer E)
  /-- `read_only()`, or `'nomodifiable'`. -/
  locked : Nat → Bool
  /-- `qf_context_of_buffer`: a quickfix or location list is displayed in it. -/
  quickfix : Nat → Bool

namespace OpenBuffer

variable {E : Type} [ExtmarkStore E]

/-- `snapshot_of` a buffer without the focus: no window, no selection. -/
def snapshotOf (ob : OpenBuffer E) : Snapshot E where
  text := ob.buffer.text
  cursor := ob.savedCursor
  extmarks := ob.buffer.extmarks
  marks := ob.buffer.marks
  changelist := (ob.buffer.changelist, ob.buffer.changelistidx)
  cursorWindow := none
  selection := none

/-- `commit_undo`. -/
def commitUndo (ob : OpenBuffer E) : OpenBuffer E :=
  if ¬ ob.undo.dirty then ob
  else if ¬ ob.undo.pending ob.buffer.changedtick then
    { ob with undo := { ob.undo with dirty := false } }
  else
    let keep := undoLevelsToKeep ob.undolevels
    { ob with undo := (ob.undo.commit ob.snapshotOf).prune keep }

/-- `push_undo_for`: the node undone to keeps its saved cursor. -/
def pushUndoFor (ob : OpenBuffer E) (now : Int) : OpenBuffer E :=
  let committed := ob.commitUndo
  { committed with undo := committed.undo.markDirty now committed.buffer.changedtick }

end OpenBuffer

namespace OpenBuffers

variable {E : Type} [ExtmarkStore E]

/-- `buffer_of`. -/
def bufferOf (session : OpenBuffers E) (id : Nat) : Option (Buffer E) :=
  if id = session.current then some session.editor.buffer
  else (session.background id).map (·.buffer)

/-- `push_undo_for`. -/
def pushUndoFor (session : OpenBuffers E) (id : Nat) : OpenBuffers E :=
  if id = session.current then { session with editor := session.editor.pushUndoFor }
  else
    { session with
      background := fun other =>
        if other = id then
          (session.background id).map (·.pushUndoFor session.editor.around.nowMono)
        else session.background other }

/-- The buffer of an id, another one now. -/
def setBuffer (session : OpenBuffers E) (id : Nat) (buffer : Buffer E) : OpenBuffers E :=
  if id = session.current then { session with editor := { session.editor with buffer := buffer } }
  else
    { session with
      background := fun other =>
        if other = id then (session.background id).map fun ob => { ob with buffer := buffer }
        else session.background other }

/-- The error of an edit where none may be made. -/
def notModifiable : String := "E21: Cannot make changes, 'modifiable' is off"

/-- An API edit of the bytes that a look at the buffer finds; `none` when the rope panics. -/
def apiEdit (session : OpenBuffers E) (id : Nat) (span : Buffer E → Except String (Nat × Nat))
    (chunk : Text) : Option (Except String Unit × OpenBuffers E) :=
  match session.bufferOf id with
  | none => some (.error s!"invalid buffer id: {id}", session)
  | some buffer =>
      if session.locked id then some (.error notModifiable, session)
      else
        match span buffer with
        | .error message => some (.error message, session)
        | .ok (start, stop) =>
            if session.quickfix id then some (.error notModifiable, session)
            else
              let pushed := session.pushUndoFor id
              (pushed.bufferOf id).bind fun buffer =>
                (buffer.spliceChunk start stop chunk).map fun after =>
                  (.ok (), pushed.setBuffer id after)

/-- `replacement.join("\n")`. -/
def joinLines (replacement : List Text) : Text := List.intercalate ['\n'] replacement

/-- `api_set_lines`: each line of the replacement is a whole line. -/
def apiSetLines (session : OpenBuffers E) (id start stop : Nat) (replacement : List Text) :
    Option (Except String Unit × OpenBuffers E) :=
  session.apiEdit id (fun buffer => .ok (buffer.linesSpan start stop))
    (if replacement.isEmpty then [] else joinLines replacement ++ ['\n'])

/-- `api_set_text`: the lines of the replacement join what stands at its two ends. -/
def apiSetText (session : OpenBuffers E) (id startRow startCol endRow endCol : Nat)
    (replacement : List Text) : Option (Except String Unit × OpenBuffers E) :=
  session.apiEdit id (·.textSpan startRow startCol endRow endCol) (joinLines replacement)

end OpenBuffers

/-! ### The line commands -/

/-- `ExRange`: the lines from `lo` to `hi`. -/
structure ExRange where
  lo : Nat
  hi : Nat
deriving Repr, DecidableEq

namespace Buffer

variable {E : Type}

/-- `linewise_byte_span`: through the end of the buffer when the range runs to the last line. -/
def linewiseByteSpan (buffer : Buffer E) (range : ExRange) : Nat × Nat :=
  (buffer.lineStart range.lo,
    if range.hi < buffer.lastLine then buffer.lineStart (range.hi + 1) else size buffer.text)

/-- `text.slice`; `none` off a character. -/
def slice (buffer : Buffer E) (start stop : Nat) : Option Text :=
  if start ≤ stop then
    (cut buffer.text start).bind fun (_, rest) => (cut rest (stop - start)).map (·.1)
  else none

variable [ExtmarkStore E]

/-- `splice_lines_below`, with the line that the chunk's first one landed on. -/
def spliceLinesBelow (buffer : Buffer E) (dest : Int) (chunk : Text) : Option (Buffer E × Nat) :=
  let atLine := (max (dest + 1) 0).toNat
  let byte := buffer.lineStart (min atLine buffer.lineCount)
  (buffer.insert byte chunk).bind fun inserted =>
    inserted.normalize.map fun normal => ({ normal with modified := true }, atLine)

/-- `carried`: the marks that ride a moved block, each by its line there; `.` is the last change, the
splice itself. -/
def carriedMarks (buffer : Buffer E) (range : ExRange) : Char → Option Point :=
  fun name => (buffer.marks name).bind fun (line, col) =>
    if name ≠ '.' ∧ range.lo ≤ line ∧ line ≤ range.hi then some (line - range.lo, col) else none

/-- The carried marks taken off. -/
def liftMarks (buffer : Buffer E) (carried : Char → Option Point) : Buffer E :=
  { buffer with marks := fun name => if (carried name).isSome then none else buffer.marks name }

/-- The carried marks set again, on the block from the line it landed on. -/
def plantMarks (buffer : Buffer E) (carried : Char → Option Point) (landed : Nat) : Buffer E :=
  { buffer with
    marks := fun name => ((carried name).map fun (offset, col) => (landed + offset, col)).or
      (buffer.marks name) }

/-- What `ex_move` does to the buffer, to a destination that is not the range's own place. -/
def moveLines (buffer : Buffer E) (range : ExRange) (dest : Int) : Option (Buffer E) :=
  let (start, stop) := buffer.linewiseByteSpan range
  (buffer.slice start stop).bind fun chunk =>
    let carried := buffer.carriedMarks range
    ((buffer.liftMarks carried).remove start stop).bind fun removed =>
      removed.normalize.bind fun normal =>
        let height : Int := range.hi - range.lo + 1
        -- The lines below the block moved up by its height.
        let dest := if dest > range.hi then dest - height else dest
        (normal.spliceLinesBelow dest chunk).map fun (spliced, landed) =>
          spliced.plantMarks carried landed

/-- `insert_lines_at`. -/
def insertLinesAt (buffer : Buffer E) (byte : Nat) (chunk : Text) : Option (Buffer E) :=
  (buffer.insert byte chunk).bind (·.normalize)

end Buffer

namespace Editor

variable {E : Type} [ExtmarkStore E]

/-- The focused buffer edited, unless the rope panics. -/
def edit (editor : Editor E) (change : Buffer E → Option (Buffer E)) : Option (Editor E) :=
  (change editor.buffer).map fun buffer => { editor with buffer := buffer }

/-- `ex_delete`. -/
def exDelete (editor : Editor E) (range : ExRange) : Option (Editor E) :=
  if ¬ editor.around.modifiable then some editor.refuseEdit
  else
    editor.pushUndo.edit fun buffer =>
      let (start, stop) := buffer.linewiseByteSpan range
      (buffer.remove start stop).bind (·.normalize)

/-- `ex_copy`, to where `parse_ex_dest` says. -/
def exCopy (editor : Editor E) (range : ExRange) (dest : Except String Int) : Option (Editor E) :=
  if ¬ editor.around.modifiable then some editor.refuseEdit
  else
    match dest with
    | .error message => some (editor.echo message)
    | .ok dest =>
        editor.pushUndo.edit fun buffer =>
          let (start, stop) := buffer.linewiseByteSpan range
          (buffer.slice start stop).bind fun chunk =>
            (buffer.spliceLinesBelow dest chunk).map (·.1)

/-- `ex_move`, to where `parse_ex_dest` says. -/
def exMove (editor : Editor E) (range : ExRange) (dest : Except String Int) : Option (Editor E) :=
  if ¬ editor.around.modifiable then some editor.refuseEdit
  else
    match dest with
    | .error message => some (editor.echo message)
    | .ok dest =>
        if dest ≥ range.lo ∧ dest < range.hi then
          some (editor.echo "E134: Cannot move a range of lines into itself")
        else if dest = (range.lo : Int) - 1 ∨ dest = range.hi then
          -- Just above the range, or just below its last line: nothing moves.
          some editor
        else
          editor.pushUndo.edit (·.moveLines range dest)

end Editor

/-! ### A put over a selection -/

/-- Where a grapheme cluster of a line starts. -/
class Graphemes where
  isBoundary : Text → Nat → Bool

/-- The greatest offset, down from one, with a property; 0 when there is none. -/
def floorTo (good : Nat → Bool) : Nat → Nat
  | 0 => 0
  | byte + 1 => if good (byte + 1) then byte + 1 else floorTo good byte

section Graphemes

variable [Graphemes]

/-- `floor_grapheme`. -/
def floorGrapheme (line : Text) (byte : Nat) : Nat :=
  if byte ≥ size line then size line else floorTo (Graphemes.isBoundary line) byte

/-- `next_grapheme`. -/
def nextGrapheme (line : Text) (byte : Nat) : Nat :=
  let start := floorGrapheme line byte
  ((List.range (size line)).find? fun next => start < next && Graphemes.isBoundary line next).getD
    (size line)

namespace Buffer

variable {E : Type} [ExtmarkStore E]

/-- `grapheme_floor_abs`. -/
def graphemeFloorAbs (buffer : Buffer E) (idx : Nat) : Nat :=
  let line := buffer.byteToLine idx
  let start := buffer.lineStart line
  start + floorGrapheme (buffer.lineCow line) (min (idx - start) (buffer.lineLen line))

/-- `next_grapheme_idx`. -/
def nextGraphemeIdx (buffer : Buffer E) (idx : Nat) : Nat :=
  let line := buffer.byteToLine idx
  let start := buffer.lineStart line
  if idx - start < buffer.lineLen line then
    start + nextGrapheme (buffer.lineCow line) (idx - start)
  else min (idx + 1) (size buffer.text)

/-- `grapheme_ceil_abs`. -/
def graphemeCeilAbs (buffer : Buffer E) (idx : Nat) : Nat :=
  let floored := buffer.graphemeFloorAbs idx
  if floored ≥ idx then floored else buffer.nextGraphemeIdx floored

/-- `snap_range`. -/
def snapRange (buffer : Buffer E) (lo hi : Nat) : Nat × Nat :=
  let hi := min hi (size buffer.text)
  (buffer.graphemeFloorAbs (min lo hi), buffer.graphemeCeilAbs hi)

end Buffer

/-- A Visual selection: its two ends, its kind, and the edges of the closed folds it touches. -/
structure Selection where
  anchor : Point
  cursor : Point
  linewise : Bool
  foldLineStart : Nat → Nat
  foldLineEnd : Nat → Nat

namespace Selection

/-- The first and the last line of a linewise selection. -/
def rows (selection : Selection) : Nat × Nat :=
  (selection.foldLineStart (min selection.anchor.1 selection.cursor.1),
    selection.foldLineEnd (max selection.anchor.1 selection.cursor.1))

/-- The earlier and the later end. -/
def ends (selection : Selection) : Point × Point :=
  if Point.before selection.cursor selection.anchor then (selection.cursor, selection.anchor)
  else (selection.anchor, selection.cursor)

end Selection

namespace Buffer

variable {E : Type} [ExtmarkStore E]

/-- `visual_range`: the selected bytes. -/
def visualRange (buffer : Buffer E) (selection : Selection) : Nat × Nat :=
  if selection.linewise then
    let (first, last) := selection.rows
    (buffer.lineStart first, buffer.lineStart (min (last + 1) buffer.lineCount))
  else
    let a := buffer.byteAt selection.anchor.1 selection.anchor.2
    let b := buffer.byteAt selection.cursor.1 selection.cursor.2
    let lo := min a b
    (lo, min (max a b + 1) (max (size buffer.text - 1) (lo + 1)))

/-- `record_visual_marks`. -/
def recordVisualMarks (buffer : Buffer E) (selection : Selection) : Buffer E :=
  let (lo, hi) := selection.ends
  { buffer with marks := setMark (setMark buffer.marks '<' (some lo)) '>' (some hi) }

/-- `record_change_bounds`. -/
def recordChangeBounds (buffer : Buffer E) (lo hi : Nat) : Buffer E :=
  let len := size buffer.text
  let lo := min lo len
  let last := min (max (lo + 1) (min hi (max len (lo + 1))) - 1) len
  { buffer with
    marks := setMark (setMark buffer.marks '[' (some (buffer.pointAt lo)))
      ']' (some (buffer.pointAt last)) }

end Buffer

/-- `MAX_PUT_BYTES`. -/
def maxPutBytes : Nat := 64 * 2 ^ 20

/-- `paste_too_long`; a product past the word is past the bound too. -/
def pasteTooLong (text : Text) (count : Nat) : Bool :=
  decide (1 < count ∧ maxPutBytes < size text * count)

namespace Editor

variable {E : Type} [ExtmarkStore E]

/-- `delete_range`. -/
def deleteRange (editor : Editor E) (lo hi : Nat) : Option (Editor E) :=
  let (lo, hi) := editor.buffer.snapRange lo hi
  if lo ≥ hi then some editor
  else
    editor.pushUndo.edit fun buffer =>
      (buffer.remove lo hi).bind fun removed =>
        removed.normalize.map fun normal => { normal with modified := true }

/-- `visual_paste`, of what a register holds, `name` when it was named. -/
def visualPaste (editor : Editor E) (name : Option Char) (register : Option (Text × RegKind))
    (count : Nat) (selection : Selection) : Option (Editor E) :=
  if ¬ editor.around.modifiable then some editor.refuseEdit
  else
    match register.filter fun held => !held.1.isEmpty with
    | none =>
        match name with
        | some name => some (editor.echo s!"E353: Nothing in register {name}")
        | none => some editor
    | some (text, kind) =>
        if pasteTooLong text count then some (editor.echo "E1240: Resulting text too long")
        else
          let (lo, hi) := editor.buffer.visualRange selection
          let marked := { editor with
            buffer := (editor.buffer.recordVisualMarks selection).recordChangeBounds lo hi }
          (marked.pushUndo.deleteRange lo hi).bind fun deleted =>
            let chunk := (List.replicate count text).flatten
            deleted.edit fun buffer =>
              (match selection.linewise, kind with
                | true, .line => buffer.insertLinesAt lo chunk
                | true, .char => buffer.insertLinesAt lo (chunk ++ ['\n'])
                | false, .char => (buffer.insert lo chunk).bind (·.normalize)
                | false, .line => buffer.insertLinesAt lo ('\n' :: chunk)).bind fun put =>
              Buffer.normalize { put with modified := true }

end Editor

end Graphemes

end Bemtvi.Core
