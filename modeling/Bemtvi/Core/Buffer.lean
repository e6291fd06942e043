/-
Module: Bemtvi.Core.Buffer
Purpose: The text buffer: its tracked mutations, the one `record` every mutation goes through, the
  six edit journals with their own drains, and the bookkeeping that rides the edits.
Trusted boundary: human-reviewed model of bemtvi-core/src/buffer.rs:19-56, 521-540,
  814-1107, 1154-1240, 1463-1471, 1487-1491 and 1516-1630; ropey is the text library, with `LF_CR` line breaks;
  ropey's panics are `none`; the extmark store is a parameter
Main exports: BufferEdit, EditBatch, Consumer, Buffer, Buffer.insert, Buffer.remove,
  Buffer.replace, Buffer.normalize, Buffer.markResync, Buffer.take, Buffer.documentText
-/
import Bemtvi.Lib.Text

namespace Bemtvi.Core

open Utf8

/-- `ensure_trailing_newline`. -/
def ensureTrailingNewline (text : Text) : Text :=
  if text.getLast? = some '\n' then text else text ++ ['\n']

/-- A single content mutation: `[startByte, oldEndByte)` of the previous text became
`[startByte, newEndByte)`. -/
structure BufferEdit where
  startByte : Nat
  oldEndByte : Nat
  newEndByte : Nat
  /-- The place of `startByte`, before the edit. -/
  startPoint : Point
  /-- The place of `oldEndByte`, before the edit. -/
  oldEndPoint : Point
  /-- The place of `newEndByte`, after the edit. -/
  newEndPoint : Point
  text : Text
deriving Repr, DecidableEq

/-- The mutations since the last drain; `resync` when the whole rope was replaced. -/
structure EditBatch where
  edits : List BufferEdit
  resync : Bool
deriving Repr, DecidableEq

/-- Nothing since the last drain. -/
def EditBatch.empty : EditBatch where
  edits := []
  resync := false

def EditBatch.push (batch : EditBatch) (edit : BufferEdit) : EditBatch :=
  { batch with edits := batch.edits ++ [edit] }

/-- A batch after the whole rope was replaced: its deltas are moot. -/
def EditBatch.replaced : EditBatch where
  edits := []
  resync := true

/-- Who drains a journal. -/
inductive Consumer where
  /-- `take_edits`: the syntax worker. -/
  | treesitter
  | lsp
  | luaTs
  | mirror
  | fold
  /-- `take_jump_edits`: no resync flag. -/
  | jump
deriving Repr, DecidableEq

/-- What the buffer and its history ask of an extmark store. -/
class ExtmarkStore (E : Type) where
  shift : E → Nat → Nat → Nat → E
  clearAll : E → E
  /-- Counts the marks set, deleted and cleared. -/
  generation : E → Nat
  /-- `clear`, of a whole namespace. -/
  clear : E → Nat → E
  /-- `set`, of a plain mark at an offset. -/
  set : E → Nat → Nat → E
  /-- `adopt_positions_from`: the snapshot, its text's length, the namespaces left out. -/
  adoptPositionsFrom : E → E → Nat → List Nat → E
  /-- `move_namespace_into`: what is left of the source, and the destination. -/
  moveNamespaceInto : E → Nat → E → E × E

/-- `'fileformat'`. -/
inductive FileFormat where
  | unix
  | dos
  | mac
deriving Repr, DecidableEq

/-- The buffer-local options the text and save paths read. -/
structure BufferOptions where
  endofline : Bool
  fixendofline : Bool
  fileformat : FileFormat
  fileencoding : String
  bomb : Bool
deriving Repr, DecidableEq

/-- A text buffer. -/
structure Buffer (E : Type) where
  text : Text
  modified : Bool
  options : BufferOptions
  changedtick : Nat
  saveTick : Nat
  edits : EditBatch
  lspEdits : EditBatch
  luaTsEdits : EditBatch
  mirrorEdits : EditBatch
  foldEdits : EditBatch
  jumpEdits : List BufferEdit
  extmarks : E
  marks : Char → Option Point
  changelist : List Point
  changelistidx : Nat
  changeSpan : Option (Nat × Nat)

/-! ### Lines -/

/-- `strip_eol`. -/
def stripEol (line : Text) : Text :=
  if line.getLast? = some '\n' then
    if line.dropLast.getLast? = some '\r' then line.dropLast.dropLast else line.dropLast
  else line

namespace Buffer

variable {E : Type}

/-- `line_count`: without the empty line behind the last break. -/
def lineCount (buffer : Buffer E) : Nat := (lines buffer.text).length - 1

/-- `last_line`. -/
def lastLine (buffer : Buffer E) : Nat := buffer.lineCount - 1

/-- `line_cow`: nothing past the last line. -/
def lineCow (buffer : Buffer E) (index : Nat) : Text :=
  if index < buffer.lineCount then stripEol ((lines buffer.text)[index]?.getD []) else []

/-- `iter_lines`. -/
def iterLines (buffer : Buffer E) : List Text :=
  ((lines buffer.text).take buffer.lineCount).map stripEol

end Buffer

/-! ### Marks and the change list -/

/-- `pos < s` on places: row first, then column. -/
def Point.before (pos s : Point) : Prop := pos.1 < s.1 ∨ (pos.1 = s.1 ∧ pos.2 < s.2)

instance (pos s : Point) : Decidable (Point.before pos s) := by
  unfold Point.before
  infer_instance

/-- `shift_point`: a position across an edit, `none` when its line was deleted. -/
def shiftPoint (pos s oe ne : Point) : Option Point :=
  if Point.before pos s then some pos
  else if ¬ Point.before pos oe then
    some (pos.1 + ne.1 - oe.1, if pos.1 = oe.1 then pos.2 + ne.2 - oe.2 else pos.2)
  else if oe.1 > pos.1 then none
  else some s

/-- `shift_marks`. -/
def shiftMarks (marks : Char → Option Point) (s oe ne : Point) : Char → Option Point :=
  if s = oe ∧ oe = ne then marks else fun name => (marks name).bind (shiftPoint · s oe ne)

/-- `shift_changelist`. -/
def shiftChangelist (list : List Point) (s oe ne : Point) : List Point :=
  if s = oe ∧ oe = ne then list else list.filterMap (shiftPoint · s oe ne)

/-- `CHANGELIST_SIZE`. -/
def changelistSize : Nat := 100

/-- `add_to_changelist`: a change on the newest entry's line only moves that entry. -/
def addToChangelist (list : List Point) (pos : Point) : List Point :=
  match list.getLast? with
  | some last =>
      if last.1 = pos.1 then list.dropLast ++ [pos]
      else if list.length ≥ changelistSize then list.drop 1 ++ [pos]
      else list ++ [pos]
  | none => list ++ [pos]

/-- One mark set, or taken away. -/
def setMark (marks : Char → Option Point) (name : Char) (pos : Option Point) :
    Char → Option Point :=
  fun other => if other = name then pos else marks other

/-- The change span across an edit: shifted, then widened by the edit's own. -/
def widenSpan (span : Option (Nat × Nat)) (start oldEnd newEnd : Nat) : Nat × Nat :=
  let shift := fun p =>
    if p ≤ start then p else if p ≥ oldEnd then p - oldEnd + newEnd else newEnd
  match span with
  | some (lo, hi) => (min (shift lo) start, max (shift hi) newEnd)
  | none => (start, newEnd)

/-- Taking bytes out and putting others in is one splice. -/
theorem splice_splice {text text' new : Text} {start stop : Nat}
    (both : (splice text start stop []).bind (splice · start start new) = some text') :
    splice text start stop new = some text' := by
  rcases Option.bind_eq_some_iff.1 both with ⟨middle, first, second⟩
  rcases splice_eq_some.1 first with ⟨front, old, back, rfl, rfl, rfl, rfl⟩
  have joined : splice (front ++ [] ++ back) (size front) (size front + size []) new =
      some (front ++ new ++ back) := splice_append front [] back new
  rw [size_nil, Nat.add_zero] at joined
  rw [joined] at second
  cases second
  exact splice_append front old back new

namespace Buffer

variable {E : Type} [ExtmarkStore E]

/-! ### Places -/

def byteToLine (buffer : Buffer E) (byte : Nat) : Nat := (point buffer.text byte).1

def lineStart (buffer : Buffer E) (row : Nat) : Nat := Utf8.lineStart buffer.text row

/-- `point_at`. -/
def pointAt (buffer : Buffer E) (byte : Nat) : Point :=
  let row := buffer.byteToLine byte
  (row, byte - buffer.lineStart row)

omit [ExtmarkStore E] in
/-- A place read off the rope is the place in the text. -/
theorem pointAt_eq (buffer : Buffer E) (byte : Nat) :
    buffer.pointAt byte = point buffer.text byte := by
  have whole := lineStart_point buffer.text byte
  unfold pointAt byteToLine lineStart
  refine Prod.ext rfl ?_
  simp only
  omega

/-! ### Tracked mutations -/

/-- `record`: journal an edit and move everything that rides it. -/
def record (buffer : Buffer E) (edit : BufferEdit) : Buffer E :=
  let marks := shiftMarks buffer.marks edit.startPoint edit.oldEndPoint edit.newEndPoint
  let changelist := addToChangelist
    (shiftChangelist buffer.changelist edit.startPoint edit.oldEndPoint edit.newEndPoint)
    edit.startPoint
  { buffer with
    extmarks := ExtmarkStore.shift buffer.extmarks edit.startByte edit.oldEndByte edit.newEndByte
    marks := setMark marks '.' (some edit.startPoint)
    changelist := changelist
    changelistidx := changelist.length
    changeSpan :=
      some (widenSpan buffer.changeSpan edit.startByte edit.oldEndByte edit.newEndByte)
    edits := buffer.edits.push edit
    lspEdits := buffer.lspEdits.push edit
    jumpEdits := buffer.jumpEdits ++ [edit]
    mirrorEdits := buffer.mirrorEdits.push edit
    foldEdits := buffer.foldEdits.push edit
    luaTsEdits := buffer.luaTsEdits.push edit
    changedtick := buffer.changedtick + 1
    modified := true }

/-- `insert`: the single insertion choke point. -/
def insert (buffer : Buffer E) (byte : Nat) (s : Text) : Option (Buffer E) :=
  if s.isEmpty then some buffer
  else
    let startPoint := buffer.pointAt byte
    match splice buffer.text byte byte s with
    | none => none
    | some text =>
        let buffer := { buffer with text := text }
        let newEndByte := byte + size s
        some (buffer.record ⟨byte, byte, newEndByte, startPoint, startPoint,
          buffer.pointAt newEndByte, s⟩)

/-- `remove`: the single removal choke point. -/
def remove (buffer : Buffer E) (start stop : Nat) : Option (Buffer E) :=
  if start ≥ stop then some buffer
  else
    let startPoint := buffer.pointAt start
    let oldEndPoint := buffer.pointAt stop
    match splice buffer.text start stop [] with
    | none => none
    | some text =>
        let buffer := { buffer with text := text }
        some (buffer.record ⟨start, stop, start, startPoint, oldEndPoint, startPoint, []⟩)

/-- `replace`: one journaled edit, with the degenerate forms delegated. -/
def replace (buffer : Buffer E) (start stop : Nat) (s : Text) : Option (Buffer E) :=
  if start ≥ stop then
    if s.isEmpty then some buffer else buffer.insert start s
  else if s.isEmpty then buffer.remove start stop
  else
    let startPoint := buffer.pointAt start
    let oldEndPoint := buffer.pointAt stop
    match (splice buffer.text start stop []).bind (splice · start start s) with
    | none => none
    | some text =>
        let buffer := { buffer with text := text }
        let newEndByte := start + size s
        some (buffer.record ⟨start, stop, newEndByte, startPoint, oldEndPoint,
          buffer.pointAt newEndByte, s⟩)

/-- `normalize`: re-establish the trailing newline without claiming the `'.'` mark, the change list
or the change span for it. -/
def normalize (buffer : Buffer E) : Option (Buffer E) :=
  let n := size buffer.text
  if buffer.text.getLast? = some '\n' then some buffer
  else
    match buffer.insert n ['\n'] with
    | none => none
    | some after => some { after with
        marks := setMark after.marks '.' (buffer.marks '.')
        changelist := buffer.changelist
        changelistidx := buffer.changelistidx
        changeSpan := buffer.changeSpan.map fun (lo, hi) => (min lo n, min hi n) }

/-! ### What a mutation does -/

variable {buffer buffer' : Buffer E}

/-- An insertion leaves the buffer alone, or journals one splice. -/
theorem insert_cases {byte : Nat} {s : Text} (inserted : buffer.insert byte s = some buffer') :
    (s = [] ∧ buffer' = buffer) ∨
    (s ≠ [] ∧ ∃ text, splice buffer.text byte byte s = some text ∧
      buffer' = ({ buffer with text := text } : Buffer E).record ⟨byte, byte, byte + size s,
        point buffer.text byte, point buffer.text byte, point text (byte + size s), s⟩) := by
  unfold insert at inserted
  split at inserted
  · next empty =>
      cases inserted
      exact .inl ⟨List.isEmpty_iff.1 empty, rfl⟩
  · next something =>
      split at inserted
      · cases inserted
      · next text spliced =>
          cases inserted
          refine .inr ⟨fun empty => something (List.isEmpty_iff.2 empty), text, spliced, ?_⟩
          simp only [pointAt_eq]

/-- A removal leaves the buffer alone, or journals one splice, at the place its start had. -/
theorem remove_cases {start stop : Nat} (removed : buffer.remove start stop = some buffer') :
    (stop ≤ start ∧ buffer' = buffer) ∨
    (start < stop ∧ ∃ text, splice buffer.text start stop [] = some text ∧
      buffer' = ({ buffer with text := text } : Buffer E).record ⟨start, stop, start,
        point buffer.text start, point buffer.text stop, point buffer.text start, []⟩) := by
  unfold remove at removed
  split at removed
  · next none_ =>
      cases removed
      exact .inl ⟨none_, rfl⟩
  · next some_bytes =>
      split at removed
      · cases removed
      · next text spliced =>
          cases removed
          refine .inr ⟨Nat.not_le.1 some_bytes, text, spliced, ?_⟩
          simp only [pointAt_eq]

/-- A replacement is nothing, an insertion, a removal, or one splice of its own. -/
theorem replace_cases {start stop : Nat} {s : Text}
    (replaced : buffer.replace start stop s = some buffer') :
    (stop ≤ start ∧ s = [] ∧ buffer' = buffer) ∨
    (stop ≤ start ∧ s ≠ [] ∧ buffer.insert start s = some buffer') ∨
    (start < stop ∧ s = [] ∧ buffer.remove start stop = some buffer') ∨
    (start < stop ∧ s ≠ [] ∧ ∃ text, splice buffer.text start stop s = some text ∧
      buffer' = ({ buffer with text := text } : Buffer E).record ⟨start, stop, start + size s,
        point buffer.text start, point buffer.text stop, point text (start + size s), s⟩) := by
  unfold replace at replaced
  split at replaced
  · next none_ =>
      split at replaced
      · next empty =>
          cases replaced
          exact .inl ⟨none_, List.isEmpty_iff.1 empty, rfl⟩
      · next something =>
          exact .inr (.inl ⟨none_, fun empty => something (List.isEmpty_iff.2 empty), replaced⟩)
  · next some_bytes =>
      have ordered := Nat.not_le.1 some_bytes
      split at replaced
      · next empty => exact .inr (.inr (.inl ⟨ordered, List.isEmpty_iff.1 empty, replaced⟩))
      · next something =>
          split at replaced
          · cases replaced
          · next text both =>
              cases replaced
              refine .inr (.inr (.inr ⟨ordered, fun empty => something (List.isEmpty_iff.2 empty),
                text, splice_splice both, ?_⟩))
              simp only [pointAt_eq]

/-- Normalizing leaves the buffer alone, or inserts a newline at its end. -/
theorem normalize_cases (normalized : buffer.normalize = some buffer') : buffer' = buffer ∨
    ∃ after span, buffer.insert (size buffer.text) ['\n'] = some after ∧
      buffer' = { after with
        marks := setMark after.marks '.' (buffer.marks '.')
        changelist := buffer.changelist
        changelistidx := buffer.changelistidx
        changeSpan := span } := by
  simp only [normalize] at normalized
  split at normalized
  · cases normalized
    exact .inl rfl
  · split at normalized
    · cases normalized
    · next after inserted =>
        cases normalized
        exact .inr ⟨after, _, inserted, rfl⟩

/-! ### Whole replacements -/

/-- `mark_resync`: the whole rope was replaced. -/
def markResync (buffer : Buffer E) : Buffer E :=
  { buffer with
    edits := .replaced
    lspEdits := .replaced
    luaTsEdits := .replaced
    mirrorEdits := .replaced
    foldEdits := .replaced
    jumpEdits := []
    extmarks := ExtmarkStore.clearAll buffer.extmarks
    marks := fun _ => none
    changelist := []
    changelistidx := 0
    changeSpan := none
    changedtick := buffer.changedtick + 1
    modified := true }

/-! ### Drains -/

omit [ExtmarkStore E]

/-- What a consumer would drain now. -/
def journal (buffer : Buffer E) : Consumer → EditBatch
  | .treesitter => buffer.edits
  | .lsp => buffer.lspEdits
  | .luaTs => buffer.luaTsEdits
  | .mirror => buffer.mirrorEdits
  | .fold => buffer.foldEdits
  | .jump => { edits := buffer.jumpEdits, resync := false }

def takeEdits (buffer : Buffer E) : EditBatch × Buffer E :=
  (buffer.edits, { buffer with edits := .empty })

def takeLspEdits (buffer : Buffer E) : EditBatch × Buffer E :=
  (buffer.lspEdits, { buffer with lspEdits := .empty })

def takeLuaTsEdits (buffer : Buffer E) : EditBatch × Buffer E :=
  (buffer.luaTsEdits, { buffer with luaTsEdits := .empty })

def takeMirrorEdits (buffer : Buffer E) : EditBatch × Buffer E :=
  (buffer.mirrorEdits, { buffer with mirrorEdits := .empty })

def takeFoldEdits (buffer : Buffer E) : EditBatch × Buffer E :=
  (buffer.foldEdits, { buffer with foldEdits := .empty })

def takeJumpEdits (buffer : Buffer E) : List BufferEdit × Buffer E :=
  (buffer.jumpEdits, { buffer with jumpEdits := [] })

/-- The drain of each consumer. -/
def take (buffer : Buffer E) : Consumer → EditBatch × Buffer E
  | .treesitter => buffer.takeEdits
  | .lsp => buffer.takeLspEdits
  | .luaTs => buffer.takeLuaTsEdits
  | .mirror => buffer.takeMirrorEdits
  | .fold => buffer.takeFoldEdits
  | .jump =>
      let (edits, after) := buffer.takeJumpEdits
      ({ edits := edits, resync := false }, after)

/-! ### The document behind the rope -/

/-- `document_text`: without the phantom newline when `'endofline'` is off. -/
def documentText (buffer : Buffer E) : Text :=
  if buffer.options.endofline then buffer.text else buffer.text.dropLast

/-- `document_len_bytes`. -/
def documentLenBytes (buffer : Buffer E) : Nat :=
  size buffer.text - if buffer.options.endofline then 0 else 1

def isEmptyDocument (buffer : Buffer E) : Bool := buffer.documentLenBytes == 0

/-- `written_endofline`. -/
def writtenEndofline (buffer : Buffer E) : Bool :=
  buffer.options.endofline || (buffer.options.fixendofline && !buffer.isEmptyDocument)

/-- `save_text`: the document plus the newline `'fixendofline'` supplies. -/
def saveText (buffer : Buffer E) : Text :=
  let text := buffer.documentText
  if buffer.options.fixendofline ∧ text ≠ [] ∧ text.getLast? ≠ some '\n' then text ++ ['\n']
  else text

/-- A fresh buffer over a text. -/
def ofText (text : Text) : Buffer Unit where
  text := text
  modified := false
  options := ⟨true, true, .unix, "utf-8", false⟩
  changedtick := 0
  saveTick := 0
  edits := .empty
  lspEdits := .empty
  luaTsEdits := .empty
  mirrorEdits := .empty
  foldEdits := .empty
  jumpEdits := []
  extmarks := ()
  marks := fun _ => none
  changelist := []
  changelistidx := 0
  changeSpan := none

end Buffer

/-- A store that keeps no marks. -/
instance : ExtmarkStore Unit where
  shift _ _ _ _ := ()
  clearAll _ := ()
  generation _ := 0
  clear _ _ := ()
  set _ _ _ := ()
  adoptPositionsFrom _ _ _ _ := ()
  moveNamespaceInto _ _ _ := ((), ())

end Bemtvi.Core
