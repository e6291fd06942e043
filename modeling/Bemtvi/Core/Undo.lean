/-
Module: Bemtvi.Core.Undo
Purpose: The editor's undo commands on the focused buffer: change groups opened, broken and
  committed, typing cut into steps, atomic spans, and every move through the tree.
Trusted boundary: human-reviewed model of bemtvi-core/src/editor/undo.rs:23-62, 667-731, 795-1266
  and 1268-1353, of one buffer that stays focused; the clock, the mode, the cursor's clamping and
  the window state are what the surroundings say, and `char::is_alphanumeric` is a parameter
Main exports: EditKind, TypingUndo, Surroundings, Editor, Editor.commitUndo, Editor.pushUndo,
  Editor.beforeTypedEdit, Editor.breakUndoStep, Editor.undo, Editor.redo, Editor.undoToSeq,
  Editor.undoTravel, Editor.restoreSnapshot
-/
import Bemtvi.Core.UndoTree

namespace Bemtvi.Core

open Utf8
open Word (saturate)

/-- `char::is_alphanumeric`. -/
class Alphabet where
  isAlphanumeric : Char → Bool

/-- What a typed key is about to do to the text. -/
inductive EditKind where
  | insert
  | delete
deriving Repr, DecidableEq

/-- Where an insert session's typing stands. -/
structure TypingUndo where
  kind : Option EditKind
  last : Option Char
  tick : Nat
  force : Bool
  lastMs : Nat
  /-- `at`: where the last typed edit left the cursor. -/
  leftAt : Option Point
deriving Repr, DecidableEq

/-- `TypingUndo::default`. -/
def TypingUndo.start : TypingUndo where
  kind := none
  last := none
  tick := 0
  force := false
  lastMs := 0
  leftAt := none

/-- `UNDO_PAUSE_MS`. -/
def undoPauseMs : Nat := 1000

/-- `starts_typing_step`: the first separator after a word, or what follows a line break. -/
def startsTypingStep [Alphabet] (last next : Option Char) : Bool :=
  let isWord := fun c => Alphabet.isAlphanumeric c || c == '_'
  match last, next with
  | some '\n', some _ => true
  | some p, some n => isWord p && !isWord n && n != '\n'
  | _, _ => false

/-- What the undo commands read of the rest of the editor. -/
structure Surroundings where
  modifiable : Bool
  /-- `mode.is_insert()`. -/
  isInsert : Bool
  pasteActive : Bool
  replayingChange : Bool
  normalDepth : Nat
  inGlobal : Bool
  /-- `macro_executing.is_some()`. -/
  macroExecuting : Bool
  cursor : Point
  /-- `windows.current`. -/
  window : Nat
  /-- `secondary_cursor_bytes`. -/
  secondary : List Nat
  /-- `undo_selection`. -/
  selection : Option (Nat × Nat)
  /-- `ephemeral_extmark_namespaces`. -/
  ephemeral : List Nat
  nowMono : Int
  nowMs : Nat
  undolevels : Int

/-- The focused buffer with its history, and the undo state of the editor around it. -/
structure Editor (E : Type) where
  buffer : Buffer E
  undoTree : UndoTree E
  /-- `saved_seq`: the state on disk. -/
  savedSeq : Option Nat
  snapshotTaken : Bool
  typing : TypingUndo
  undoAtomic : Nat
  undoAtomicTick : Nat
  undoAtomicOpened : Bool
  message : String
  around : Surroundings

/-! ### What an undo puts back on screen -/

/-- How many lines two lists share at the front. -/
def commonLines : List Text → List Text → Nat
  | line :: rest, line' :: rest' => if line = line' then 1 + commonLines rest rest' else 0
  | _, _ => 0

/-- `changed_line_span`: the lines of `new` that differ from `old`. -/
def changedLineSpan (old new : Text) : Nat × Nat :=
  let oldLines := lines old
  let newLines := lines new
  let head := commonLines oldLines newLines
  let tail := commonLines (oldLines.drop head).reverse (newLines.drop head).reverse
  let putBack := newLines.length - head - tail
  (head, head + (putBack - 1))

namespace Editor

variable {E : Type}

/-- `OpenBuffer::new`, focused: state 0 is what is on disk. -/
def start [ExtmarkStore E] (buffer : Buffer E) (around : Surroundings) : Editor E where
  buffer := buffer
  undoTree := .new buffer
  savedSeq := some 0
  snapshotTaken := false
  typing := .start
  undoAtomic := 0
  undoAtomicTick := 0
  undoAtomicOpened := false
  message := ""
  around := around

/-- `echo`. -/
def echo (editor : Editor E) (message : String) : Editor E := { editor with message := message }

/-- `refuse_edit`. -/
def refuseEdit (editor : Editor E) : Editor E :=
  editor.echo "E21: Cannot make changes, 'modifiable' is off"

/-- `snapshot_of` the focused buffer. -/
def snapshotOf (editor : Editor E) : Snapshot E where
  text := editor.buffer.text
  cursor := editor.around.cursor
  extmarks := editor.buffer.extmarks
  marks := editor.buffer.marks
  changelist := (editor.buffer.changelist, editor.buffer.changelistidx)
  cursorWindow := some editor.around.window
  selection := editor.around.selection

/-- Whether the live buffer holds a change no node holds yet. -/
def pending (editor : Editor E) : Bool := editor.undoTree.pending editor.buffer.changedtick

/-- A change group begins now. -/
def markDirty (editor : Editor E) : Editor E :=
  { editor with
    undoTree := editor.undoTree.markDirty editor.around.nowMono editor.buffer.changedtick }

/-- `replaying_one_change`. -/
def replayingOneChange (editor : Editor E) : Bool :=
  editor.around.pasteActive || editor.around.replayingChange || editor.around.normalDepth != 0 ||
    editor.around.inGlobal || editor.around.macroExecuting

/-- `typing_undo_suppressed`. -/
def typingUndoSuppressed (editor : Editor E) : Bool :=
  editor.replayingOneChange || editor.undoAtomic != 0

/-- `reset_typing_undo`. -/
def resetTypingUndo (editor : Editor E) : Editor E :=
  { editor with typing := { TypingUndo.start with tick := editor.buffer.changedtick } }

/-- `owe_typing_step`. -/
def oweTypingStep (editor : Editor E) : Editor E :=
  { editor with typing := { editor.typing with force := true } }

/-- `after_typed_edit`. -/
def afterTypedEdit (editor : Editor E) : Editor E :=
  { editor with typing := { editor.typing with leftAt := some editor.around.cursor } }

/-- `begin_undo_atomic`. -/
def beginUndoAtomic (editor : Editor E) : Editor E :=
  let opened :=
    if editor.undoAtomic = 0 then
      { editor with undoAtomicTick := editor.buffer.changedtick, undoAtomicOpened := false }
    else editor
  { opened with undoAtomic := opened.undoAtomic + 1 }

/-- `end_undo_atomic`, up to the modeless session's settling. -/
def endUndoAtomic (editor : Editor E) : Editor E :=
  let closed := { editor with undoAtomic := editor.undoAtomic - 1 }
  if closed.undoAtomic = 0 ∧ closed.buffer.changedtick ≠ closed.undoAtomicTick then
    closed.oweTypingStep
  else closed

section Extmarks

variable [ExtmarkStore E]

/-! ### Change groups -/

/-- `commit_undo`: the pending edit becomes a node, and the history is pruned. -/
def commitUndo (editor : Editor E) : Editor E :=
  if ¬ editor.undoTree.dirty then editor
  else if ¬ editor.pending then
    -- A group that changed nothing closes without becoming a state.
    { editor with undoTree := { editor.undoTree with dirty := false } }
  else
    let keep := undoLevelsToKeep editor.around.undolevels
    { editor with undoTree := (editor.undoTree.commit editor.snapshotOf).prune keep }

/-- `mark_undo_saved`: the current state is the one on disk. -/
def markUndoSaved (editor : Editor E) : Editor E :=
  let committed := editor.commitUndo
  let nr := committed.undoTree.saveLast + 1
  let stamped := committed.undoTree.modifyState committed.undoTree.cur fun state =>
    { state with save := some nr }
  { committed with
    undoTree := { stamped with saveLast := nr }
    savedSeq := some committed.undoTree.curSeq }

/-- `refresh_undo_cursor_marks`: the current node takes the live cursors, marks and selection. -/
def refreshUndoCursorMarks (editor : Editor E) : Editor E :=
  let liveExtmarkGen := ExtmarkStore.generation editor.buffer.extmarks
  let extmarks :=
    if editor.undoTree.curSnapshotExtmarkGen ≠ some liveExtmarkGen then
      some editor.buffer.extmarks
    else none
  let synced := editor.undoTree.setCurSnapshotCursors editor.around.cursor editor.around.secondary
    (some editor.around.window) extmarks editor.buffer.marks liveExtmarkGen
  { editor with
    undoTree := synced.modifyState synced.cur fun state =>
      { state with snap := { state.snap with selection := editor.around.selection } } }

/-- `push_undo_for` the focused buffer: one independently undoable change. -/
def pushUndoFor (editor : Editor E) : Editor E :=
  editor.commitUndo.refreshUndoCursorMarks.markDirty

/-- `push_undo`: a change group begins, unless one is open. -/
def pushUndo (editor : Editor E) : Editor E :=
  if editor.snapshotTaken then
    -- The flag is the editor's, and this buffer's own group may have closed under it.
    if ¬ editor.undoTree.dirty then editor.refreshUndoCursorMarks.markDirty else editor
  else editor.commitUndo.refreshUndoCursorMarks.markDirty

/-- `break_undo_step`: the pending step becomes a node, and the next one opens. -/
def breakUndoStep (editor : Editor E) : Editor E :=
  let opened := editor.commitUndo.refreshUndoCursorMarks.markDirty
  { opened with typing := { opened.typing with tick := opened.buffer.changedtick } }

/-! ### Typing -/

/-- `open_atomic_step`: the first edit of an atomic span closes the typing step before it. -/
def openAtomicStep (editor : Editor E) : Editor E :=
  if editor.undoAtomicOpened then editor
  else
    let opened := { editor with undoAtomicOpened := true }
    if opened.around.isInsert ∧ ¬ opened.replayingOneChange ∧
        opened.buffer.changedtick ≠ opened.typing.tick then
      opened.breakUndoStep
    else opened

/-- Whether a typed edit starts a step of its own. -/
def startsStep [Alphabet] (editor : Editor E) (kind : EditKind) (ch : Option Char) : Bool :=
  let t := editor.typing
  let moved := t.leftAt.any fun leftAt => leftAt != editor.around.cursor
  let paused := t.kind.isSome && decide (editor.around.nowMs - t.lastMs > undoPauseMs)
  t.force || moved || paused || t.kind.any (fun k => k != kind) ||
    (kind == .insert && t.kind == some .insert && startsTypingStep t.last ch)

/-- `before_typed_edit`: open the group, and break the step where this key starts one. -/
def beforeTypedEdit [Alphabet] (editor : Editor E) (kind : EditKind) (ch : Option Char) :
    Editor E :=
  let pushed := editor.pushUndo
  if pushed.undoAtomic > 0 then pushed.openAtomicStep
  else if pushed.replayingOneChange then pushed
  else
    let changed := pushed.buffer.changedtick ≠ pushed.typing.tick
    let broken := if changed ∧ pushed.startsStep kind ch then pushed.breakUndoStep else pushed
    { broken with
      typing := { broken.typing with
        kind := some kind
        last := ch
        force := false
        lastMs := broken.around.nowMs } }

/-- `end_typing_step`. -/
def endTypingStep (editor : Editor E) : Editor E :=
  if editor.undoAtomic > 0 then editor.openAtomicStep
  else if ¬ editor.around.isInsert ∨ editor.replayingOneChange then editor
  else
    let pushed := editor.pushUndo
    if pushed.buffer.changedtick ≠ pushed.typing.tick then pushed.breakUndoStep else pushed

/-- `begin_replacing_step`. -/
def beginReplacingStep (editor : Editor E) : Editor E :=
  let broken :=
    if editor.snapshotTaken ∧ ¬ editor.typingUndoSuppressed ∧
        editor.buffer.changedtick ≠ editor.typing.tick then
      editor.breakUndoStep
    else editor
  broken.resetTypingUndo

/-- `mark_undo_point`: what undo returns to takes the live caret and selection. -/
def markUndoPoint (editor : Editor E) : Editor E :=
  if ¬ editor.snapshotTaken ∨ editor.replayingOneChange ∨
      (editor.undoAtomic > 0 ∧ editor.undoAtomicOpened) then editor
  else
    let pushed := editor.pushUndo
    let opened := if pushed.undoAtomic > 0 then { pushed with undoAtomicOpened := true } else pushed
    if opened.buffer.changedtick ≠ opened.typing.tick then opened.breakUndoStep
    else opened.refreshUndoCursorMarks

/-! ### Moving through the tree -/

/-- The marks a restored snapshot leaves: the live ones back in their places, the cursors as
captured, and only in the window that captured them. -/
def restoredExtmarks (editor : Editor E) (snap : Snapshot E) : E :=
  let skip := editor.around.ephemeral ++ [cursorNs, anchorNs]
  let adopted :=
    ExtmarkStore.adoptPositionsFrom editor.buffer.extmarks snap.extmarks (size snap.text) skip
  let (left, withCursors) := ExtmarkStore.moveNamespaceInto snap.extmarks cursorNs adopted
  let (_, merged) := ExtmarkStore.moveNamespaceInto left anchorNs withCursors
  if snap.cursorWindow ≠ some editor.around.window then
    ExtmarkStore.clear (ExtmarkStore.clear merged cursorNs) anchorNs
  else merged

/-- `restore_snapshot`, of the state numbered `seq`. -/
def restoreSnapshot (editor : Editor E) (snap : Snapshot E) (seq : Nat) : Editor E :=
  -- Clean only on the state last written to disk; `mark_resync` sets the flag, so decide first.
  let clean := editor.savedSeq = some seq
  let oldText := editor.buffer.text
  let replaced := ({ editor.buffer with text := snap.text } : Buffer E).markResync
  let (first, last) := changedLineSpan oldText snap.text
  let top := replaced.lineCount - 1
  let marks := setMark (setMark snap.marks '[' (some (min first top, 0))) ']'
    (some (min last top, 0))
  { editor with
    buffer := { replaced with
      extmarks := editor.restoredExtmarks snap
      marks := marks
      changelist := snap.changelist.1
      changelistidx := snap.changelist.2
      modified := !decide clean }
    around := { editor.around with cursor := snap.cursor } }

/-- Move onto the node at an index and restore it. -/
def land (editor : Editor E) (node : Nat) : Editor E :=
  match editor.undoTree.nodes[node]? with
  | some state =>
      ({ editor with undoTree := { editor.undoTree with cur := node } }).restoreSnapshot
        state.data.snap state.data.seq
  | none => editor

/-- The parent of the current node. -/
def parent (editor : Editor E) : Option Nat :=
  Arena.parentOf editor.undoTree.nodes editor.undoTree.cur

/-- The newest child of the current node. -/
def newestChild (editor : Editor E) : Option Nat :=
  editor.undoTree.nodes[editor.undoTree.cur]?.bind (·.children.getLast?)

/-- `undo`. -/
def undo (editor : Editor E) : Editor E :=
  if ¬ editor.around.modifiable then editor.refuseEdit
  else
    let committed := editor.commitUndo
    match committed.parent with
    | none => committed.echo "Already at oldest change"
    | some parent => committed.land parent

/-- `redo`: follow the newest branch. -/
def redo (editor : Editor E) : Editor E :=
  if ¬ editor.around.modifiable then editor.refuseEdit
  else
    let committed := editor.commitUndo
    match committed.newestChild with
    | none => committed.echo "Already at newest change"
    | some child => committed.land child

/-- `undo_to_seq`: `:undo {N}`. -/
def undoToSeq (editor : Editor E) (target : Nat) : Editor E :=
  if ¬ editor.around.modifiable then editor.refuseEdit
  else
    let committed := editor.commitUndo
    match committed.undoTree.nodeOfSeq target with
    | none => committed.echo s!"E830: Undo number {target} not found"
    | some node => if node = committed.undoTree.cur then committed else committed.land node

/-- `undo_land_on`. -/
def undoLandOn (editor : Editor E) (node : Nat) (back : Bool) : Editor E :=
  if node = editor.undoTree.cur then
    editor.echo (if back then "Already at oldest change" else "Already at newest change")
  else if ¬ editor.around.modifiable then editor.refuseEdit
  else editor.land node

/-- `undo_travel`: so many states along seq order, of a history whose seqs the casts to `i64` keep
(those below `2^63`). -/
def undoTravel (editor : Editor E) (count : Nat) (back : Bool) : Editor E :=
  if count = 0 then editor
  else
    let committed := editor.commitUndo
    let tree := committed.undoTree
    let cur : Int := tree.curSeq
    let step : Int := min count (2 ^ 63 - 1)
    let target := saturate (if back then cur - step else cur + step)
    let target := (max 0 (min target tree.seqLast)).toNat
    committed.undoLandOn (tree.nodeNearSeq target back) back

/-- `undo_travel_time`: so many seconds from the current state's own time. -/
def undoTravelTime (editor : Editor E) (secs : Int) (back : Bool) : Editor E :=
  let committed := editor.commitUndo
  let tree := committed.undoTree
  let base := (tree.nodes[tree.cur]?.map (·.data.time)).getD 0
  let target := saturate (if back then base - secs else base + secs)
  committed.undoLandOn (tree.nodeNearTime target back) back

/-- `undo_travel_file`: so many file writes. -/
def undoTravelFile (editor : Editor E) (count : Nat) (back : Bool) : Editor E :=
  if count = 0 then editor
  else
    let committed := editor.commitUndo
    let tree := committed.undoTree
    let atSave := (tree.nodes[tree.cur]?.bind (·.data.save)).isSome
    let base : Int := tree.saveAtOrAboveCur.getD 0
    let step : Int := min count (2 ^ 63 - 1)
    -- Away from a write, going back spends its first step on reaching the last one.
    let target :=
      if back then saturate (base - if atSave then step else step - 1) else saturate (base + step)
    committed.undoLandOn (tree.nodeNearSave target back) back

end Extmarks

end Editor

end Bemtvi.Core
