/-
Module: Bemtvi.Core.UndoMarks
Purpose: Runs of the undo commands with the real extmark store: edits that shift the marks, marks set,
  deleted and cleared, change groups, commits and every move through the tree; with the marks
  each state was last left with, and every placement there was.
Trusted boundary: human-reviewed model, over Core.Undo and Core.Extmarks.  A stamp is only compared
  with earlier ones of the live store, so each store counts its own.  An edit comes inside an open
  group, a mark within the text (as `apply_extmark_op` clamps it); a namespace once ephemeral
  stays so, and the window stays
Main exports: Marks, Event, editorStep, Tracked, step, Inside, snapshotMarks, Restored
-/
import Bemtvi.Core.UndoRuns
import Bemtvi.Core.ExtmarksLaws

namespace Bemtvi.Core

open Utf8

namespace Extmarks

variable {P : Type}

/-- The last of the stamps a store carries. -/
def ExtmarkStore.seen (store : ExtmarkStore P) : Nat :=
  store.byNs.values.foldl (fun stamps slot => max stamps slot.gen) store.generation

/-- The store of a buffer; `default` is the payload of a mark without highlight and decoration. -/
instance [Inhabited P] : Core.ExtmarkStore (ExtmarkStore P) where
  shift := ExtmarkStore.shift
  clearAll store := (store.clearAll store.seen).1
  generation := ExtmarkStore.generation
  clear store ns := (store.clear store.seen ns none).1
  set store ns pos :=
    (store.setWithGravity store.seen ns none pos none Inhabited.default true false).1
  adoptPositionsFrom store snap textLen skip :=
    (store.adoptPositionsFrom store.seen snap textLen skip).1
  moveNamespaceInto store ns dst :=
    let (left, dst, _) := store.moveNamespaceInto (max store.seen dst.seen) ns dst
    (left, dst)

/-- A mark within a text of so many bytes. -/
def Extmark.Inside (m : Extmark P) (textLen : Nat) : Prop :=
  m.start ≤ textLen ∧ ∀ stop, m.stop = some stop → m.start ≤ stop ∧ stop ≤ textLen

end Extmarks

namespace UndoMarks

open Extmarks (Extmark)

variable {P : Type}

/-- The marks of a buffer. -/
abbrev Marks (P : Type) := Extmarks.ExtmarkStore P

/-! ### Events -/

/-- What happens to the focused buffer, its marks and its history. -/
inductive Event (P : Type) where
  | insert (byte : Nat) (s : Text)
  | remove (start stop : Nat)
  | replace (start stop : Nat) (s : Text)
  | set (ns : Nat) (id : Option Nat) (start : Nat) (stop : Option Nat) (payload : P)
      (rightGravity endRightGravity : Bool)
  | del (ns id : Nat)
  | clear (ns : Nat) (range : Option (Nat × Nat))
  /-- The cursor, the mode, the clock, an option or the ephemeral namespaces change. -/
  | surround (around : Surroundings)
  /-- An insert session or a batch sets or clears `snapshot_taken`. -/
  | session (taken : Bool)
  | commitUndo
  | pushUndo
  | pushUndoFor
  | breakUndoStep
  | markUndoSaved
  | undo
  | redo
  | undoToSeq (target : Nat)
  | undoTravel (count : Nat) (back : Bool)
  | undoTravelTime (secs : Int) (back : Bool)
  | undoTravelFile (count : Nat) (back : Bool)

/-- The events that move through the tree. -/
def Event.moves : Event P → Bool
  | .undo | .redo | .undoToSeq _ | .undoTravel .. | .undoTravelTime .. | .undoTravelFile .. => true
  | _ => false

/-- The events that take the live marks into the snapshot of the live state. -/
def Event.syncs (editor : Editor (Marks P)) : Event P → Bool
  | .commitUndo => editor.pending
  | .pushUndo => ! (editor.snapshotTaken && editor.undoTree.dirty)
  | .pushUndoFor | .breakUndoStep => true
  | _ => false

/-- Marks changed in place. -/
def mark (editor : Editor (Marks P)) (marks : Marks P) : Editor (Marks P) :=
  { editor with buffer := { editor.buffer with extmarks := marks } }

/-- An edit inside an open group. -/
def edit (editor : Editor (Marks P)) (next : Option (Buffer (Marks P))) :
    Option (Editor (Marks P)) :=
  if editor.undoTree.dirty then next.map fun buffer => { editor with buffer := buffer } else none

variable [Inhabited P]

/-- One event. -/
def editorStep (editor : Editor (Marks P)) : Event P → Option (Editor (Marks P))
  | .insert byte s => edit editor (editor.buffer.insert byte s)
  | .remove start stop => edit editor (editor.buffer.remove start stop)
  | .replace start stop s => edit editor (editor.buffer.replace start stop s)
  | .set ns id start stop payload right endRight =>
      let marks := editor.buffer.extmarks
      if start ≤ size editor.buffer.text ∧
          (stop.all fun stop => start ≤ stop ∧ stop ≤ size editor.buffer.text) = true then
        some (mark editor
          (marks.setWithGravity marks.seen ns id start stop payload right endRight).1)
      else none
  | .del ns id =>
      some (mark editor (editor.buffer.extmarks.del editor.buffer.extmarks.seen ns id).1)
  | .clear ns range =>
      some (mark editor (editor.buffer.extmarks.clear editor.buffer.extmarks.seen ns range).1)
  | .surround around =>
      if around.window = editor.around.window ∧
          (editor.around.ephemeral.all fun ns => ns ∈ around.ephemeral) = true then
        some { editor with around := around }
      else none
  | .session taken => some { editor with snapshotTaken := taken }
  | .commitUndo => some editor.commitUndo
  | .pushUndo => some editor.pushUndo
  | .pushUndoFor => some editor.pushUndoFor
  | .breakUndoStep => some editor.breakUndoStep
  | .markUndoSaved => some editor.markUndoSaved
  | .undo => some editor.undo
  | .redo => some editor.redo
  | .undoToSeq target => some (editor.undoToSeq target)
  | .undoTravel count back => some (editor.undoTravel count back)
  | .undoTravelTime secs back => some (editor.undoTravelTime secs back)
  | .undoTravelFile count back => some (editor.undoTravelFile count back)

/-! ### What runs leave behind -/

/-- A placement: namespace, id and serial. -/
abbrev Placement := Nat × Nat × Nat

/-- The placement an event makes in the live store. -/
def placement (editor : Editor (Marks P)) : Event P → List Placement
  | .set ns id start stop payload right endRight =>
      let marks := editor.buffer.extmarks
      [(ns, (marks.setWithGravity marks.seen ns id start stop payload right endRight).2.2,
        marks.nextSerial + 1)]
  | _ => []

/-- An editor with what its run left behind. -/
structure Tracked (P : Type) where
  editor : Editor (Marks P)
  /-- The live marks when the state of a seq was last left. -/
  left : Nat → Option (Marks P)
  /-- The placements made in the live store. -/
  placed : List Placement

/-- An editor on a buffer that was just opened, without a mark. -/
def initial (buffer : Buffer (Marks P)) (around : Surroundings) : Tracked P where
  editor := .start { buffer with extmarks := .default } around
  left := fun _ => none
  placed := []

/-- Where the live state becomes another one, the marks it had are what it was left with. -/
def leave (t : Tracked P) (after : Editor (Marks P)) : Nat → Option (Marks P) :=
  if after.stateSeq = t.editor.stateSeq then t.left
  else Function.update t.left t.editor.stateSeq (some t.editor.buffer.extmarks)

/-- One event. -/
def step (t : Tracked P) (event : Event P) : Option (Tracked P) :=
  (editorStep t.editor event).map fun after =>
    { editor := after
      left := leave t after
      placed := placement t.editor event ++ t.placed }

/-! ### What a restored snapshot does to the marks -/

/-- The marks of the current node's snapshot. -/
def snapshotMarks (editor : Editor (Marks P)) : Option (Marks P) :=
  editor.undoTree.nodes[editor.undoTree.cur]?.map fun node => node.data.snap.extmarks

/-- A mark kept in place, clamped into a text. -/
def clamped (textLen : Nat) (m : Extmark P) : Extmark P := Extmarks.ExtmarkStore.adoptMark none textLen m

/-- **What a restore does to a namespace.** -/
structure Restored (ns : Nat) (before after : Tracked P) : Prop where
  /-- The same marks are there, with the same payloads. -/
  membership : ∀ id, (after.editor.buffer.extmarks.get ns id).map Extmark.payload =
    (before.editor.buffer.extmarks.get ns id).map Extmark.payload
  /-- A placement that the restored snapshot holds is back where it was when the state was last
  left. -/
  positions : ∀ marks id m then_, snapshotMarks after.editor = some marks →
    after.editor.buffer.extmarks.get ns id = some m → marks.get ns id = some then_ →
    then_.serial = m.serial →
    ∃ left m', before.left after.editor.stateSeq = some left ∧ left.get ns id = some m' ∧
      m'.serial = m.serial ∧ m.start = m'.start ∧ m.stop = m'.stop
  /-- Every other placement stays, clamped. -/
  others : ∀ marks id m, snapshotMarks after.editor = some marks →
    after.editor.buffer.extmarks.get ns id = some m →
    (∀ then_, marks.get ns id = some then_ → then_.serial ≠ m.serial) →
    ∃ m', before.editor.buffer.extmarks.get ns id = some m' ∧
      m = clamped (size after.editor.buffer.text) m'
  inside : ∀ id m, after.editor.buffer.extmarks.get ns id = some m →
    m.Inside (size after.editor.buffer.text)

/-- A placement of a namespace in the live store or in a snapshot. -/
def Holds (editor : Editor (Marks P)) (ns id serial : Nat) : Prop :=
  (∃ m, editor.buffer.extmarks.get ns id = some m ∧ m.serial = serial) ∨
    ∃ (idx : Nat) (node : UndoNode (Marks P)) (m : Extmark P),
      editor.undoTree.nodes[idx]? = some node ∧
        node.data.snap.extmarks.get ns id = some m ∧ m.serial = serial

end UndoMarks

end Bemtvi.Core
