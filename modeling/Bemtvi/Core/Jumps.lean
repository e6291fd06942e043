/-
Module: Bemtvi.Core.Jumps
Purpose: The jump list of a window: jumps from a place, `<C-o>` and `<C-i>` over the list, and edits
  that move its entries.
Trusted boundary: human-reviewed model of bemtvi-core/src/editor/jumps.rs:27-174 and 285-318,
  bemtvi-core/src/editor/cursor.rs:248-361 and bemtvi-core/src/editor/buffers.rs:1698-1732 and
  1948-1957; one ordinary window whose restored list is drained, a buffer that the bottom panel shows
  and the scroll position are left out, and where graphemes start is a parameter
Main exports: JumpEntry, Window, Editor, pushJump, jumpNav, shiftWindowJumps, settleCursorAt, Event,
  step
-/
import Bemtvi.Core.LineEdits
import Mathlib

namespace Bemtvi.Core.Jumps

open Utf8

/-! ### The list -/

/-- `JUMPLIST_SIZE`. -/
def jumplistSize : Nat := 100

/-- `MAX_COUNT`: no count is greater, and each fits an `isize`. -/
def maxCount : Nat := 999999999

/-- One remembered jump position. -/
structure JumpEntry where
  buf : Nat
  line : Nat
  col : Nat
deriving Repr, DecidableEq

/-- What a window keeps of its jumps. -/
structure Window where
  jumps : List JumpEntry
  jumpIdx : Nat
  jumpGen : UInt64
deriving DecidableEq

/-- `push_jump_entry`. -/
def Window.pushJumpEntry (win : Window) (entry : JumpEntry) : Window :=
  let kept := win.jumps.filter fun e => !(e.buf == entry.buf && e.line == entry.line)
  let kept := if kept.length ≥ jumplistSize then kept.drop 1 else kept
  { jumps := kept ++ [entry], jumpIdx := (kept ++ [entry]).length, jumpGen := win.jumpGen + 1 }

/-- The loop of `shift_window_jumps`, from the entry at `i` on; `none` when the pointer would go
below zero. -/
def shiftEntries (jumpIdx buf : Nat) (s oe ne : Point) :
    Nat → Nat → List JumpEntry → Option (List JumpEntry × Nat)
  | _, idx, [] => some ([], idx)
  | i, idx, e :: rest =>
      if e.buf ≠ buf then
        (shiftEntries jumpIdx buf s oe ne (i + 1) idx rest).map fun (kept, idx) => (e :: kept, idx)
      else
        match shiftPoint (e.line, e.col) s oe ne with
        | some place =>
            (shiftEntries jumpIdx buf s oe ne (i + 1) idx rest).map
              fun (kept, idx) => (⟨buf, place.1, place.2⟩ :: kept, idx)
        | none =>
            if i < jumpIdx then
              if idx = 0 then none else shiftEntries jumpIdx buf s oe ne (i + 1) (idx - 1) rest
            else shiftEntries jumpIdx buf s oe ne (i + 1) idx rest

/-- `shift_window_jumps`. -/
def shiftWindowJumps (win : Window) (buf : Nat) (s oe ne : Point) : Option Window :=
  if win.jumps.any (·.buf == buf) then
    (shiftEntries win.jumpIdx buf s oe ne 0 win.jumpIdx win.jumps).map fun (kept, idx) =>
      { jumps := kept, jumpIdx := min idx kept.length, jumpGen := win.jumpGen + 1 }
  else some win

/-! ### The cursor -/

section Cursor

variable {E : Type} [ExtmarkStore E] [Graphemes]

/-- `snap_cursor`. -/
def snapCursor (buffer : Buffer E) (cursor : Point) : Point :=
  (cursor.1, floorGrapheme (buffer.lineCow cursor.1) (min cursor.2 (buffer.lineLen cursor.1)))

/-- `set_cursor_char`: no further than the last character. -/
def setCursorChar (buffer : Buffer E) (idx : Nat) : Point :=
  let idx := size (within buffer.text (min idx (size buffer.text - 1)))
  let line := buffer.byteToLine idx
  snapCursor buffer (line, idx - buffer.lineStart line)

/-- `clamp_cursor`: in Normal mode on a character, past the end in an `i_CTRL-O` one-shot. -/
def clampCursor (buffer : Buffer E) (pastEnd : Bool) (cursor : Point) : Point :=
  let line := min cursor.1 buffer.lastLine
  let len := buffer.lineLen line
  snapCursor buffer (line, min cursor.2 (if pastEnd then len else len - 1))

/-- `settle_cursor_at`. -/
def settleCursorAt (buffer : Buffer E) (pastEnd : Bool) (line col : Nat) : Point :=
  let line := min line buffer.lastLine
  let maxCol := size ((buffer.lineCow line).rdropWhile (· = '\n'))
  let col := min col maxCol
  clampCursor buffer pastEnd (setCursorChar buffer (buffer.byteAt line col))

end Cursor

/-! ### The editor -/

/-- What the jumps of the focused window read and write. -/
structure Editor (E : Type) where
  files : Nat → Option (Buffer E)
  savedCursor : Nat → Point
  /-- Buffers with a buftype: no files. -/
  view : Nat → Bool
  lockedBuffer : Option Nat
  current : Nat
  cursor : Point
  /-- `insert_normal`: an `i_CTRL-O` one-shot is on. -/
  pastEnd : Bool
  window : Window

section Editing

variable {E : Type}

namespace Editor

/-- `refuse_other_buffer`: an editor locked to a file opens no other. -/
def refuseOtherBuffer (editor : Editor E) (id : Nat) : Bool :=
  match editor.lockedBuffer with
  | none => false
  | some locked => !(id == locked || editor.view id)

/-- `switch_buffer`. -/
def switchBuffer (editor : Editor E) (id : Nat) : Editor E :=
  if id = editor.current ∨ (editor.files id).isNone then editor
  else if editor.refuseOtherBuffer id then editor
  else
    { editor with
      savedCursor := Function.update editor.savedCursor editor.current editor.cursor
      current := id
      cursor := Function.update editor.savedCursor editor.current editor.cursor id }

/-- The cursor as a jump entry. -/
def here (editor : Editor E) : JumpEntry := ⟨editor.current, editor.cursor.1, editor.cursor.2⟩

/-- `push_jump`. -/
def pushJump (editor : Editor E) : Editor E :=
  { editor with window := editor.window.pushJumpEntry editor.here }

variable [ExtmarkStore E] [Graphemes]

/-- The cursor settled in the current buffer. -/
def settle (editor : Editor E) (line col : Nat) : Editor E :=
  match editor.files editor.current with
  | some buffer => { editor with cursor := settleCursorAt buffer editor.pastEnd line col }
  | none => editor

/-- `jump_to_entry`. -/
def jumpToEntry (editor : Editor E) (target : JumpEntry) : Editor E :=
  if (editor.files target.buf).isNone then editor
  else
    (if target.buf ≠ editor.current then editor.switchBuffer target.buf else editor).settle
      target.line target.col

/-- `jump_nav`; `none` when it would index past the list. -/
def jumpNav (editor : Editor E) (back : Bool) (count : Nat) : Option (Editor E) :=
  let delta : Int := if back then -(max count 1 : Nat) else (max count 1 : Nat)
  let win := editor.window
  let len : Int := win.jumps.length
  if len = 0 then some editor
  else if win.jumpIdx + delta < 0 ∨ win.jumpIdx + delta ≥ len then some editor
  else
    let stashes := win.jumpIdx = win.jumps.length
    let jumps := if stashes then win.jumps ++ [editor.here] else win.jumps
    let idx : Int := (if stashes then (jumps.length : Int) - 1 else win.jumpIdx) + delta
    if idx < 0 then none
    else
      (jumps[idx.toNat]?).map
        { editor with window := ⟨jumps, idx.toNat, win.jumpGen + 1⟩ }.jumpToEntry

/-- The cursor where it may rest. -/
def clamp (editor : Editor E) : Editor E :=
  match editor.files editor.current with
  | some buffer => { editor with cursor := clampCursor buffer editor.pastEnd editor.cursor }
  | none => editor

end Editor

/-! ### Runs -/

/-- What happens to the window. -/
inductive Event (E : Type) where
  /-- A jump from where the cursor is. -/
  | push
  | back (count : Fin (maxCount + 1))
  | forward (count : Fin (maxCount + 1))
  /-- A plain motion, which may end or start a one-shot. -/
  | moveTo (cursor : Point) (pastEnd : Bool)
  | visit (buf : Nat)
  /-- An edit of a buffer, or its text loaded. -/
  | edit (buf : Nat) (buffer : Buffer E) (s oe ne : Point)
  /-- A buffer wiped that the window does not show. -/
  | wipe (buf : Nat)

variable [ExtmarkStore E] [Graphemes]

/-- One event; `none` when an index or a subtraction goes out of range. -/
def step (editor : Editor E) : Event E → Option (Editor E)
  | .push => some editor.pushJump
  | .back count => editor.jumpNav true count
  | .forward count => editor.jumpNav false count
  | .moveTo cursor pastEnd => some { editor with cursor := cursor, pastEnd := pastEnd }.clamp
  | .visit buf => some (editor.switchBuffer buf).clamp
  | .edit buf buffer s oe ne =>
      (shiftWindowJumps editor.window buf s oe ne).map fun window =>
        { editor with files := Function.update editor.files buf (some buffer), window := window }.clamp
  | .wipe buf =>
      if buf = editor.current then some editor
      else some { editor with files := Function.update editor.files buf none }

end Editing

end Bemtvi.Core.Jumps
