/-
Module: Bemtvi.Lsp.TextEdits
Purpose: Text edits of a language server on a buffer.  The ranges address the document; the edit that
  owns the document's tail is widened over the rope's phantom newline, and says what becomes of
  `'endofline'`; the edits then go into the rope from the last to the first.
Trusted boundary: human-reviewed model of bemtvi-server/src/lsp/mod.rs:991-1061 and edit.rs:76-84 and
  of bemtvi-core/src/editor/buffers.rs:2879-2993; the undo step and the cursor are left out
Main exports: TextEdit, byteEdits, tailOf, lspEditsToByteEdits, applyEdit, applyEditsTo,
  applyTextEdits
-/
import Bemtvi.Core.Journal
import Bemtvi.Lib.Edits
import Bemtvi.Lsp.Position

namespace Bemtvi.Lsp

open Utf8
open Bemtvi.Core (Buffer ExtmarkStore)
open Bemtvi.Core.Journal (charBefore charAt)

structure TextEdit where
  range : Range
  newText : Text
deriving Repr, DecidableEq

/-! ### The edits in bytes -/

section Convert

variable {E : Type}

def byteEdits (buffer : Buffer E) (edits : List TextEdit) (encoding : PositionEncoding) :
    List Edit :=
  edits.map fun edit =>
    let (start, stop) := lspRangeToBytesIn buffer edit.range encoding
    ⟨start, stop, edit.newText⟩

/-- The key of an edit and its place in the list: its end, its start, the place. -/
def tailLe (a b : Edit × Nat) : Prop :=
  a.1.stop < b.1.stop ∨ (a.1.stop = b.1.stop ∧
    (a.1.start < b.1.start ∨ (a.1.start = b.1.start ∧ a.2 ≤ b.2)))

instance : DecidableRel tailLe := fun _ _ => inferInstanceAs (Decidable (_ ∨ _))

/-- One turn of `max_by_key`: an entry no smaller takes the place of the best. -/
def pickTail : Option (Edit × Nat) → Edit × Nat → Option (Edit × Nat)
  | none, entry => some entry
  | some best, entry => if tailLe best entry then some entry else some best

/-- The edit reaching the document's end that starts latest. -/
def tailOf (docLen : Nat) (edits : List Edit) : Option (Edit × Nat) :=
  (edits.zipIdx.filter fun entry => entry.1.stop ≥ docLen).foldl pickTail none

/-- `lsp_edits_to_byte_edits`. -/
def lspEditsToByteEdits (buffer : Buffer E) (edits : List TextEdit) (encoding : PositionEncoding) :
    List Edit × Option Bool :=
  let out := byteEdits buffer edits encoding
  match tailOf buffer.documentLenBytes out with
  | none => (out, none)
  | some (tail, i) =>
      let endsWithNewline :=
        if tail.new.isEmpty then
          0 < tail.start && charAt buffer.text (tail.start - 1) == some '\n'
        else tail.new.getLast? == some '\n'
      (out.modify i (Edit.widen (size buffer.text)), some endsWithNewline)

end Convert

/-! ### Into the rope -/

variable {E : Type} [ExtmarkStore E]

/-- One turn of the loop of `apply_edits_to`. -/
def applyEdit (buffer : Buffer E) (edit : Edit) : Option (Buffer E) :=
  let len := size buffer.text
  let start := snapDown buffer.text (min edit.start len)
  let stop := snapDown buffer.text (min edit.stop len)
  (if start < stop then buffer.remove start stop else some buffer).bind fun buffer =>
    if edit.new.isEmpty then some buffer else buffer.insert start edit.new

/-- `apply_edits_to`. -/
def applyEditsTo (buffer : Buffer E) (edits : List Edit) : Option (Buffer E) :=
  if edits.isEmpty then some buffer
  else ((lastFirst edits).foldlM applyEdit buffer).bind Buffer.normalize

omit [ExtmarkStore E] in
/-- `set_endofline`: nothing when no edit reached the document's end. -/
def setEndofline (buffer : Buffer E) : Option Bool → Buffer E
  | none => buffer
  | some eol => { buffer with options := { buffer.options with endofline := eol } }

/-- A server's edits on a buffer. -/
def applyTextEdits (buffer : Buffer E) (edits : List TextEdit) (encoding : PositionEncoding) :
    Option (Buffer E) :=
  let (edits, endofline) := lspEditsToByteEdits buffer edits encoding
  (applyEditsTo buffer edits).map (setEndofline · endofline)

end Bemtvi.Lsp
