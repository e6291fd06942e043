/-
Module: Bemtvi.Core.FoldInputs
Purpose: The per-line inputs of the computed folds, cached and spliced from the fold journal: the span
  a batch of edits folds into, the derivation of each line, and the sync that keeps a spliced
  cache or builds it again.
Trusted boundary: human-reviewed model of buffer.rs:1666-1706 and of
  editor/fold.rs:812-836, 1235-1330, 1382-1443, 1584-1587, 1770-1891; positions in a line are
  counted in characters, and what a `'foldexpr'` evaluates to is a parameter
Main exports: foldEditRows, FoldLines, FoldLines.build, FoldLines.splice, syncFoldInputs,
  SyncEvent, Synced.step
-/
import Bemtvi.Core.Journal
import Bemtvi.Lib.Lines

namespace Bemtvi.Core

open Utf8

/-! ### The rows of a batch -/

/-- One more edit behind a span: `none` when it starts before the span's end. -/
def foldEditRow (span : Nat × Nat × Nat) (edit : BufferEdit) : Option (Nat × Nat × Nat) :=
  let (start, oldEnd, newEnd) := span
  let shift : Int := (newEnd : Int) - oldEnd
  if edit.startPoint.1 < newEnd then none
  else if (edit.oldEndPoint.1 : Int) - shift < 0 then none
  else some (start, ((edit.oldEndPoint.1 : Int) - shift).toNat, edit.newEndPoint.1)

/-- `fold_edit_rows`. -/
def foldEditRows : List BufferEdit → Option (Nat × Nat × Nat)
  | [] => none
  | first :: edits =>
      edits.foldlM foldEditRow (first.startPoint.1, first.oldEndPoint.1, first.newEndPoint.1)

/-! ### What a line gives -/

/-- The columns of the blanks a line starts with, from a column on. -/
def leadingColumns (tabstop : Nat) : Nat → Text → Nat
  | cols, ' ' :: line => leadingColumns tabstop (cols + 1) line
  | cols, '\t' :: line => leadingColumns tabstop (cols + (tabstop - cols % tabstop)) line
  | cols, _ => cols

/-- `indent_cols_of`. -/
def indentColsOf (line : Text) (tabstop : Nat) : Option Nat :=
  if line.all isWhitespace then none else some (leadingColumns tabstop 0 line)

/-- `match_indices`, from a position on and behind a match that is still to be skipped. -/
def matchIndices (pattern : Text) : Nat → Nat → Text → List Nat
  | _, pos, [] => if pattern = [] then [pos] else []
  | skip + 1, pos, _ :: line => matchIndices pattern skip (pos + 1) line
  | 0, pos, c :: line =>
      if pattern.isPrefixOf (c :: line) then
        pos :: matchIndices pattern (pattern.length - 1) (pos + 1) line
      else matchIndices pattern 0 (pos + 1) line

/-- `leading_number`: a number past a `usize` is none. -/
def leadingNumber (text : Text) : Option Nat :=
  let digits := text.takeWhile Char.isDigit
  let value := digits.foldl (fun n c => 10 * n + (c.toNat - '0'.toNat)) 0
  if digits = [] ∨ 2 ^ 64 ≤ value then none else some value

/-- Whether a marker opens, and the number behind it. -/
abbrev MarkerTok := Bool × Option Nat

/-- `marker_toks_of`. -/
def markerToksOf (line start stop : Text) : Option (List MarkerTok) :=
  let markers := (matchIndices start 0 0 line).map (fun pos => (pos, true)) ++
    (matchIndices stop 0 0 line).map fun pos => (pos, false)
  if markers = [] then none
  else
    some ((markers.insertionSort fun a b => a.1 ≤ b.1).map fun (pos, isOpen) =>
      let after := pos + if isOpen then start.length else stop.length
      (isOpen, leadingNumber (line.drop after)))

/-! ### The cache -/

inductive FoldInputParams where
  | indent (tabstop : Nat)
  | marker (start stop : Text)
  | expr (expr : Text)
deriving Repr, DecidableEq

inductive FoldLines where
  | indent (cols : List (Option Nat))
  | marker (toks : List (Option (List MarkerTok)))
  | expr (values : List (Option Text))
deriving Repr, DecidableEq

/-- `Vec::splice`. -/
def spliceRows {α : Type} (rows : List α) (start oldEnd : Nat) (fresh : List α) : List α :=
  rows.take start ++ fresh ++ rows.drop oldEnd

namespace FoldLines

def len : FoldLines → Nat
  | indent cols => cols.length
  | marker toks => toks.length
  | expr values => values.length

variable {E : Type}

/-- `splice`; a cache of another kind than the parameters is left alone. -/
def splice (cached : FoldLines) (buffer : Buffer E) (params : FoldInputParams)
    (start oldEnd newEnd : Nat) : FoldLines :=
  let rows := List.range' start (newEnd - start)
  match cached, params with
  | indent cols, .indent tabstop =>
      indent (spliceRows cols start oldEnd
        (rows.map fun i => indentColsOf (buffer.lineCow i) tabstop))
  | marker toks, .marker open_ close =>
      marker (spliceRows toks start oldEnd
        (rows.map fun i => markerToksOf (buffer.lineCow i) open_ close))
  | expr values, .expr _ => expr (spliceRows values start oldEnd (rows.map fun _ => none))
  | cached, _ => cached

def build (buffer : Buffer E) : FoldInputParams → FoldLines
  | .indent tabstop => indent (buffer.iterLines.map fun line => indentColsOf line tabstop)
  | .marker open_ close => marker (buffer.iterLines.map fun line => markerToksOf line open_ close)
  | .expr _ => expr (List.replicate buffer.lineCount none)

end FoldLines

structure FoldInputs where
  tick : Nat
  params : FoldInputParams
  lines : FoldLines
deriving Repr, DecidableEq

section Sync

variable {E : Type} [ExtmarkStore E]

omit [ExtmarkStore E] in
/-- The cache, spliced from a batch, when the sync keeps it. -/
def keptLines (buffer : Buffer E) (batch : EditBatch) (cached : FoldInputs)
    (params : FoldInputParams) : Option FoldLines :=
  if cached.params = params ∧ batch.resync = false then
    match foldEditRows batch.edits with
    | some (start, oldEnd, newEnd) =>
        if cached.lines.len < start ∨ cached.lines.len < oldEnd then none
        else
          let spliced := cached.lines.splice buffer params start
            (min (oldEnd + 1) cached.lines.len) (newEnd + 1)
          if spliced.len = buffer.lineCount then some spliced else none
    | none => none
  else none

omit [ExtmarkStore E] in
/-- `sync_fold_inputs`: the buffer with its fold journal drained, and the cache. -/
def syncFoldInputs (buffer : Buffer E) (inputs : Option FoldInputs) (params : FoldInputParams) :
    Buffer E × FoldInputs :=
  let (batch, drained) := buffer.takeFoldEdits
  let rebuilt := fun lines : Option FoldLines =>
    FoldInputs.mk buffer.changedtick params (lines.getD (FoldLines.build buffer params))
  match inputs with
  | none => (drained, rebuilt none)
  | some cached =>
      if cached.params = params ∧ batch.resync = false ∧ cached.tick = buffer.changedtick ∧
          batch.edits = [] then (drained, cached)
      else (drained, rebuilt (keptLines buffer batch cached params))

/-! ### Runs -/

inductive SyncEvent where
  | buffer (event : Journal.Event)
  | sync (params : FoldInputParams)
  /-- `adjust_manual_folds`, which drains the journal too. -/
  | adjustManual
  /-- `fill_foldexpr_holes`: the value of each row that has none. -/
  | fill (values : Nat → Option Text)

/-- A buffer, the text the fold journal starts from, and the cache. -/
structure Synced (E : Type) where
  watched : Journal.Watched E
  inputs : Option FoldInputs

namespace Synced

/-- Evaluate the rows of a cache that have no value. -/
def fillHoles (values : Nat → Option Text) : FoldLines → FoldLines
  | .expr cached => .expr (cached.mapIdx fun i value => value.or (values i))
  | lines => lines

def step (synced : Synced E) : SyncEvent → Option (Synced E)
  | .buffer (.take .fold) => none
  | .buffer event =>
      (synced.watched.step event).map fun watched => { synced with watched := watched }
  | .sync params =>
      let (_, inputs) := syncFoldInputs synced.watched.buffer synced.inputs params
      (synced.watched.step (.take .fold)).map fun watched =>
        { watched := watched, inputs := some inputs }
  | .adjustManual =>
      let batch := synced.watched.buffer.foldEdits
      let inputs := if batch.edits = [] ∧ batch.resync = false then synced.inputs else none
      (synced.watched.step (.take .fold)).map fun watched =>
        { watched := watched, inputs := inputs }
  | .fill values =>
      some { synced with
        inputs := synced.inputs.map fun inputs =>
          { inputs with lines := fillHoles values inputs.lines } }

end Synced

end Sync

end Bemtvi.Core
