/-
Module: Bemtvi.Core.Fold
Purpose: A window's folds: the operations on them, the two readings of them (the fold that
  collapses a line, and the regions a frame collapses), and the motions that go by them.
Trusted boundary: human-reviewed model of editor/fold.rs:17-40, 136-535, 564-611 and the adjusting of
  fold.rs:846-871, as a release build computes; the ranges of a computed source, the span of a diff
  and the line count are parameters, `end - start + 1` of a fold over a line is taken to fit a
  `usize`, and the cache key, which no modelled function reads, is left out
Main exports: Fold, FoldState, collapsingAt, collapsedRegions, foldLineStart, lineBelowFolds,
  lineAboveFolds, FoldEvent, FoldState.step
-/
import Bemtvi.Core.Buffer
import Bemtvi.Lib.Run

namespace Bemtvi.Core

structure Fold where
  start : Nat
  end_ : Nat
  closed : Bool
deriving Repr, DecidableEq

namespace Fold

def contains (fold : Fold) (line : Nat) : Bool := fold.start ≤ line && line ≤ fold.end_

def lineCount (fold : Fold) : Nat := fold.end_ - fold.start + 1

def sameRange (a b : Fold) : Bool := a.start == b.start && a.end_ == b.end_

/-- The order of `sort`: by start, and the wider first. -/
def le (a b : Fold) : Bool :=
  a.start < b.start || (a.start == b.start && b.end_ ≤ a.end_)

end Fold

/-- `max_by_key(line_count)`: of several widest, the last. -/
@[grind =]
def widest : List Fold → Option Fold
  | [] => none
  | fold :: folds =>
      match widest folds with
      | none => some fold
      | some best => if best.lineCount < fold.lineCount then some fold else some best

/-- `min_by_key(line_count)` over the indices of what `keep` keeps: of several narrowest, the
first. -/
def narrowest (keep : Fold → Bool) : Nat → List Fold → Option (Nat × Fold)
  | _, [] => none
  | index, fold :: folds =>
      let later := narrowest keep (index + 1) folds
      if keep fold then
        match later with
        | none => some (index, fold)
        | some (at_, best) =>
            if best.lineCount < fold.lineCount then some (at_, best) else some (index, fold)
      else later

/-! ### Edits, as lines -/

inductive LineOp where
  /-- `n` lines inserted behind line `after`, `-1` above the first. -/
  | insert (after : Int) (n : Nat)
  /-- `n` lines deleted from `first` on. -/
  | delete (first n : Nat)
deriving Repr, DecidableEq

/-- The lines an edit inserts or deletes; `none` when it keeps their number. -/
def lineOp (edit : BufferEdit) : Option LineOp :=
  let removed := edit.oldEndPoint.1 - edit.startPoint.1
  let added := edit.newEndPoint.1 - edit.startPoint.1
  let atLineStart := edit.startPoint.2 = 0
  if removed < added then
    some (.insert (if atLineStart then (edit.startPoint.1 : Int) - 1 else edit.startPoint.1)
      (added - removed))
  else if added < removed then
    some (.delete (if atLineStart then edit.startPoint.1 else edit.startPoint.1 + 1)
      (removed - added))
  else none

/-- The line ops of a run of lines that changed: `[first, oldEnd)` became `[first, newEnd)`. -/
def lineOpsForSpan (first oldEnd newEnd : Nat) : List LineOp :=
  let removed := oldEnd - first
  let added := newEnd - first
  if removed < added then [.insert ((oldEnd : Int) - 1) (added - removed)]
  else if added < removed then [.delete (first + added) (removed - added)]
  else []

/-- `usize` addition and subtraction, which wrap around. -/
def wrapAdd (a b : Nat) : Nat := (a + b) % 2 ^ 64

def wrapSub (a b : Nat) : Nat := (a + 2 ^ 64 - b) % 2 ^ 64

/-- `as isize`. -/
def asIsize (a : Nat) : Int := if a < 2 ^ 63 then a else (a : Int) - 2 ^ 64

/-- One fold under one line op; deleted or left with less than two lines it is inverted, and a later
op of the batch can then take its end below zero. -/
def Fold.adjust (op : LineOp) (fold : Fold) : Fold :=
  match op with
  | .insert after n =>
      { fold with
        start := if after < asIsize fold.start then wrapAdd fold.start n else fold.start
        end_ := if after < asIsize fold.end_ then wrapAdd fold.end_ n else fold.end_ }
  | .delete first n =>
      let last := first + n - 1
      if fold.end_ < first then fold
      else if last < fold.start then
        { fold with start := wrapSub fold.start n, end_ := wrapSub fold.end_ n }
      else
        let start := min fold.start first
        let end_ :=
          if last < fold.end_ then some (fold.end_ - n)
          else if first = 0 then none
          else some (first - 1)
        match end_ with
        | some e =>
            if start < e then { fold with start := start, end_ := e }
            else { fold with start := 1, end_ := 0 }
        | none => { fold with start := 1, end_ := 0 }

/-! ### The fold set -/

structure FoldState where
  folds : List Fold
deriving Repr, DecidableEq

namespace FoldState

def empty : FoldState where
  folds := []

/-- The stable sort of `sort`. -/
def sort (state : FoldState) : FoldState where
  folds := state.folds.insertionSort fun a b => a.le b = true

def restore (_ : FoldState) (folds : List (Nat × Nat × Bool)) : FoldState :=
  sort ⟨(folds.filter fun (start, e, _) => start < e).map fun (start, e, closed) =>
    ⟨start, e, closed⟩⟩

/-- Set the `closed` flag of the first fold that satisfies `keep`. -/
def closeFirst (keep : Fold → Bool) : List Fold → List Fold
  | [] => []
  | fold :: folds =>
      if keep fold then { fold with closed := true } :: folds else fold :: closeFirst keep folds

def create (state : FoldState) (start e : Nat) : FoldState × Bool :=
  if e ≤ start then (state, false)
  else if state.folds.any fun fold => fold.start == start && fold.end_ == e then
    (⟨closeFirst (fun fold => fold.start == start && fold.end_ == e) state.folds⟩, true)
  else (sort ⟨state.folds ++ [⟨start, e, true⟩]⟩, true)

def innermostAt (state : FoldState) (line : Nat) : Option Nat :=
  (narrowest (·.contains line) 0 state.folds).map Prod.fst

/-- The fold that collapses a line: the widest closed one over it. -/
def collapsingAt (state : FoldState) (line : Nat) : Option Fold :=
  widest (state.folds.filter fun fold => fold.closed && fold.contains line)

/-- The sweep of `collapsed_regions` over closed folds: the regions so far and the end of the last
one. -/
def sweepStep (lineCount : Nat) (swept : List Fold × Option Nat) (fold : Fold) :
    List Fold × Option Nat :=
  let e := min fold.end_ (lineCount - 1)
  if lineCount ≤ fold.start then swept
  else if swept.2.any (fold.start ≤ ·) then swept
  else if e ≤ fold.start then swept
  else (swept.1 ++ [⟨fold.start, e, true⟩], some e)

/-- The regions a frame collapses. -/
def collapsedRegions (state : FoldState) (lineCount : Nat) : List Fold :=
  ((state.folds.filter (·.closed)).foldl (sweepStep lineCount) ([], none)).1

def openOne (state : FoldState) (line : Nat) : FoldState × Bool :=
  match state.collapsingAt line with
  | none => (state, false)
  | some target =>
      (⟨state.folds.map fun fold =>
        if fold.sameRange target then { fold with closed := false } else fold⟩, true)

def closeOne (state : FoldState) (line : Nat) : FoldState × Option Nat :=
  match narrowest (fun fold => !fold.closed && fold.contains line) 0 state.folds with
  | none => (state, none)
  | some (index, fold) =>
      (⟨state.folds.set index { fold with closed := true }⟩, some fold.start)

def openRecursive (state : FoldState) (line : Nat) : FoldState where
  folds := state.folds.map fun fold =>
    if fold.contains line then { fold with closed := false } else fold

def closeRecursive (state : FoldState) (line : Nat) : FoldState × Option Nat :=
  (⟨state.folds.map fun fold =>
      if fold.contains line then { fold with closed := true } else fold⟩,
    ((state.folds.filter (·.contains line)).map (·.start)).min?)

def openAll (state : FoldState) : FoldState where
  folds := state.folds.map fun fold => { fold with closed := false }

def closeAll (state : FoldState) : FoldState where
  folds := state.folds.map fun fold => { fold with closed := true }

def deleteAt (state : FoldState) (line : Nat) : FoldState × Bool :=
  match state.innermostAt line with
  | some index => (⟨state.folds.eraseIdx index⟩, true)
  | none => (state, false)

def deleteAll (_ : FoldState) : FoldState := empty

/-- One more than the number of folds that strictly contain the fold. -/
def levelAt (state : FoldState) (fold : Fold) : Nat :=
  1 + (state.folds.filter fun other =>
    other.start ≤ fold.start && fold.end_ ≤ other.end_ && !other.sameRange fold).length

def rebuildComputed (state : FoldState) (ranges : List (Nat × Nat × Nat)) (foldlevel : Nat) :
    FoldState :=
  sort ⟨ranges.map fun (start, e, level) =>
    { start := start
      end_ := e
      closed :=
        match state.folds.find? fun old => old.start == start && old.end_ == e with
        | some old => old.closed
        | none => foldlevel < level }⟩

def applyFoldlevel (state : FoldState) (foldlevel : Nat) : FoldState where
  folds := state.folds.map fun fold => { fold with closed := foldlevel < state.levelAt fold }

/-- Carry manual folds across the edits of a batch: adjust, drop what is gone or past the end, sort
and keep one fold of each range. -/
def adjust (state : FoldState) (ops : List LineOp) (lineCount : Nat) : FoldState :=
  if state.folds = [] then state
  else
    let adjusted := ops.foldl (fun folds op => folds.map (Fold.adjust op)) state.folds
    let kept := adjusted.filter fun fold => fold.end_ < lineCount && fold.start < fold.end_
    ⟨(sort ⟨kept⟩).folds.destutter fun a b => ¬ a.sameRange b⟩

/-! ### Motions -/

def collapsingFoldAt (state : FoldState) (foldenable : Bool) (line : Nat) : Option Fold :=
  if foldenable then state.collapsingAt line else none

def foldLineStart (state : FoldState) (foldenable : Bool) (line : Nat) : Nat :=
  match state.collapsingFoldAt foldenable line with
  | some fold => fold.start
  | none => line

def foldLineEnd (state : FoldState) (foldenable : Bool) (line : Nat) : Nat :=
  match state.collapsingFoldAt foldenable line with
  | some fold => fold.end_
  | none => line

/-- The loop of `line_below_folds`. -/
def stepsBelow (state : FoldState) (foldenable : Bool) (last : Nat) : Nat → Nat → Nat
  | line, 0 => line
  | line, count + 1 =>
      let e := state.foldLineEnd foldenable line
      if last ≤ e then line
      else stepsBelow state foldenable last (state.foldLineStart foldenable (e + 1)) count

def lineBelowFolds (state : FoldState) (foldenable : Bool) (last line count : Nat) : Nat :=
  state.stepsBelow foldenable last (state.foldLineStart foldenable line) count

/-- The loop of `line_above_folds`. -/
def stepsAbove (state : FoldState) (foldenable : Bool) : Nat → Nat → Nat
  | line, 0 => line
  | line, count + 1 =>
      if line = 0 then line
      else stepsAbove state foldenable (state.foldLineStart foldenable (line - 1)) count

def lineAboveFolds (state : FoldState) (foldenable : Bool) (line count : Nat) : Nat :=
  state.stepsAbove foldenable (state.foldLineStart foldenable line) count

end FoldState

/-! ### Runs -/

/-- What manual folds are adjusted for: the recorded edits, or the span a diff found. -/
inductive FoldBatch where
  | edits (recorded : List BufferEdit)
  | span (changed : Option (Nat × Nat × Nat))

def FoldBatch.ops : FoldBatch → List LineOp
  | .edits recorded => recorded.filterMap lineOp
  | .span none => []
  | .span (some (first, oldEnd, newEnd)) => lineOpsForSpan first oldEnd newEnd

inductive FoldEvent where
  | create (start e : Nat)
  | restore (folds : List (Nat × Nat × Bool))
  | deleteAt (line : Nat)
  | deleteAll
  | openOne (line : Nat)
  | closeOne (line : Nat)
  | openRecursive (line : Nat)
  | closeRecursive (line : Nat)
  | openAll
  | closeAll
  | applyFoldlevel (foldlevel : Nat)
  | rebuildComputed (ranges : List (Nat × Nat × Nat)) (foldlevel : Nat)
  | adjust (batch : FoldBatch) (lineCount : Nat)

def FoldState.step (state : FoldState) : FoldEvent → FoldState
  | .create start e => (state.create start e).1
  | .restore folds => state.restore folds
  | .deleteAt line => (state.deleteAt line).1
  | .deleteAll => state.deleteAll
  | .openOne line => (state.openOne line).1
  | .closeOne line => (state.closeOne line).1
  | .openRecursive line => state.openRecursive line
  | .closeRecursive line => (state.closeRecursive line).1
  | .openAll => state.openAll
  | .closeAll => state.closeAll
  | .applyFoldlevel foldlevel => state.applyFoldlevel foldlevel
  | .rebuildComputed ranges foldlevel => state.rebuildComputed ranges foldlevel
  | .adjust batch lineCount => state.adjust batch.ops lineCount

end Bemtvi.Core
