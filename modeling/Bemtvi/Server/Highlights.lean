/-
Module: Bemtvi.Server.Highlights
Purpose: Highlights of a row: the frame's index of the marks that reach its rows, the marks of it that
  overlap a row, clipped to the row, and the sweep that resolves overlapping intervals into segments.
Trusted boundary: human-reviewed model of bemtvi-server/src/extmarks.rs:44-94, 142-261 and 1135-1180;
  ranks and orders are below 2^32, and of a `RowSeg` only its line is there
Main exports: HlInterval, mergeIntervals, viewportByteRange, Highlight, ranked, HlMarkIndex, build,
  overlapping, clip, extmarkIntervals
-/
import Bemtvi.Core.ExtmarksLaws
import Bemtvi.Core.UndoTree
import Bemtvi.Lib.Sweep

namespace Bemtvi.Server.Highlights

open Utf8 Bemtvi.Core Bemtvi.Core.Extmarks
open Sorted (partitionPoint)
open Picks (maxByKey)
open Sweep (Segment sweep windows)

/-! ### Intervals -/

/-- `HlInterval`; `stop` is its `end`. -/
structure HlInterval where
  start : Nat
  stop : Nat
  group : Text
  priority : Nat
  order : Nat
  capture : Bool
deriving Repr, DecidableEq

namespace HlInterval

/-- What decides between overlapping intervals. -/
def key (iv : HlInterval) : Nat ×ₗ Nat := toLex (iv.priority, iv.order)

/-- Whether an interval covers a window. -/
def spans (iv : HlInterval) (p q : Nat) : Bool := decide (iv.start ≤ p) && decide (iv.stop ≥ q)

/-- What an interval paints with. -/
def paint (iv : HlInterval) : Text × Bool := (iv.group, iv.capture)

end HlInterval

/-- The boundary points. -/
def points (intervals : List HlInterval) : List Nat :=
  ((intervals.flatMap fun iv => [iv.start, iv.stop]).insertionSort (· ≤ ·)).dedup

/-- The interval that paints a window: of several greatest the last. -/
def winner (intervals : List HlInterval) (p q : Nat) : Option HlInterval :=
  maxByKey (fun a b => decide (a < b)) HlInterval.key
    (intervals.filter fun iv => iv.spans p q)

/-- `merge_intervals`. -/
def mergeIntervals (intervals : List HlInterval) : List (Segment (Text × Bool)) :=
  if intervals.isEmpty then []
  else sweep (fun p q => (winner intervals p q).map HlInterval.paint) (windows (points intervals)) []

/-! ### The viewport -/

/-- `RowSeg`: the line it shows, from 1. -/
structure RowSeg where
  line : Option Nat

/-- The first and the last line of rows, with one more row. -/
def widen (seen : Option (Nat × Nat)) (seg : RowSeg) : Option (Nat × Nat) :=
  match seg.line with
  | none => seen
  | some n =>
      match seen with
      | none => some (n - 1, n - 1)
      | some (first, last) => some (min first (n - 1), max last (n - 1))

/-- The highlight of a mark. -/
structure Highlight where
  hlGroup : Option Text
  priority : Nat
deriving Repr, DecidableEq

/-- A buffer whose marks carry highlights. -/
abbrev MarkedBuffer := Buffer (Extmarks.ExtmarkStore Highlight)

/-- `viewport_byte_range`. -/
def viewportByteRange (buf : MarkedBuffer) (segs : List RowSeg) : Option (Nat × Nat) :=
  (segs.foldl widen none).map fun (first, last) =>
    (lineStart buf.text first,
      if last + 1 < buf.lineCount then lineStart buf.text (last + 1) else size buf.text)

/-! ### The index -/

/-- A mark of the index: its place in the layering order, its range, and itself. -/
structure IndexedMark where
  order : Nat
  start : Nat
  stop : Nat
  mark : Extmark Highlight

/-- The layering order: by namespace, then id. -/
def layerLe (a b : Nat × Extmark Highlight) : Prop :=
  a.1 < b.1 ∨ (a.1 = b.1 ∧ a.2.id ≤ b.2.id)

instance : DecidableRel layerLe := fun _ _ => inferInstanceAs (Decidable (_ ∨ _))

/-- By start, then the layering order. -/
def startLe (a b : IndexedMark) : Prop :=
  a.start < b.start ∨ (a.start = b.start ∧ a.order ≤ b.order)

instance : DecidableRel startLe := fun _ _ => inferInstanceAs (Decidable (_ ∨ _))

/-- Marks with their places in the layering order, by start. -/
def ranked (found : List (Nat × Extmark Highlight)) : List IndexedMark :=
  ((found.insertionSort layerLe).zipIdx.map fun entry =>
    { order := entry.2
      start := entry.1.2.start
      stop := entry.1.2.stop.getD entry.1.2.start
      mark := entry.1.2 }).insertionSort startLe

/-- The largest so far. -/
def runningMax (running : Nat) : List Nat → List Nat
  | [] => []
  | stop :: stops => max running stop :: runningMax (max running stop) stops

structure HlMarkIndex where
  marks : List IndexedMark
  maxEnd : List Nat

namespace HlMarkIndex

/-- The index of marks by start. -/
def ofMarks (marks : List IndexedMark) : HlMarkIndex where
  marks := marks
  maxEnd := runningMax 0 (marks.map IndexedMark.stop)

/-- `build`: of the marks that reach the rows, those that paint. -/
def build (buf : MarkedBuffer) (segs : List RowSeg) : Option HlMarkIndex :=
  match viewportByteRange buf segs with
  | none => some ⟨[], []⟩
  | some (lo, hi) =>
      (buf.extmarks.reaching lo hi).1.map fun reaching =>
        ofMarks (ranked (reaching.filter fun found =>
          found.2.payload.hlGroup.isSome && found.2.stop.any fun stop => decide (stop > lo)))

/-- The walk back from a place; `none` where it leaves the index. -/
def walkBack (index : HlMarkIndex) (lo : Nat) : Nat → List (Nat × Extmark Highlight) →
    Option (List (Nat × Extmark Highlight))
  | 0, out => some out
  | i + 1, out => do
      let reach ← index.maxEnd[i]?
      if reach ≤ lo then some out
      else
        let found ← index.marks[i]?
        walkBack index lo i (if found.stop > lo then out ++ [(found.order, found.mark)] else out)

/-- `overlapping`. -/
def overlapping (index : HlMarkIndex) (lo hi : Nat) : Option (List (Nat × Extmark Highlight)) :=
  (index.walkBack lo (partitionPoint index.marks fun found => decide (found.start < hi)) []).map
    List.reverse

end HlMarkIndex

/-! ### The intervals of a row -/

/-- A mark's range clipped to a row; none without a group or a range, or where none of it is left. -/
def clip (lineStart lineEnd : Nat) (m : Extmark Highlight) (order : Nat) : Option HlInterval := do
  let group ← m.payload.hlGroup
  let stop := min (← m.stop) lineEnd
  let start := max m.start lineStart
  if start < stop then
    some
      { start := start - lineStart
        stop := stop - lineStart
        group := group
        priority := m.payload.priority
        order := order
        capture := false }
  else none

/-- `extmark_intervals`. -/
def extmarkIntervals (index : HlMarkIndex) (lineStart lineLen baseOrder : Nat) :
    Option (List HlInterval) :=
  (index.overlapping lineStart (lineStart + lineLen)).map fun found =>
    found.filterMap fun entry => clip lineStart (lineStart + lineLen) entry.2 (baseOrder + entry.1)

end Bemtvi.Server.Highlights
