/-
Module: Bemtvi.Core.WrapRows
Purpose: Soft-wrap rows of a line: a walk over its graphemes that breaks before the one that overflows,
  or under 'linebreak' before the last word, with the inline cells placed as their anchors are reached.
Trusted boundary: human-reviewed model of bemtvi-core/src/unicode.rs:240-248, 286-353, 355-496 and
  534-538; the splices are those `Buffer::inline_splices` counts, which are anchored at the columns
  of bytes
Main exports: WrapSeg, WrapOpts, breakPrefix, contIndent, Wrapping, Wrapping.turn, Wrapping.finish,
  wrapSegmentsIndented
-/
import Bemtvi.Core.ColumnsLaws

namespace Bemtvi.Core.Columns

open Utf8 Clusters

/-- `WrapSeg`: the bytes of a row, and the column it begins at. -/
structure WrapSeg where
  startByte : Nat
  endByte : Nat
  startCol : Nat
deriving Repr, DecidableEq

/-- `WrapOpts`, but `eol`. -/
structure WrapOpts where
  linebreak : Bool
  breakindent : Bool
  showbreak : Text
  sbr : Bool

/-- `is_blank`: judged on the first character. -/
def isBlank (g : Text) : Bool := g.head? == some ' ' || g.head? == some '\t'

section Wrap

variable [Segmenter]

/-! ### The continuation prefix -/

/-- `truncate_to_width`, over graphemes, with the cells taken so far. -/
def truncateFrom (tabstop width : Nat) : List Text → Nat → Text
  | [], _ => []
  | g :: rest, w =>
      let gw := graphemeWidth g w tabstop
      if w + gw > width then [] else g ++ truncateFrom tabstop width rest (w + gw)

/-- `break_prefix`. -/
def breakPrefix (line : Text) (tabstop width : Nat) (wo : WrapOpts) : Text × Nat :=
  if width = 0 ∨ (wo.breakindent = false ∧ wo.showbreak = []) then ([], 0)
  else
    let sbrW := Segmenter.width wo.showbreak
    let indent :=
      if wo.breakindent then
        let fnb := size line - size (line.dropWhile fun c => c == ' ' || c == '\t')
        virtcol line fnb tabstop
      else 0
    let bri := if wo.sbr then indent - sbrW else indent
    let total := min (bri + sbrW) (width - 1)
    if total = 0 then ([], 0)
    else
      let marker := truncateFrom tabstop total (Segmenter.graphemes wo.showbreak) 0
      let spaces := List.replicate (total - Segmenter.width marker) ' '
      (if wo.sbr then marker ++ spaces else spaces ++ marker, total)

/-- `cont_indent`. -/
def contIndent (line : Text) (tabstop width : Nat) (wo : WrapOpts) : Nat :=
  (breakPrefix line tabstop width wo).2

/-! ### The walk -/

/-- What the rows are laid out by; the continuation indent leaves a cell already. -/
structure Wrapping where
  tabstop : Nat
  width : Nat
  contIndent : Nat
  linebreak : Bool
  /-- The inline cells: `(anchor column, width)`. -/
  splices : List (Nat × Nat)

/-- Where the walk over the graphemes stands. -/
structure Wrap where
  segs : List WrapSeg
  segStartByte : Nat
  segStartCol : Nat
  col : Nat
  byte : Nat
  wordStart : Option (Nat × Nat)
  afterBlank : Bool
  seenWord : Bool
  nextSplice : Nat
  rowInline : Nat

def Wrap.start : Wrap where
  segs := []
  segStartByte := 0
  segStartCol := 0
  col := 0
  byte := 0
  wordStart := none
  afterBlank := false
  seenWord := false
  nextSplice := 0
  rowInline := 0

/-- The cells of splices. -/
def spliced (splices : List (Nat × Nat)) : Nat := (splices.map (·.2)).sum

namespace Wrapping

/-- The cells of the row that starts at a byte: the first has no prefix. -/
def avail (wrapping : Wrapping) (startByte : Nat) : Nat :=
  if startByte = 0 then wrapping.width else wrapping.width - wrapping.contIndent

/-- The splices the next grapheme is placed behind. -/
def pending (wrapping : Wrapping) (s : Wrap) : List (Nat × Nat) :=
  (wrapping.splices.drop s.nextSplice).takeWhile fun splice => splice.1 ≤ s.col

/-- Whether the next grapheme overflows a row that holds one already. -/
def overflows (wrapping : Wrapping) (s : Wrap) (g : Text) : Bool :=
  decide (s.col + s.rowInline + spliced (wrapping.pending s) +
      graphemeWidth g s.col wrapping.tabstop > s.segStartCol + wrapping.avail s.segStartByte) &&
    decide (s.byte > s.segStartByte)

/-- Where the row is broken: at the edge, or under 'linebreak' before its last word. -/
def breakAt (wrapping : Wrapping) (s : Wrap) : Nat × Nat :=
  match s.wordStart with
  | some ws => if wrapping.linebreak ∧ ws.1 > s.segStartByte then ws else (s.byte, s.col)
  | none => (s.byte, s.col)

/-- The cells that move down with a break. -/
def movedDown (wrapping : Wrapping) (s : Wrap) : Nat :=
  spliced ((wrapping.splices.take s.nextSplice).filter fun splice =>
    splice.1 ≥ (wrapping.breakAt s).2)

/-- The row is broken. -/
def breakRow (wrapping : Wrapping) (s : Wrap) : Wrap :=
  let brk := wrapping.breakAt s
  { s with
    segs := s.segs ++ [⟨s.segStartByte, brk.1, s.segStartCol⟩]
    segStartByte := brk.1
    segStartCol := brk.2
    rowInline := wrapping.movedDown s
    wordStart := none
    seenWord := false }

/-- The bookkeeping of words. -/
def noteWord (s : Wrap) (g : Text) : Wrap :=
  if isBlank g then { s with afterBlank := true }
  else
    { s with
      wordStart := if s.afterBlank && s.seenWord then some (s.byte, s.col) else s.wordStart
      afterBlank := false
      seenWord := true }

/-- One turn of the walk. -/
def turn (wrapping : Wrapping) (s : Wrap) (g : Text) : Wrap :=
  let w := graphemeWidth g s.col wrapping.tabstop
  let pending := wrapping.pending s
  let broken := if wrapping.overflows s g then wrapping.breakRow s else s
  let noted := noteWord broken g
  { noted with
    nextSplice := s.nextSplice + pending.length
    rowInline := noted.rowInline + spliced pending
    col := s.col + w
    byte := s.byte + size g }

/-- The rows behind the walk: splices past the text take one of their own where they must. -/
def finish (wrapping : Wrapping) (len : Nat) (s : Wrap) : List WrapSeg :=
  let pending := spliced (wrapping.splices.drop s.nextSplice)
  if pending > 0 ∧ s.col + s.rowInline + pending > s.segStartCol + wrapping.avail s.segStartByte ∧
      s.byte > s.segStartByte then
    s.segs ++ [⟨s.segStartByte, s.byte, s.segStartCol⟩] ++ [⟨s.byte, len, s.col⟩]
  else s.segs ++ [⟨s.segStartByte, len, s.segStartCol⟩]

end Wrapping

/-- What `wrap_segments_indented` lays rows out by. -/
def wrappingOf (tabstop width contIndent : Nat) (linebreak : Bool) (splices : List (Nat × Nat)) :
    Wrapping where
  tabstop := tabstop
  width := width
  contIndent := min contIndent (width - 1)
  linebreak := linebreak
  splices := splices

/-- `wrap_segments_indented`. -/
def wrapSegmentsIndented (line : Text) (tabstop width contIndent : Nat) (linebreak : Bool)
    (splices : List (Nat × Nat)) : List WrapSeg :=
  if width = 0 then [⟨0, size line, 0⟩]
  else
    let wrapping := wrappingOf tabstop width contIndent linebreak splices
    wrapping.finish (size line) ((Segmenter.graphemes line).foldl wrapping.turn .start)

end Wrap

end Bemtvi.Core.Columns
