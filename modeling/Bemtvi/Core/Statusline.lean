/-
Module: Bemtvi.Core.Statusline
Purpose: The status line: its items expanded into pieces, and the pieces laid out in a width, with the
  columns a click lands on.
Trusted boundary: human-reviewed model of bemtvi-core/src/statusline.rs:510-1013; `parse` and the host's
  `eval` are parameters, and so is the display width of a character
Main exports: expand, flatten, truncate, distributeFill, collectClicks, layoutWithClicks
-/
import Mathlib

namespace Bemtvi.Core.Statusline

/-! ### Items and pieces -/

inductive Field where
  | fileRel
  | fileFull
  | fileTail
  | modified
  | modifiedComma
  | readOnly
  | help
  | fileType
  | bufNr
  | line
  | lineCount
  | col
  | virtCol
  | percentage
  | altPercentage
deriving Repr, DecidableEq

inductive ExprKind where
  | eval
  | evalItems
  | whole
deriving Repr, DecidableEq

inductive ClickAction where
  | handler (handler : List Char) (minwid : Nat)
  | tab (number : Nat)
deriving Repr, DecidableEq

inductive Item where
  | literal (text : List Char)
  | field (field : Field)
  | hlSwitch (group : Option (List Char))
  | align
  | truncate
  | clickStart (action : ClickAction)
  | clickEnd
  | expr (kind : ExprKind) (raw : List Char)
deriving Repr, DecidableEq

/-- What the fields read. -/
structure StatuslineCtx where
  fileRel : List Char
  fileFull : List Char
  fileTail : List Char
  modified : Bool
  modifiable : Bool
  readonly : Bool
  help : Bool
  filetype : List Char
  bufnr : Nat
  line : Nat
  lineCount : Nat
  col : Nat
  virtcol : Nat
  topLine : Nat
  textHeight : Nat

inductive Piece where
  | text (text : List Char) (group : Option (List Char))
  | align
  | truncate
  | clickStart (action : ClickAction)
  | clickEnd
deriving Repr, DecidableEq

/-- The text of a piece. -/
def Piece.chars : Piece → List Char
  | .text written _ => written
  | _ => []

/-! ### Expansion -/

/-- `modified_flag`. -/
def modifiedFlag (ctx : StatuslineCtx) (modified nomod : List Char) : List Char :=
  if ctx.modified then modified else if !ctx.modifiable then nomod else []

/-- `percentage`. -/
def percentage (part whole : Nat) : Nat := part * 100 / whole

/-- `alt_percentage`. -/
def altPercentage (ctx : StatuslineCtx) : List Char :=
  let above := ctx.topLine - 1
  let botLine := ctx.topLine + ctx.textHeight
  let below : Int := (ctx.lineCount : Int) - botLine + 1
  if below ≤ 0 then (if above = 0 then "All" else "Bot").toList
  else if above = 0 then "Top".toList
  else
    let shown := (toString (percentage above (above + below.toNat))).toList ++ ['%']
    List.replicate (3 - shown.length) ' ' ++ shown

/-- `expand_field`. -/
def expandField (field : Field) (ctx : StatuslineCtx) : List Char :=
  match field with
  | .fileRel => ctx.fileRel
  | .fileFull => ctx.fileFull
  | .fileTail => ctx.fileTail
  | .modified => modifiedFlag ctx "[+]".toList "[-]".toList
  | .modifiedComma => modifiedFlag ctx "+".toList "-".toList
  | .readOnly => if ctx.readonly then "[RO]".toList else []
  | .help => if ctx.help then "[Help]".toList else []
  | .fileType => if ctx.filetype = [] then [] else '[' :: ctx.filetype ++ [']']
  | .bufNr => (toString ctx.bufnr).toList
  | .line => (toString ctx.line).toList
  | .lineCount => (toString ctx.lineCount).toList
  | .col => (toString ctx.col).toList
  | .virtCol => (toString ctx.virtcol).toList
  | .percentage => (toString (percentage ctx.line ctx.lineCount)).toList
  | .altPercentage => altPercentage ctx

/-- `MAX_EXPR_DEPTH`. -/
def maxExprDepth : Nat := 16

/-- `MAX_EXPR_EVALS`. -/
def maxExprEvals : Nat := 512

/-- `push_text`. -/
def pushText (out : List Piece) (text : List Char) (group : Option (List Char)) : List Piece :=
  if text = [] then out
  else
    match out.getLast? with
    | some (.text before group') =>
        if group' = group then out.dropLast ++ [.text (before ++ text) group]
        else out ++ [.text text group]
    | _ => out ++ [.text text group]

/-- What an expansion threads along: the group in force, the pieces, the expressions evaluated, and the
host behind `eval`. -/
structure Expansion (σ : Type) where
  group : Option (List Char)
  out : List Piece
  evals : Nat
  host : σ

section
variable {σ : Type}

def Expansion.push (e : Expansion σ) (text : List Char) : Expansion σ :=
  { e with out := pushText e.out text e.group }

/-- `expand_into`. -/
def expandInto (parse : List Char → Except (List Char) (List Item)) (ctx : StatuslineCtx)
    (eval : σ → ExprKind → List Char → σ × List Char) (depth : Nat) (items : List Item)
    (e : Expansion σ) : Expansion σ :=
  match items with
  | [] => e
  | .literal text :: items => expandInto parse ctx eval depth items (e.push text)
  | .field field :: items => expandInto parse ctx eval depth items (e.push (expandField field ctx))
  | .hlSwitch group :: items => expandInto parse ctx eval depth items { e with group }
  | .align :: items => expandInto parse ctx eval depth items { e with out := e.out ++ [.align] }
  | .truncate :: items => expandInto parse ctx eval depth items { e with out := e.out ++ [.truncate] }
  | .clickStart action :: items =>
      expandInto parse ctx eval depth items { e with out := e.out ++ [.clickStart action] }
  | .clickEnd :: items => expandInto parse ctx eval depth items { e with out := e.out ++ [.clickEnd] }
  | .expr kind raw :: items =>
      if maxExprEvals ≤ e.evals then e.push "statusline: too many expressions".toList
      else
        let result := eval e.host kind raw
        let e := { e with evals := e.evals + 1, host := result.1 }
        if kind = .eval then expandInto parse ctx eval depth items (e.push result.2)
        else if maxExprDepth ≤ depth then
          e.push "statusline: %\x7b%…%\x7d / %! results nested too deep".toList
        else
          match parse result.2 with
          | .ok sub =>
              expandInto parse ctx eval depth items (expandInto parse ctx eval (depth + 1) sub e)
          | .error message => expandInto parse ctx eval depth items (e.push message)
termination_by (maxExprDepth - depth, items.length)

/-- `expand`. -/
def expand (parse : List Char → Except (List Char) (List Item)) (ctx : StatuslineCtx)
    (eval : σ → ExprKind → List Char → σ × List Char) (items : List Item) (host : σ) : Expansion σ :=
  expandInto parse ctx eval 0 items ⟨none, [], 0, host⟩

/-- A host that counts how often it is called. -/
def counted (eval : σ → ExprKind → List Char → σ × List Char) (host : σ × Nat) (kind : ExprKind)
    (raw : List Char) : (σ × Nat) × List Char :=
  (((eval host.1 kind raw).1, host.2 + 1), (eval host.1 kind raw).2)

end

/-! ### Cells -/

/-- The display width of characters, at most two; the marks the layout adds are one wide. -/
structure CharWidth where
  width : Char → Nat
  le_two : ∀ c, width c ≤ 2
  fill : width ' ' = 1
  before : width '<' = 1
  behind : width '>' = 1

/-- `Cell`. -/
structure Cell where
  ch : Char
  width : Nat
  group : Option (List Char)
  click : Option Nat
deriving Repr, DecidableEq

/-- The columns of cells. -/
def columns (cells : List Cell) : Nat := (cells.map (·.width)).sum

/-- `Flat`. -/
structure Flat where
  chars : List Cell
  alignPositions : List Nat
  truncPosition : Option Nat
  firstItem : Option Nat
  regions : List ClickAction
deriving Repr, DecidableEq

/-- A line being flattened, with the click region open. -/
structure Flattening where
  flat : Flat
  click : Option Nat

def Flattening.new : Flattening := ⟨⟨[], [], none, none, []⟩, none⟩

/-- A piece. -/
def Flattening.add (w : CharWidth) (f : Flattening) (piece : Piece) : Flattening :=
  let here := f.flat.chars.length
  match piece with
  | .text text group =>
      { f with flat := { f.flat with
          chars := f.flat.chars ++ text.map fun ch => ⟨ch, w.width ch, group, f.click⟩ } }
  | .align =>
      { f with flat := { f.flat with
          firstItem := some (f.flat.firstItem.getD here)
          alignPositions := f.flat.alignPositions ++ [here] } }
  | .truncate =>
      { f with flat := { f.flat with
          firstItem := some (f.flat.firstItem.getD here)
          truncPosition := some (f.flat.truncPosition.getD here) } }
  | .clickStart action =>
      ⟨{ f.flat with regions := f.flat.regions ++ [action] }, some f.flat.regions.length⟩
  | .clickEnd => { f with click := none }

/-- `flatten`. -/
def flatten (w : CharWidth) (pieces : List Piece) : Flat :=
  (pieces.foldl (Flattening.add w) .new).flat

/-! ### The width -/

/-- How many cells fit before the mark, from the columns taken on. -/
def keptCells (width acc : Nat) : List Cell → Nat
  | [] => 0
  | c :: cells =>
      if acc + c.width + 1 > width then 0 else keptCells width (acc + c.width) cells + 1

/-- How many cells go until the line fits, from its columns on. -/
def droppedCells (width total : Nat) : List Cell → Nat
  | [] => 0
  | c :: cells => if total ≥ width then droppedCells width (total - c.width) cells + 1 else 0

/-- `truncate`. -/
def truncate (chars : List Cell) (truncPosition firstItem : Option Nat) (width : Nat) : List Cell :=
  let cut := min ((truncPosition.or firstItem).getD 0) chars.length
  let frontW := columns (chars.take cut)
  if frontW ≥ width then
    let kept := keptCells width 0 chars
    let group := ((chars[kept]?).or chars.getLast?).bind (·.group)
    chars.take kept ++ [⟨'>', 1, group, none⟩]
  else
    let dropEnd := cut + droppedCells width (frontW + columns (chars.drop cut)) (chars.drop cut)
    let group := ((chars[cut]?).or (if cut = 0 then none else chars[cut - 1]?)).bind (·.group)
    chars.take cut ++ [⟨'<', 1, group, none⟩] ++ chars.drop dropEnd

/-- A cell of fill. -/
def blank (group : Option (List Char)) : Cell := ⟨' ', 1, group, none⟩

/-- The fill of the markers at an index, and the markers left. -/
def fillAt (standard final : Nat) (group : Option (List Char)) (idx : Nat) :
    List Nat → List Cell × List Nat
  | [] => ([], [])
  | marker :: markers =>
      if marker = idx then
        let rest := fillAt standard final group idx markers
        (List.replicate (if markers = [] then final else standard) (blank group) ++ rest.1, rest.2)
      else ([], marker :: markers)

/-- The fill of the markers behind the text. -/
def fillEnd (standard final : Nat) (group : Option (List Char)) : List Nat → List Cell
  | [] => []
  | _ :: markers =>
      List.replicate (if markers = [] then final else standard) (blank group) ++
        fillEnd standard final group markers

/-- The loop over the cells; `before` is the cell before. -/
def fillFrom (standard final idx : Nat) (before : Option Cell) (markers : List Nat) :
    List Cell → List Cell
  | [] => fillEnd standard final (before.bind (·.group)) markers
  | c :: cells =>
      let fill := fillAt standard final (before.bind (·.group)) idx markers
      fill.1 ++ c :: fillFrom standard final (idx + 1) (some c) fill.2 cells

/-- `distribute_fill`. -/
def distributeFill (chars : List Cell) (alignPositions : List Nat) (slack : Nat) : List Cell :=
  let n := alignPositions.length
  let standard := slack / n
  fillFrom standard (slack - standard * (n - 1)) 0 none alignPositions chars

/-- `resolve_chars`. -/
def resolveChars (flat : Flat) (width : Nat) : List Cell :=
  let total := columns flat.chars
  if width = 0 then flat.chars
  else if total > width then truncate flat.chars flat.truncPosition flat.firstItem width
  else if total < width ∧ flat.alignPositions ≠ [] then
    distributeFill flat.chars flat.alignPositions (width - total)
  else flat.chars

/-! ### Clicks and segments -/

/-- `ClickRegion`. -/
structure ClickRegion where
  startCol : Nat
  endCol : Nat
  action : ClickAction
deriving Repr, DecidableEq

/-- A region closed, when its action is known. -/
def closeRegion (regions : List ClickAction) (out : List ClickRegion) (idx start stop : Nat) :
    List ClickRegion :=
  match regions[idx]? with
  | some action => out ++ [⟨start, stop, action⟩]
  | none => out

/-- The loop of `collect_clicks`: the regions closed, the column, and the region open with its start. -/
def collectFrom (regions : List ClickAction) (out : List ClickRegion) (col : Nat)
    (cur : Option (Nat × Nat)) : List Cell → List ClickRegion
  | [] =>
      match cur with
      | some (idx, start) => closeRegion regions out idx start col
      | none => out
  | c :: cells =>
      match c.click, cur with
      | some idx, some (curIdx, start) =>
          if idx = curIdx then collectFrom regions out (col + c.width) cur cells
          else
            collectFrom regions (closeRegion regions out curIdx start col) (col + c.width)
              (some (idx, col)) cells
      | some idx, none => collectFrom regions out (col + c.width) (some (idx, col)) cells
      | none, some (curIdx, start) =>
          collectFrom regions (closeRegion regions out curIdx start col) (col + c.width) none cells
      | none, none => collectFrom regions out (col + c.width) none cells

/-- `collect_clicks`. -/
def collectClicks (cells : List Cell) (regions : List ClickAction) : List ClickRegion :=
  collectFrom regions [] 0 none cells

/-- `StatusSegment`. -/
structure StatusSegment where
  text : List Char
  group : Option (List Char)
deriving Repr, DecidableEq

/-- A cell onto the segments. -/
def joinCell (segments : List StatusSegment) (c : Cell) : List StatusSegment :=
  match segments.getLast? with
  | some last =>
      if last.group = c.group then segments.dropLast ++ [{ last with text := last.text ++ [c.ch] }]
      else segments ++ [⟨[c.ch], c.group⟩]
  | none => segments ++ [⟨[c.ch], c.group⟩]

/-- `coalesce`. -/
def coalesce (cells : List Cell) : List StatusSegment := cells.foldl joinCell []

/-- `layout_with_clicks`. -/
def layoutWithClicks (w : CharWidth) (pieces : List Piece) (width : Nat) :
    List StatusSegment × List ClickRegion :=
  let flat := flatten w pieces
  let cells := resolveChars flat width
  (coalesce cells, collectClicks cells flat.regions)

/-- The columns that segments are painted in. -/
def painted (w : CharWidth) (segments : List StatusSegment) : Nat :=
  ((segments.flatMap (·.text)).map w.width).sum

end Bemtvi.Core.Statusline
