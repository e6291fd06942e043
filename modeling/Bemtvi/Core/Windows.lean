/-
Module: Bemtvi.Core.Windows
Purpose: The tiled windows: a tree of splits laid out in a rectangle, the cells of each split shared out
  by weights, and the resizing of a window at the cost of a neighbour.
Trusted boundary: human-reviewed model of bemtvi-core/src/editor/windows.rs:461-472, 934-1053 and
  1107-1176; a word has 64 bits and an operation that leaves it is `none`; a split has a child, and
  `children` and `sizes` are one list
Main exports: SplitDir, Node, Children, Separator, distribute, layoutNode, adjustSizes,
  resizeToward
-/
import Bemtvi.Core.Floats
import Bemtvi.Lib.Shares

namespace Bemtvi.Core.Windows

open Word Floats

/-- How a split arranges its children. -/
inductive SplitDir where
  /-- Top to bottom. -/
  | horizontal
  /-- Left to right. -/
  | vertical
deriving Repr, DecidableEq

mutual

/-- A window, or a split of its area among children. -/
inductive Node where
  | leaf (id : Nat)
  | split (dir : SplitDir) (children : Children)

/-- The children of a split, each with its entry of `sizes`. -/
inductive Children where
  | last (child : Node) (size : Nat)
  | more (child : Node) (size : Nat) (rest : Children)

end

/-- The border between two children of a split. -/
structure Separator where
  vertical : Bool
  x : Nat
  y : Nat
  length : Nat
deriving Repr, DecidableEq

namespace Children

/-- `children.len()`. -/
def length : Children → Nat
  | last _ _ => 1
  | more _ _ rest => rest.length + 1

/-- `sizes`. -/
def sizes : Children → List Nat
  | last _ size => [size]
  | more _ size rest => size :: rest.sizes

/-- The children with other `sizes`. -/
def setSizes : Children → List Nat → Children
  | last child _, sizes => last child (sizes.headD 0)
  | more child _ rest, sizes => more child (sizes.headD 0) (rest.setSizes sizes.tail)

end Children

/-! ### Layout -/

/-- `distribute`: the available cells shared out by weights. -/
def distribute (avail : Nat) (sizes : List Nat) : Option (List Nat) :=
  if sizes.length = 0 then some []
  else
    (checkedSum sizes).bind fun sum =>
      let total := max sum 1
      (sizes.mapM fun s => (checkedMul avail s).map (· / total)).bind fun out =>
        -- What the rounding left over goes to the first children.
        let leftover := avail - out.sum
        let out := Shares.handOut out leftover 0
        if avail ≥ sizes.length then Shares.refill sizes.length out else some out

namespace SplitDir

/-- The extent of a rectangle that a split divides. -/
def extent (dir : SplitDir) (rect : Rect) : Nat :=
  match dir with
  | .horizontal => rect.height
  | .vertical => rect.width

/-- Where a split's first child starts. -/
def start (dir : SplitDir) (rect : Rect) : Nat :=
  match dir with
  | .horizontal => rect.y
  | .vertical => rect.x

/-- The rectangle of a child that starts at an edge. -/
def childRect (dir : SplitDir) (rect : Rect) (edge cells : Nat) : Rect :=
  match dir with
  | .horizontal => ⟨rect.x, edge, rect.width, cells⟩
  | .vertical => ⟨edge, rect.y, cells, rect.height⟩

/-- The separator at an edge. -/
def separator (dir : SplitDir) (rect : Rect) (edge : Nat) : Separator :=
  match dir with
  | .horizontal => ⟨false, rect.x, edge, rect.width⟩
  | .vertical => ⟨true, edge, rect.y, rect.height⟩

end SplitDir

mutual

/-- `layout_node`: the tree with its `sizes` in cells, the rectangles and the separators. -/
def layoutNode : Node → Rect → Option (Node × List (Nat × Rect) × List Separator)
  | .leaf id, rect => some (.leaf id, [(id, rect)], [])
  | .split dir children, rect =>
      let borders := children.length - 1
      let avail := dir.extent rect - borders
      (distribute avail children.sizes).bind fun extents =>
        (layoutChildren dir rect children extents (dir.start rect)).map
          fun (children, rects, seps) => (.split dir children, rects, seps)

/-- The children of a split from an edge on. -/
def layoutChildren (dir : SplitDir) (rect : Rect) :
    Children → List Nat → Nat → Option (Children × List (Nat × Rect) × List Separator)
  | .last child _, extents, edge =>
      let cells := extents.headD 0
      (layoutNode child (dir.childRect rect edge cells)).bind fun (child, rects, seps) =>
        (checkedAdd edge cells).map fun _ => (.last child cells, rects, seps)
  | .more child _ rest, extents, edge =>
      let cells := extents.headD 0
      (layoutNode child (dir.childRect rect edge cells)).bind fun (child, rects, seps) =>
        (checkedAdd edge cells).bind fun border =>
          (checkedAdd border 1).bind fun next =>
            (layoutChildren dir rect rest extents.tail next).map fun (rest, rects', seps') =>
              (.more child cells rest, rects ++ rects',
                seps ++ dir.separator rect border :: seps')

end

/-! ### Resizing -/

/-- `min_extent`. -/
def minExtent : SplitDir → Nat
  | .horizontal => 2
  | .vertical => 1

/-- `adjust_sizes`: grow or shrink a child at the cost of its neighbour. -/
def adjustSizes (sizes : List Nat) (i : Nat) (delta : Int) (dir : SplitDir) :
    Option (List Nat) :=
  let n := sizes.length
  if n < 2 ∨ delta = 0 then some sizes
  else
    let j := if i + 1 < n then i + 1 else i - 1
    let least := minExtent dir
    if delta > 0 then
      let give := min delta.toNat (sizes.getD j 0 - least)
      (checkedAdd (sizes.getD i 0) give).bind fun grown =>
        (checkedSub (sizes.getD j 0) give).map fun shrunk => (sizes.set i grown).set j shrunk
    else
      (checkedNeg delta).bind fun amount =>
        let take := min amount (sizes.getD i 0 - least)
        (checkedSub (sizes.getD i 0) take).bind fun shrunk =>
          (checkedAdd (sizes.getD j 0) take).map fun grown => (sizes.set i shrunk).set j grown

mutual

/-- `resize_toward`: the tree, and, when the target is in it, whether the nearest split along the axis
has been resized. -/
def resizeToward (target : Nat) (axis : SplitDir) (delta : Int) : Node → Option (Node × Option Bool)
  | .leaf id => some (.leaf id, if id = target then some false else none)
  | .split dir children =>
      (resizeChildren target axis delta children).bind fun (children, onPath) =>
        match onPath with
        | none => some (.split dir children, none)
        | some (i, done) =>
            if ¬ done ∧ dir = axis then
              (adjustSizes children.sizes i delta axis).map fun sizes =>
                (.split dir (children.setSizes sizes), some true)
            else some (.split dir children, some done)

/-- The children up to the one on the path, with its index. -/
def resizeChildren (target : Nat) (axis : SplitDir) (delta : Int) :
    Children → Option (Children × Option (Nat × Bool))
  | .last child size =>
      (resizeToward target axis delta child).map fun (child, found) =>
        (.last child size, found.map fun done => (0, done))
  | .more child size rest =>
      (resizeToward target axis delta child).bind fun (child, found) =>
        match found with
        | some done => some (.more child size rest, some (0, done))
        | none =>
            (resizeChildren target axis delta rest).map fun (rest, found) =>
              (.more child size rest, found.map fun (i, done) => (i + 1, done))

end

end Bemtvi.Core.Windows
