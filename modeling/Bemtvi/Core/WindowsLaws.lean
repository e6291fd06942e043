/-
Module: Bemtvi.Core.WindowsLaws
Purpose: The layout of a tree of splits tiles its rectangle where every split has room for its
  separators, and only there stays within it; resizing keeps every split's sum.
Trusted boundary: none
Main exports: distribute_spec, Tiles, Laid, LaysOut, Everywhere, RoomAt, Kept, tiled_layout_iff
-/
import Bemtvi.Core.Windows
import Bemtvi.Lib.Run

namespace Bemtvi.Core.Windows

open Word Floats Shares

/-! ### Shares of cells -/

/-- The weights and their products with the cells fit in words. -/
structure Shareable (avail : Nat) (sizes : List Nat) : Prop where
  sum : sizes.sum < 2 ^ 64
  products : ∀ s ∈ sizes, avail * s < 2 ^ 64

variable {avail i : Nat} {extents : List Nat} {rect piece : Rect}
  {rects rects' : List (Nat × Rect)} {seps seps' : List Separator} {dir : SplitDir}

theorem mapM_shares_eq_some {total : Nat} {sizes out : List Nat} :
    (sizes.mapM fun s => (checkedMul avail s).map (· / total)) = some out ↔
      (∀ s ∈ sizes, avail * s < 2 ^ 64) ∧ out = floors avail total sizes := by
  induction sizes generalizing out with
  | nil => simp [floors, eq_comm]
  | cons s sizes ih =>
      rw [List.mapM_cons]
      by_cases fits : avail * s < 2 ^ 64
      · rw [checkedMul, if_pos fits]
        simp only [Option.map_some, Option.bind_eq_bind, Option.bind_some,
          Option.bind_eq_some_iff, ih, Option.pure_def, Option.some.injEq, List.forall_mem_cons, fits,
          true_and]
        constructor
        · rintro ⟨rest, ⟨all, rfl⟩, rfl⟩
          exact ⟨all, rfl⟩
        · rintro ⟨all, rfl⟩
          exact ⟨_, ⟨all, rfl⟩, rfl⟩
      · rw [checkedMul, if_neg fits, List.forall_mem_cons]
        constructor
        · intro absent
          cases absent
        · rintro ⟨⟨fits', -⟩, -⟩
          exact absurd fits' fits

/-- Sharing out goes through only where the products fit. -/
theorem Shareable.of_distribute {sizes : List Nat} (some_size : sizes ≠ [])
    (shared : distribute avail sizes = some extents) : Shareable avail sizes := by
  rw [distribute, if_neg (fun empty => some_size (List.length_eq_zero_iff.1 empty))] at shared
  obtain ⟨sum, total, shared⟩ := Option.bind_eq_some_iff.1 shared
  obtain ⟨out, products, -⟩ := Option.bind_eq_some_iff.1 shared
  exact ⟨(checkedSum_eq_some.1 total).1, (mapM_shares_eq_some.1 products).1⟩

/-- The cells before the repair: all of them. -/
theorem distribute_eq {sizes : List Nat} (some_size : sizes ≠ []) (fits : Shareable avail sizes) :
    distribute avail sizes =
      (let out := floors avail (max sizes.sum 1) sizes
       let out := handOut out (avail - out.sum) 0
       if avail ≥ sizes.length then refill sizes.length out else some out) := by
  rw [distribute, if_neg (fun empty => some_size (List.length_eq_zero_iff.1 empty)),
    checkedSum_eq_some.2 ⟨fits.sum, rfl⟩, Option.bind_some]
  simp only
  rw [mapM_shares_eq_some.2 ⟨fits.products, rfl⟩, Option.bind_some]

/-- **All the cells are shared out, and every child gets one where there is one for each.** -/
theorem distribute_spec {sizes : List Nat} (some_size : sizes ≠ []) (fits : Shareable avail sizes) :
    ∃ extents, distribute avail sizes = some extents ∧ extents.length = sizes.length ∧
      extents.sum = avail ∧ (sizes.length ≤ avail → ∀ s ∈ extents, 0 < s) := by
  have below : (floors avail (max sizes.sum 1) sizes).sum ≤ avail :=
    sum_floors_le (Nat.lt_of_lt_of_le Nat.one_pos (Nat.le_max_right _ _)) (Nat.le_max_left _ _)
  have some_share : floors avail (max sizes.sum 1) sizes ≠ [] := by
    apply List.ne_nil_of_length_pos
    rw [length_floors]
    exact List.length_pos_of_ne_nil some_size
  have total := sum_handOut some_share (avail - (floors avail (max sizes.sum 1) sizes).sum) 0
  rw [Nat.add_sub_cancel' below] at total
  rw [distribute_eq some_size fits]
  simp only
  by_cases plenty : avail ≥ sizes.length
  · rw [if_pos plenty]
    have enough : (handOut (floors avail (max sizes.sum 1) sizes)
        (avail - (floors avail (max sizes.sum 1) sizes).sum) 0).count 0 ≤ sizes.length := by
      have few := List.count_le_length (a := 0) (l := handOut (floors avail (max sizes.sum 1) sizes)
        (avail - (floors avail (max sizes.sum 1) sizes).sum) 0)
      rwa [length_handOut, length_floors] at few
    obtain ⟨filled, refilled, length, sum, positive⟩ := refill_spec
      (by rw [length_handOut, length_floors, total]; exact plenty) enough
    refine ⟨filled, refilled, ?_, sum.trans total, fun _ => positive⟩
    rw [length, length_handOut, length_floors]
  · rw [if_neg plenty]
    refine ⟨_, rfl, ?_, total, fun plenty' => absurd plenty' plenty⟩
    rw [length_handOut, length_floors]

/-- **Cells shared out again stay where they are.** -/
theorem distribute_self (some_size : extents ≠ []) (fits : Shareable avail extents)
    (whole : extents.sum = avail) (positive : extents.length ≤ avail → ∀ s ∈ extents, 0 < s) :
    distribute avail extents = some extents := by
  subst whole
  rw [distribute_eq some_size fits, floors_self]
  simp only [Nat.sub_self, handOut]
  split
  · next plenty => exact refill_of_pos _ (positive plenty)
  · rfl

/-! ### Children -/

namespace Children

@[simp] theorem length_sizes : ∀ children : Children, children.sizes.length = children.length
  | last _ _ => rfl
  | more _ _ rest => by rw [sizes, length, List.length_cons, length_sizes rest]

theorem length_pos (children : Children) : 0 < children.length := by
  cases children with
  | last child size => exact Nat.one_pos
  | more child size rest => exact Nat.succ_pos _

theorem sizes_ne_nil (children : Children) : children.sizes ≠ [] := by
  apply List.ne_nil_of_length_pos
  rw [length_sizes]
  exact children.length_pos

end Children

/-! ### Cells -/

/-- A cell of the screen lies in a rectangle. -/
def Has (rect : Rect) (cell : Nat × Nat) : Prop :=
  rect.x ≤ cell.1 ∧ cell.1 < rect.x + rect.width ∧ rect.y ≤ cell.2 ∧
    cell.2 < rect.y + rect.height

instance (rect : Rect) (cell : Nat × Nat) : Decidable (Has rect cell) := by
  unfold Has
  infer_instance

/-- A rectangle's sides lie within those of another. -/
structure Within (piece rect : Rect) : Prop where
  left : rect.x ≤ piece.x
  right : piece.x + piece.width ≤ rect.x + rect.width
  top : rect.y ≤ piece.y
  bottom : piece.y + piece.height ≤ rect.y + rect.height

theorem Within.refl (rect : Rect) : Within rect rect :=
  ⟨Nat.le_refl _, Nat.le_refl _, Nat.le_refl _, Nat.le_refl _⟩

theorem Within.trans {inner middle outer : Rect} (first : Within inner middle)
    (second : Within middle outer) : Within inner outer :=
  ⟨second.left.trans first.left, first.right.trans second.right, second.top.trans first.top,
    first.bottom.trans second.bottom⟩

/-- The strip a separator covers. -/
def Separator.strip (sep : Separator) : Rect :=
  if sep.vertical then ⟨sep.x, sep.y, 1, sep.length⟩ else ⟨sep.x, sep.y, sep.length, 1⟩

/-- What a layout hands out: the windows' rectangles and the separators' strips. -/
def pieces (rects : List (Nat × Rect)) (seps : List Separator) : List Rect :=
  rects.map (·.2) ++ seps.map Separator.strip

/-- **The pieces are disjoint and cover the rectangle exactly**: each of its cells lies in one of them,
and no other cell in any. -/
def Tiles (parts : List Rect) (rect : Rect) : Prop :=
  ∀ cell, parts.countP (fun part => decide (Has part cell)) = if Has rect cell then 1 else 0

theorem Tiles.single (rect : Rect) : Tiles [rect] rect := by
  intro cell
  by_cases inside : Has rect cell
  · simp [inside]
  · simp [inside]

/-- The order of the pieces does not matter. -/
theorem Tiles.perm {parts parts' : List Rect} (same : parts.Perm parts')
    (tiles : Tiles parts rect) : Tiles parts' rect := by
  intro cell
  rw [← same.countP_eq, tiles cell]

@[simp] theorem strip_separator (dir : SplitDir) (rect : Rect) (edge : Nat) :
    (dir.separator rect edge).strip = dir.childRect rect edge 1 := by
  cases dir <;> rfl

namespace SplitDir

/-- The coordinate of a cell that a split divides. -/
def along (dir : SplitDir) (cell : Nat × Nat) : Nat :=
  match dir with
  | .horizontal => cell.2
  | .vertical => cell.1

/-- A cell of a stretch lies between its ends. -/
theorem has_childRect (dir : SplitDir) (rect : Rect) (edge cells : Nat) (cell : Nat × Nat) :
    Has (dir.childRect rect edge cells) cell ↔
      (edge ≤ dir.along cell ∧ dir.along cell < edge + cells) ∧
        Has (dir.childRect rect (dir.along cell) 1) cell := by
  cases dir <;> simp only [childRect, Has, along] <;> omega

/-- A stretch of a split's rectangle is cut in two at any edge. -/
theorem has_add (dir : SplitDir) (rect : Rect) (edge a b : Nat) (cell : Nat × Nat) :
    (if Has (dir.childRect rect edge (a + b)) cell then 1 else 0) =
      (if Has (dir.childRect rect edge a) cell then 1 else 0) +
        if Has (dir.childRect rect (edge + a) b) cell then 1 else 0 := by
  simp only [has_childRect dir rect edge, has_childRect dir rect (edge + a)]
  by_cases across : Has (dir.childRect rect (dir.along cell) 1) cell
  · simp only [across, and_true]
    rcases Nat.lt_or_ge (dir.along cell) (edge + a) with first | second
    · rw [if_neg (fun behind : edge + a ≤ dir.along cell ∧ _ => absurd first
        (Nat.not_lt.2 behind.1))]
      refine if_congr ⟨fun here => ⟨here.1, first⟩, fun here => ⟨here.1, by omega⟩⟩ rfl rfl
    · rw [if_neg (fun before : edge ≤ dir.along cell ∧ _ => absurd before.2
        (Nat.not_lt.2 second)), Nat.zero_add]
      refine if_congr ⟨fun here => ⟨second, by omega⟩, fun here => ⟨by omega, by omega⟩⟩ rfl rfl
  · simp only [across, and_false, if_false]

theorem childRect_whole (dir : SplitDir) (rect : Rect) :
    dir.childRect rect (dir.start rect) (dir.extent rect) = rect := by
  cases dir <;> rfl

variable {dir : SplitDir}

theorem within_childRect {rect : Rect} {edge cells : Nat} (after : dir.start rect ≤ edge)
    (before : edge + cells ≤ dir.start rect + dir.extent rect) :
    Within (dir.childRect rect edge cells) rect := by
  cases dir with
  | horizontal => exact ⟨Nat.le_refl _, Nat.le_refl _, after, before⟩
  | vertical => exact ⟨after, before, Nat.le_refl _, Nat.le_refl _⟩

/-- A stretch that lies within a rectangle ends there. -/
theorem le_of_within_childRect {rect : Rect} {edge cells : Nat}
    (inside : Within (dir.childRect rect edge cells) rect) :
    edge + cells ≤ dir.start rect + dir.extent rect := by
  cases dir with
  | horizontal => exact inside.bottom
  | vertical => exact inside.right

end SplitDir

/-! ### The screen -/

/-- `MAX_SCREEN_DIM`. -/
def maxScreenDim : Nat := 65536

/-- A rectangle of the screen. -/
structure OnScreen (rect : Rect) : Prop where
  width : rect.width ≤ maxScreenDim
  height : rect.height ≤ maxScreenDim
  right : rect.x + rect.width < 2 ^ 64
  bottom : rect.y + rect.height < 2 ^ 64

theorem OnScreen.of_within (screen : OnScreen rect) (inside : Within piece rect) :
    OnScreen piece := by
  obtain ⟨width, height, right, bottom⟩ := screen
  obtain ⟨left', right', top', bottom'⟩ := inside
  constructor <;> omega

theorem OnScreen.extent_le (screen : OnScreen rect) (dir : SplitDir) :
    dir.extent rect ≤ maxScreenDim := by
  cases dir with
  | horizontal => exact screen.height
  | vertical => exact screen.width

theorem OnScreen.far_lt (screen : OnScreen rect) (dir : SplitDir) :
    dir.start rect + dir.extent rect < 2 ^ 64 := by
  cases dir with
  | horizontal => exact screen.bottom
  | vertical => exact screen.right

/-! ### The calls of a layout -/

mutual

/-- `leaves`: the windows of a tree, in order. -/
def Node.leaves : Node → List Nat
  | .leaf id => [id]
  | .split _ children => children.leaves

def Children.leaves : Children → List Nat
  | .last child _ => child.leaves
  | .more child _ rest => child.leaves ++ rest.leaves

end

mutual

/-- A property of a node and its rectangle, at a node and at every node below it, each with the
rectangle that the layout hands it. -/
def Everywhere (P : Node → Rect → Prop) : Node → Rect → Prop
  | .leaf id, rect => P (.leaf id) rect
  | .split dir children, rect =>
      P (.split dir children) rect ∧
        ∀ extents, distribute (dir.extent rect - (children.length - 1)) children.sizes = some extents →
          EverywhereIn P dir rect children extents (dir.start rect)

/-- The same of the children of a split, from an edge on. -/
def EverywhereIn (P : Node → Rect → Prop) (dir : SplitDir) (rect : Rect) :
    Children → List Nat → Nat → Prop
  | .last child _, extents, edge =>
      Everywhere P child (dir.childRect rect edge (extents.headD 0))
  | .more child _ rest, extents, edge =>
      Everywhere P child (dir.childRect rect edge (extents.headD 0)) ∧
        EverywhereIn P dir rect rest extents.tail (edge + extents.headD 0 + 1)

end

mutual

variable {P Q : Node → Rect → Prop}

theorem Everywhere.imp (implies : ∀ node rect, P node rect → Q node rect) :
    ∀ node rect, Everywhere P node rect → Everywhere Q node rect
  | .leaf _, _, holds => implies _ _ holds
  | .split _ children, _, ⟨here, below⟩ =>
      ⟨implies _ _ here, fun extents shared =>
        EverywhereIn.imp implies children extents _ (below extents shared)⟩

theorem EverywhereIn.imp (implies : ∀ node rect, P node rect → Q node rect) {dir : SplitDir}
    {rect : Rect} : ∀ children extents edge, EverywhereIn P dir rect children extents edge →
      EverywhereIn Q dir rect children extents edge
  | .last child _, _, _, holds => Everywhere.imp implies child _ holds
  | .more child _ rest, _, _, ⟨first, others⟩ =>
      ⟨Everywhere.imp implies child _ first, EverywhereIn.imp implies rest _ _ others⟩

end

/-- A split is handed room for its separators, and the products of its weights fit in words. -/
def RoomAt : Node → Rect → Prop
  | .leaf _, _ => True
  | .split dir children, rect =>
      children.length - 1 ≤ dir.extent rect ∧
        Shareable (dir.extent rect - (children.length - 1)) children.sizes

mutual

/-- Every split's `sizes` add up to a word. -/
def Node.SumsFit : Node → Prop
  | .leaf _ => True
  | .split _ children => children.sizes.sum < 2 ^ 64 ∧ children.SumsFit

def Children.SumsFit : Children → Prop
  | .last child _ => child.SumsFit
  | .more child _ rest => child.SumsFit ∧ rest.SumsFit

end

/-- A split's `sizes` are the cells its rectangle has beside the separators, one at least to each child
where there is one for each. -/
def Node.SharesOut : Node → Rect → Prop
  | .leaf _, _ => True
  | .split dir children, rect =>
      children.sizes.sum = dir.extent rect - (children.length - 1) ∧
        (children.length ≤ dir.extent rect - (children.length - 1) → ∀ s ∈ children.sizes, 0 < s)

/-- **What a layout gives**: a rectangle to every window, together with the separators a tiling of the
whole, which nothing reaches out of; and the same again for the tree it leaves. -/
structure Laid (node : Node) (rect : Rect) (node' : Node) (rects : List (Nat × Rect))
    (seps : List Separator) : Prop where
  laid : layoutNode node rect = some (node', rects, seps)
  leaves : rects.map (·.1) = node.leaves
  shares : node'.SharesOut rect
  tiles : Tiles (pieces rects seps) rect
  within : ∀ piece ∈ pieces rects seps, Within piece rect
  again : layoutNode node' rect = some (node', rects, seps)
  sums : node'.SumsFit

/-- A node is laid out in its rectangle as it should be. -/
def LaysOut (node : Node) (rect : Rect) : Prop :=
  ∃ node' rects seps, Laid node rect node' rects seps

/-- What the layout of children from an edge on gives. -/
structure LaidChildren (dir : SplitDir) (rect : Rect) (children : Children) (extents : List Nat)
    (edge : Nat) (children' : Children) (rects : List (Nat × Rect)) (seps : List Separator) :
    Prop where
  laid : layoutChildren dir rect children extents edge = some (children', rects, seps)
  leaves : rects.map (·.1) = children.leaves
  sizes : children'.sizes = extents
  tiles : Tiles (pieces rects seps)
    (dir.childRect rect edge (extents.sum + (children.length - 1)))
  within : ∀ piece ∈ pieces rects seps, Within piece rect
  again : layoutChildren dir rect children' extents edge = some (children', rects, seps)
  sums : children'.SumsFit

theorem mem_pieces_append (member : piece ∈ pieces (rects ++ rects') (seps ++ seps')) :
    piece ∈ pieces rects seps ∨ piece ∈ pieces rects' seps' := by
  simp only [pieces, List.map_append, List.mem_append] at member ⊢
  tauto

theorem mem_pieces_cons {sep : Separator} (member : piece ∈ pieces rects (sep :: seps)) :
    piece = sep.strip ∨ piece ∈ pieces rects seps := by
  simp only [pieces, List.map_cons, List.mem_append, List.mem_cons] at member ⊢
  tauto

/-- A child, the separator behind it and the rest tile the stretch they make up. -/
theorem Tiles.join {edge cells more : Nat}
    (first : Tiles (pieces rects seps) (dir.childRect rect edge cells))
    (others : Tiles (pieces rects' seps') (dir.childRect rect (edge + cells + 1) more)) :
    Tiles (pieces (rects ++ rects') (seps ++ dir.separator rect (edge + cells) :: seps'))
      (dir.childRect rect edge (cells + (1 + more))) := by
  intro cell
  have child := first cell
  have rest := others cell
  rw [SplitDir.has_add, SplitDir.has_add, ← child, ← rest]
  simp only [pieces, List.map_append, List.map_cons, List.countP_append, List.countP_cons,
    strip_separator, decide_eq_true_eq]
  omega

mutual

/-- **Where every split has room, the layout is as it should be.** -/
theorem laysOut_of_room : ∀ (node : Node) (rect : Rect), OnScreen rect →
    Everywhere RoomAt node rect → LaysOut node rect
  | .leaf id, rect, _, _ => by
      refine ⟨.leaf id, [(id, rect)], [], rfl, rfl, trivial, Tiles.single rect, ?_, rfl, trivial⟩
      intro piece member
      rw [List.mem_singleton.1 member]
      exact Within.refl rect
  | .split dir children, rect, screen, ⟨⟨room, fits⟩, below⟩ => by
      obtain ⟨extents, shared, length, sum, positive⟩ :=
        distribute_spec children.sizes_ne_nil fits
      rw [children.length_sizes] at length positive
      have filled : extents.sum + (children.length - 1) = dir.extent rect := by
        rw [sum]
        exact Nat.sub_add_cancel room
      obtain ⟨children', rects, seps, laid⟩ := laidChildren_of_room dir rect screen children extents
        (dir.start rect) length (Nat.le_refl _) (by rw [filled]) (below extents shared)
      have some_size : extents ≠ [] := by
        apply List.ne_nil_of_length_pos
        rw [length]
        exact children.length_pos
      have length' : children'.length = children.length := by
        rw [← children'.length_sizes, laid.sizes, length]
      -- The cells handed out are few enough for their own products to fit.
      have extent_le := screen.extent_le dir
      have each_le : ∀ s ∈ extents, s ≤ maxScreenDim := by
        intro s member
        exact (List.single_le_sum (fun _ _ => Nat.zero_le _) s member).trans (by omega)
      have fits' : Shareable (dir.extent rect - (children.length - 1)) extents := by
        unfold maxScreenDim at extent_le each_le
        refine ⟨by omega, fun s member => ?_⟩
        calc (dir.extent rect - (children.length - 1)) * s ≤ 65536 * 65536 :=
              Nat.mul_le_mul (by omega) (each_le s member)
          _ < 2 ^ 64 := by decide
      have shared' : distribute (dir.extent rect - (children.length - 1)) extents =
          some extents := by
        refine distribute_self some_size fits' sum ?_
        rw [length]
        exact positive
      refine ⟨.split dir children', rects, seps, ?_, laid.leaves, ?_, ?_, laid.within, ?_, ?_,
        laid.sums⟩
      · simp only [layoutNode, shared, Option.bind_some, laid.laid, Option.map_some]
      · simp only [Node.SharesOut, laid.sizes, length']
        exact ⟨sum, positive⟩
      · have tiles := laid.tiles
        rwa [filled, SplitDir.childRect_whole] at tiles
      · simp only [layoutNode, laid.sizes, length', shared', Option.bind_some, laid.again,
          Option.map_some]
      · rw [laid.sizes]
        exact fits'.sum

theorem laidChildren_of_room (dir : SplitDir) (rect : Rect) (screen : OnScreen rect) :
    ∀ (children : Children) (extents : List Nat) (edge : Nat),
      extents.length = children.length → dir.start rect ≤ edge →
      edge + (extents.sum + (children.length - 1)) ≤ dir.start rect + dir.extent rect →
      EverywhereIn RoomAt dir rect children extents edge →
      ∃ children' rects seps, LaidChildren dir rect children extents edge children' rects seps
  | .last child size, extents, edge, length, after, before, room => by
      obtain ⟨cells, rfl⟩ := List.length_eq_one_iff.1 length
      have inside : Within (dir.childRect rect edge cells) rect :=
        SplitDir.within_childRect after (by simpa [Children.length] using before)
      have far := screen.far_lt dir
      have edge_fits : checkedAdd edge cells = some (edge + cells) := by
        simp only [Children.length, List.sum_singleton] at before
        exact checkedAdd_eq_some.2 ⟨by omega, rfl⟩
      obtain ⟨child', rects, seps, laid⟩ :=
        laysOut_of_room child (dir.childRect rect edge cells) (screen.of_within inside) room
      refine ⟨.last child' cells, rects, seps, ?_, laid.leaves, rfl, ?_, ?_, ?_, laid.sums⟩
      · simp only [layoutChildren, List.headD_cons, laid.laid, Option.bind_some, edge_fits,
          Option.map_some]
      · simpa [Children.length] using laid.tiles
      · exact fun piece member => (laid.within piece member).trans inside
      · simp only [layoutChildren, List.headD_cons, laid.again, Option.bind_some, edge_fits,
          Option.map_some]
  | .more child size rest, extents, edge, length, after, before, room => by
      obtain ⟨cells, others, rfl⟩ := List.exists_cons_of_length_eq_add_one length
      rw [Children.length, List.length_cons, Nat.succ_inj] at length
      have rest_pos := rest.length_pos
      rw [List.sum_cons, Children.length, Nat.add_sub_cancel] at before
      have far := screen.far_lt dir
      have inside : Within (dir.childRect rect edge cells) rect :=
        SplitDir.within_childRect after (by omega)
      have strip_inside : Within (dir.childRect rect (edge + cells) 1) rect :=
        SplitDir.within_childRect (by omega) (by omega)
      obtain ⟨first, room⟩ := room
      obtain ⟨child', rects, seps, laid⟩ :=
        laysOut_of_room child (dir.childRect rect edge cells) (screen.of_within inside) first
      obtain ⟨rest', rects', seps', laid'⟩ := laidChildren_of_room dir rect screen rest others
        (edge + cells + 1) length (by omega) (by omega) room
      have edge_fits : checkedAdd edge cells = some (edge + cells) :=
        checkedAdd_eq_some.2 ⟨by omega, rfl⟩
      have next_fits : checkedAdd (edge + cells) 1 = some (edge + cells + 1) :=
        checkedAdd_eq_some.2 ⟨by omega, rfl⟩
      refine ⟨.more child' cells rest', rects ++ rects',
        seps ++ dir.separator rect (edge + cells) :: seps', ?_, ?_, ?_, ?_, ?_, ?_,
        ⟨laid.sums, laid'.sums⟩⟩
      · simp only [layoutChildren, List.headD_cons, List.tail_cons, laid.laid, Option.bind_some,
          edge_fits, next_fits, laid'.laid, Option.map_some]
      · rw [List.map_append, laid.leaves, laid'.leaves, Children.leaves]
      · rw [Children.sizes, laid'.sizes]
      · have whole : cells + (1 + (others.sum + (rest.length - 1))) =
            (cells :: others).sum + ((Children.more child size rest).length - 1) := by
          rw [List.sum_cons, Children.length]
          omega
        rw [← whole]
        exact laid.tiles.join laid'.tiles
      · intro piece member
        rcases mem_pieces_append member with here | later
        · exact (laid.within piece here).trans inside
        · rcases mem_pieces_cons later with rfl | later
          · rw [strip_separator]
            exact strip_inside
          · exact laid'.within piece later
      · simp only [layoutChildren, List.headD_cons, List.tail_cons, laid.again, Option.bind_some,
          edge_fits, next_fits, laid'.again, Option.map_some]

end

mutual

/-- Room at every split is room at every split below. -/
theorem everywhere_laysOut : ∀ (node : Node) (rect : Rect), OnScreen rect →
    Everywhere RoomAt node rect → Everywhere LaysOut node rect
  | .leaf id, rect, screen, room => laysOut_of_room (.leaf id) rect screen room
  | .split dir children, rect, screen, room => by
      refine ⟨laysOut_of_room (.split dir children) rect screen room, fun extents shared => ?_⟩
      obtain ⟨⟨enough, fits⟩, below⟩ := room
      obtain ⟨extents', shared', length, sum, -⟩ := distribute_spec children.sizes_ne_nil fits
      obtain rfl : extents' = extents := Option.some.inj (shared'.symm.trans shared)
      rw [children.length_sizes] at length
      exact everywhereIn_laysOut dir rect screen children extents' (dir.start rect) length
        (Nat.le_refl _) (by omega) (below extents' shared)

theorem everywhereIn_laysOut (dir : SplitDir) (rect : Rect) (screen : OnScreen rect) :
    ∀ (children : Children) (extents : List Nat) (edge : Nat),
      extents.length = children.length → dir.start rect ≤ edge →
      edge + (extents.sum + (children.length - 1)) ≤ dir.start rect + dir.extent rect →
      EverywhereIn RoomAt dir rect children extents edge →
      EverywhereIn LaysOut dir rect children extents edge
  | .last child size, extents, edge, length, after, before, room => by
      obtain ⟨cells, rfl⟩ := List.length_eq_one_iff.1 length
      have inside : Within (dir.childRect rect edge cells) rect :=
        SplitDir.within_childRect after (by simpa [Children.length] using before)
      exact everywhere_laysOut child _ (screen.of_within inside) room
  | .more child size rest, extents, edge, length, after, before, room => by
      obtain ⟨cells, others, rfl⟩ := List.exists_cons_of_length_eq_add_one length
      rw [Children.length, List.length_cons, Nat.succ_inj] at length
      have rest_pos := rest.length_pos
      rw [List.sum_cons, Children.length, Nat.add_sub_cancel] at before
      have inside : Within (dir.childRect rect edge cells) rect :=
        SplitDir.within_childRect after (by omega)
      obtain ⟨first, others_room⟩ := room
      refine ⟨everywhere_laysOut child _ (screen.of_within inside) first, ?_⟩
      refine everywhereIn_laysOut dir rect screen rest others (edge + cells + 1) length ?_ ?_
        others_room
      · omega
      · omega

end

/-- The last separator of a split lies as far from its start as there are separators before it. -/
theorem exists_last_separator :
    ∀ {children : Children} {extents : List Nat} {edge : Nat} {children' : Children}
      {rects : List (Nat × Rect)} {seps : List Separator},
      layoutChildren dir rect children extents edge = some (children', rects, seps) →
      2 ≤ children.length →
      ∃ border, dir.separator rect border ∈ seps ∧ edge + (children.length - 2) ≤ border
  | .last _ _, _, _, _, _, _, _, several => absurd several (Nat.not_le.2 Nat.one_lt_two)
  | .more child size rest, extents, edge, children', rects, seps, laid, _ => by
      simp only [layoutChildren, Option.bind_eq_some_iff, Option.map_eq_some_iff,
        checkedAdd_eq_some] at laid
      obtain ⟨⟨child', rects₁, seps₁⟩, -, border, ⟨-, rfl⟩, next, ⟨-, rfl⟩,
        ⟨rest', rects₂, seps₂⟩, laid', same⟩ := laid
      obtain ⟨rfl, rfl, rfl⟩ : _ ∧ _ ∧ seps₁ ++ dir.separator rect (edge + extents.headD 0) ::
          seps₂ = seps := by
        simpa only [Prod.mk.injEq] using same
      by_cases several' : 2 ≤ rest.length
      · obtain ⟨border, member, beyond⟩ := exists_last_separator laid' several'
        refine ⟨border, ?_, ?_⟩
        · exact List.mem_append_right _ (List.mem_cons_of_mem _ member)
        · rw [Children.length]
          omega
      · refine ⟨edge + extents.headD 0, List.mem_append_right _ List.mem_cons_self, ?_⟩
        rw [Children.length]
        omega

/-- **What stays within its rectangle had room.** -/
theorem roomAt_of_laysOut (node : Node) (rect : Rect) (lays : LaysOut node rect) :
    RoomAt node rect := by
  cases node with
  | leaf id => trivial
  | split dir children =>
      obtain ⟨node', rects, seps, laid⟩ := lays
      have made := laid.laid
      simp only [layoutNode, Option.bind_eq_some_iff, Option.map_eq_some_iff, Prod.mk.injEq] at made
      obtain ⟨extents, shared, ⟨children', rects', seps'⟩, laid', -, rfl, rfl⟩ := made
      refine ⟨?_, Shareable.of_distribute children.sizes_ne_nil shared⟩
      by_cases several : 2 ≤ children.length
      · obtain ⟨border, member, beyond⟩ := exists_last_separator laid' several
        have piece : (dir.separator rect border).strip ∈ pieces rects' seps' :=
          List.mem_append_right _ (List.mem_map_of_mem member)
        have inside := laid.within _ piece
        rw [strip_separator] at inside
        have far := SplitDir.le_of_within_childRect inside
        omega
      · omega

/-! ### Resizing -/

/-- `sizes` that a resize has left: as many, with the same sum, and none that had the least extent
below it. -/
structure SizesKept (dir : SplitDir) (old new : List Nat) : Prop where
  length : new.length = old.length
  sum : new.sum = old.sum
  least : ∀ i, minExtent dir ≤ old.getD i 0 → minExtent dir ≤ new.getD i 0

theorem SizesKept.refl (dir : SplitDir) (sizes : List Nat) : SizesKept dir sizes sizes :=
  ⟨rfl, rfl, fun _ least => least⟩

theorem SizesKept.trans {first second third : List Nat} (one : SizesKept dir first second)
    (two : SizesKept dir second third) : SizesKept dir first third :=
  ⟨two.length.trans one.length, two.sum.trans one.sum, fun i least => two.least i (one.least i least)⟩

mutual

/-- The same tree, with `sizes` that resizes have left. -/
def Node.Kept : Node → Node → Prop
  | .leaf id, .leaf id' => id' = id
  | .split dir children, .split dir' children' =>
      dir' = dir ∧ SizesKept dir children.sizes children'.sizes ∧ children.Kept children'
  | _, _ => False

def Children.Kept : Children → Children → Prop
  | .last child _, .last child' _ => child.Kept child'
  | .more child _ rest, .more child' _ rest' => child.Kept child' ∧ rest.Kept rest'
  | _, _ => False

end

mutual

theorem Node.Kept.refl : ∀ node : Node, node.Kept node
  | .leaf _ => rfl
  | .split dir children => ⟨rfl, .refl dir _, Children.Kept.refl children⟩

theorem Children.Kept.refl : ∀ children : Children, children.Kept children
  | .last child _ => Node.Kept.refl child
  | .more child _ rest => ⟨Node.Kept.refl child, Children.Kept.refl rest⟩

end

mutual

theorem Node.Kept.trans : ∀ {first second third : Node}, first.Kept second → second.Kept third →
    first.Kept third
  | .leaf _, .leaf _, .leaf _, one, two => Eq.trans two one
  | .split _ _, .split _ _, .split _ _, ⟨same, sizes, below⟩, ⟨same', sizes', below'⟩ =>
      ⟨same'.trans same, sizes.trans (same ▸ sizes'), Children.Kept.trans below below'⟩

theorem Children.Kept.trans : ∀ {first second third : Children}, first.Kept second →
    second.Kept third → first.Kept third
  | .last _ _, .last _ _, .last _ _, one, two => Node.Kept.trans one two
  | .more _ _ _, .more _ _ _, .more _ _ _, ⟨child, rest⟩, ⟨child', rest'⟩ =>
      ⟨Node.Kept.trans child child', Children.Kept.trans rest rest'⟩

end

mutual

theorem Node.SumsFit.of_kept : ∀ {node after : Node}, node.SumsFit → node.Kept after →
    after.SumsFit
  | .leaf _, .leaf _, _, _ => trivial
  | .split _ _, .split _ _, ⟨sum, below⟩, ⟨_, sizes, kept⟩ =>
      ⟨sizes.sum ▸ sum, Children.SumsFit.of_kept below kept⟩

theorem Children.SumsFit.of_kept : ∀ {children after : Children}, children.SumsFit →
    children.Kept after → after.SumsFit
  | .last _ _, .last _ _, child, kept => Node.SumsFit.of_kept child kept
  | .more _ _ _, .more _ _ _, ⟨child, rest⟩, ⟨kept, kept'⟩ =>
      ⟨Node.SumsFit.of_kept child kept, Children.SumsFit.of_kept rest kept'⟩

end

namespace Children

@[simp] theorem sizes_setSizes : ∀ {children : Children} {sizes : List Nat},
    sizes.length = children.length → (children.setSizes sizes).sizes = sizes
  | last _ _, sizes, same => by
      obtain ⟨size, rfl⟩ := List.length_eq_one_iff.1 same
      rfl
  | more _ _ rest, sizes, same => by
      obtain ⟨size, others, rfl⟩ := List.exists_cons_of_length_eq_add_one same
      rw [setSizes, Children.sizes, List.headD_cons, List.tail_cons,
        sizes_setSizes (Nat.succ_inj.1 same)]

theorem kept_setSizes : ∀ {children after : Children} (sizes : List Nat), children.Kept after →
    children.Kept (after.setSizes sizes)
  | last _ _, last _ _, _, kept => kept
  | more _ _ _, more _ _ _, sizes, ⟨child, rest⟩ => ⟨child, kept_setSizes sizes.tail rest⟩

end Children

theorem sum_set {sizes : List Nat} (inside : i < sizes.length) (size : Nat) :
    (sizes.set i size).sum + sizes.getD i 0 = sizes.sum + size := by
  induction sizes generalizing i with
  | nil => cases inside
  | cons first sizes ih =>
      cases i with
      | zero =>
          rw [List.set_cons_zero, List.sum_cons, List.sum_cons, List.getD_cons_zero]
          omega
      | succ i =>
          have rest := ih (Nat.lt_of_succ_lt_succ inside)
          rw [List.set_cons_succ, List.sum_cons, List.sum_cons, List.getD_cons_succ]
          omega

theorem getD_set (sizes : List Nat) (i k size : Nat) (inside : i < sizes.length) :
    (sizes.set i size).getD k 0 = if k = i then size else sizes.getD k 0 := by
  rw [List.getD_eq_getElem?_getD, List.getElem?_set]
  split
  · next same =>
      rw [if_pos same.symm]
      rfl
  · next apart => rw [if_neg (Ne.symm apart), List.getD_eq_getElem?_getD]

/-- Cells passed from one child to another, which keeps the least extent. -/
theorem sizesKept_pass {sizes : List Nat} {j amount : Nat} (giver : i < sizes.length)
    (taker : j < sizes.length) (apart : i ≠ j) (spares : amount ≤ sizes.getD i 0 - minExtent dir) :
    SizesKept dir sizes
      ((sizes.set i (sizes.getD i 0 - amount)).set j (sizes.getD j 0 + amount)) := by
  have taker' : j < (sizes.set i (sizes.getD i 0 - amount)).length := by
    rwa [List.length_set]
  have other : (sizes.set i (sizes.getD i 0 - amount)).getD j 0 = sizes.getD j 0 := by
    rw [getD_set _ _ _ _ giver, if_neg (Ne.symm apart)]
  constructor
  · rw [List.length_set, List.length_set]
  · have given := sum_set giver (sizes.getD i 0 - amount)
    have taken := sum_set taker' (sizes.getD j 0 + amount)
    rw [other] at taken
    omega
  · intro k least
    rw [getD_set _ _ _ _ taker', getD_set _ _ _ _ giver]
    split
    · next here =>
        subst here
        omega
    · split
      · next here =>
          subst here
          omega
      · exact least

theorem getD_add_le {sizes : List Nat} {j : Nat} (inside : i < sizes.length) (apart : i ≠ j) :
    sizes.getD i 0 + sizes.getD j 0 ≤ sizes.sum := by
  have taken := sum_set inside 0
  have other : (sizes.set i 0).getD j 0 = sizes.getD j 0 := by
    rw [getD_set _ _ _ _ inside, if_neg (Ne.symm apart)]
  have within : (sizes.set i 0).getD j 0 ≤ (sizes.set i 0).sum := by
    rcases Nat.lt_or_ge j (sizes.set i 0).length with here | beyond
    · rw [List.getD_eq_getElem _ _ here]
      exact List.single_le_sum (fun _ _ => Nat.zero_le _) _ (List.getElem_mem here)
    · rw [List.getD_eq_default _ _ beyond]
      exact Nat.zero_le _
  omega

/-- **`adjust_sizes` never underflows, and keeps the sum and the least extents.** -/
theorem adjustSizes_kept {sizes : List Nat} {delta : Int} (dir : SplitDir)
    (inside : i < sizes.length) (fits : sizes.sum < 2 ^ 64) (signed : -2 ^ 63 < delta) :
    ∃ new, adjustSizes sizes i delta dir = some new ∧ SizesKept dir sizes new := by
  by_cases still : sizes.length < 2 ∨ delta = 0
  · exact ⟨sizes, if_pos still, .refl dir sizes⟩
  · simp only [adjustSizes, if_neg still]
    generalize neighbour : (if i + 1 < sizes.length then i + 1 else i - 1) = j
    have taker : j < sizes.length := by
      rw [← neighbour]
      split <;> omega
    have apart : i ≠ j := by
      rw [← neighbour]
      split <;> omega
    have both := getD_add_le inside apart
    by_cases grows : delta > 0
    · rw [if_pos grows]
      have spares := Nat.min_le_right delta.toNat (sizes.getD j 0 - minExtent dir)
      generalize min delta.toNat (sizes.getD j 0 - minExtent dir) = give at spares ⊢
      have kept := sizesKept_pass taker inside (Ne.symm apart) spares
      rw [List.set_comm _ _ (Ne.symm apart)] at kept
      have grown : checkedAdd (sizes.getD i 0) give = some (sizes.getD i 0 + give) :=
        checkedAdd_eq_some.2 ⟨by omega, rfl⟩
      rw [grown, Option.bind_some, checkedSub_of_le (by omega), Option.map_some]
      exact ⟨_, rfl, kept⟩
    · rw [if_neg grows, checkedNeg, if_pos signed, Option.bind_some]
      have spares := Nat.min_le_right (-delta).toNat (sizes.getD i 0 - minExtent dir)
      generalize min (-delta).toNat (sizes.getD i 0 - minExtent dir) = take at spares ⊢
      have grown : checkedAdd (sizes.getD j 0) take = some (sizes.getD j 0 + take) :=
        checkedAdd_eq_some.2 ⟨by omega, rfl⟩
      rw [checkedSub_of_le (by omega), Option.bind_some, grown, Option.map_some]
      exact ⟨_, rfl, sizesKept_pass inside taker apart spares⟩

mutual

/-- **A resize keeps every split's sum and its least extents.** -/
theorem resizeToward_kept (target : Nat) (axis : SplitDir) {delta : Int} (signed : -2 ^ 63 < delta) :
    ∀ node : Node, node.SumsFit →
      ∃ after found, resizeToward target axis delta node = some (after, found) ∧ node.Kept after
  | .leaf id, _ => ⟨.leaf id, _, rfl, rfl⟩
  | .split dir children, ⟨fits, below⟩ => by
      obtain ⟨children', onPath, resized, kept, same, path⟩ :=
        resizeChildren_kept target axis signed children below
      rcases onPath with _ | ⟨i, done⟩
      · refine ⟨.split dir children', none, ?_, rfl, ?_, kept⟩
        · rw [resizeToward, resized]
          rfl
        · rw [same]
          exact .refl dir _
      · by_cases nearest : ¬ done ∧ dir = axis
        · obtain ⟨-, rfl⟩ := id nearest
          have inside := path i done rfl
          rw [← children'.length_sizes, same] at inside
          obtain ⟨new, adjusted, sizes⟩ := adjustSizes_kept dir inside fits signed
          refine ⟨.split dir (children'.setSizes new), some true, ?_, rfl, ?_,
            Children.kept_setSizes new kept⟩
          · rw [resizeToward, resized, Option.bind_some]
            show (if ¬ done ∧ dir = dir then _ else _) = _
            rw [if_pos nearest, same, adjusted, Option.map_some]
          · have length : new.length = children'.length := by
              rw [sizes.length, ← children'.length_sizes, same]
            rw [Children.sizes_setSizes length]
            exact sizes
        · refine ⟨.split dir children', some done, ?_, rfl, ?_, kept⟩
          · simp only [resizeToward, resized, Option.bind_some]
            rw [if_neg nearest]
          · rw [same]
            exact .refl dir _

theorem resizeChildren_kept (target : Nat) (axis : SplitDir) {delta : Int}
    (signed : -2 ^ 63 < delta) :
    ∀ children : Children, children.SumsFit →
      ∃ after found, resizeChildren target axis delta children = some (after, found) ∧
        children.Kept after ∧ after.sizes = children.sizes ∧
        ∀ i done, found = some (i, done) → i < after.length
  | .last child size, fits => by
      obtain ⟨child', found, resized, kept⟩ := resizeToward_kept target axis signed child fits
      refine ⟨.last child' size, found.map fun done => (0, done), ?_, kept, rfl, ?_⟩
      · rw [resizeChildren, resized]
        rfl
      · intro i done here
        obtain ⟨_, -, same⟩ := Option.map_eq_some_iff.1 here
        cases same
        exact Nat.one_pos
  | .more child size rest, ⟨fits, fits'⟩ => by
      obtain ⟨child', found, resized, kept⟩ := resizeToward_kept target axis signed child fits
      cases found with
      | some done =>
          refine ⟨.more child' size rest, some (0, done), ?_, ⟨kept, Children.Kept.refl rest⟩, rfl,
            ?_⟩
          · rw [resizeChildren, resized]
            rfl
          · intro i done here
            cases here
            exact Nat.succ_pos _
      | none =>
          obtain ⟨rest', found, resized', kept', same, path⟩ :=
            resizeChildren_kept target axis signed rest fits'
          refine ⟨.more child' size rest', found.map fun (i, done) => (i + 1, done), ?_,
            ⟨kept, kept'⟩, ?_, ?_⟩
          · rw [resizeChildren, resized, Option.bind_some]
            simp only [resized', Option.map_some]
          · rw [Children.sizes, Children.sizes, same]
          · intro i done here
            obtain ⟨⟨i', done'⟩, found', same⟩ := Option.map_eq_some_iff.1 here
            cases same
            exact Nat.succ_lt_succ (path _ _ found')

end

/-- A resize of a window, as asked for. -/
structure Resize where
  target : Nat
  axis : SplitDir
  delta : Int

/-- The tree after a resize. -/
def resizeStep (node : Node) (resize : Resize) : Option Node :=
  (resizeToward resize.target resize.axis resize.delta node).map (·.1)

/-- So does any run of resizes. -/
theorem resizes_kept {node : Node} (resizes : List Resize) (fits : node.SumsFit)
    (signed : ∀ resize ∈ resizes, -2 ^ 63 < resize.delta) :
    ∃ after, Run.run resizeStep node resizes = some after ∧ node.Kept after := by
  induction resizes generalizing node with
  | nil => exact ⟨node, rfl, Node.Kept.refl node⟩
  | cons resize resizes ih =>
      rw [List.forall_mem_cons] at signed
      obtain ⟨middle, found, resized, kept⟩ :=
        resizeToward_kept resize.target resize.axis signed.1 node fits
      obtain ⟨after, ran, kept'⟩ := ih (fits.of_kept kept) signed.2
      refine ⟨after, ?_, kept.trans kept'⟩
      rw [Run.run, resizeStep, resized]
      exact ran

/-- **The tiled layout partitions the screen exactly where every split is handed room for its
separators**: where one is not, its separators reach out of its rectangle.  The cells are all shared
out, one to each child where there are enough; and no run of resizes underflows, changes a split's sum
or takes a child below the least extent. -/
theorem tiled_layout_iff (node : Node) (rect : Rect) (screen : OnScreen rect) :
    (Everywhere LaysOut node rect ↔ Everywhere RoomAt node rect) ∧
      (∀ (avail : Nat) (sizes : List Nat), sizes ≠ [] → Shareable avail sizes →
        ∃ extents, distribute avail sizes = some extents ∧ extents.length = sizes.length ∧
          extents.sum = avail ∧ (sizes.length ≤ avail → ∀ s ∈ extents, 0 < s)) ∧
      ∀ (laid : Node) (resizes : List Resize), laid.SumsFit →
        (∀ resize ∈ resizes, -2 ^ 63 < resize.delta) →
        ∃ after, Run.run resizeStep laid resizes = some after ∧ laid.Kept after := by
  refine ⟨⟨?_, ?_⟩, ?_, ?_⟩
  · exact Everywhere.imp roomAt_of_laysOut node rect
  · exact everywhere_laysOut node rect screen
  · exact fun avail sizes some_size fits => distribute_spec some_size fits
  · exact fun laid resizes fits signed => resizes_kept resizes fits signed

/-- Two windows side by side over a third. -/
def threeWindows : Node :=
  .split .horizontal
    (.more (.split .vertical (.more (.leaf 1) 1 (.last (.leaf 2) 1))) 1 (.last (.leaf 3) 1))

/-- They are laid out on a screen of nine by five cells, and the first is widened. -/
theorem tiled_layout_three :
    Everywhere LaysOut threeWindows ⟨0, 0, 9, 5⟩ ∧
      ∃ after, Run.run resizeStep threeWindows [⟨1, .vertical, 2⟩] = some after ∧
        threeWindows.Kept after := by
  have layout := tiled_layout_iff threeWindows ⟨0, 0, 9, 5⟩
    ⟨by decide, by decide, by decide, by decide⟩
  refine ⟨layout.1.2 ?_, layout.2.2 threeWindows _ ?_ ?_⟩
  · refine ⟨⟨by decide, by decide, by decide⟩, fun extents shared => ?_⟩
    obtain rfl : [2, 2] = extents := by
      have cells : distribute 4 [1, 1] = some [2, 2] := by decide
      exact Option.some.inj (cells.symm.trans shared)
    refine ⟨⟨⟨by decide, by decide, by decide⟩, fun extents shared => ?_⟩, trivial⟩
    exact ⟨trivial, trivial⟩
  · exact ⟨by decide, ⟨by decide, trivial, trivial⟩, trivial⟩
  · simp

/-- Three windows one above the other. -/
def stackedWindows : Node :=
  .split .horizontal (.more (.leaf 1) 1 (.more (.leaf 2) 1 (.last (.leaf 3) 1)))

/-- On a single row the second separator is drawn below the rectangle. -/
theorem separator_outside :
    ∃ laid rects, layoutNode stackedWindows ⟨0, 0, 9, 1⟩ =
        some (laid, rects, [⟨false, 0, 0, 9⟩, ⟨false, 0, 1, 9⟩]) ∧
      ¬ Within (Separator.strip ⟨false, 0, 1, 9⟩) ⟨0, 0, 9, 1⟩ ∧
      ¬ Everywhere LaysOut stackedWindows ⟨0, 0, 9, 1⟩ := by
  refine ⟨_, _, rfl, ?_, ?_⟩
  · intro inside
    have bottom := inside.bottom
    revert bottom
    decide
  · rintro ⟨lays, -⟩
    have room := (roomAt_of_laysOut _ _ lays).1
    revert room
    decide

end Bemtvi.Core.Windows
