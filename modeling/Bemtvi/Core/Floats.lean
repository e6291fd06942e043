/-
Module: Bemtvi.Core.Floats
Purpose: The placement of a floating window: the box a float's options ask for, its flip to the other
  side of the row it must not cover, and the clamp that keeps it on the screen.
Trusted boundary: human-reviewed model of bemtvi-core/src/editor/windows.rs:40-235, 265-312 and
  865-931 and of editor/menu.rs:138-153; a word has 64 bits and an addition that overflows is `none`;
  the product of a fraction is a parameter
Main exports: Rect, Extent, FloatConfig, placeAligned, placeFloat, Boxed, Clear, flipped_clear_iff,
  float_placed_iff
-/
import Bemtvi.Lib.Word

namespace Bemtvi.Core.Floats

open Word

/-- A rectangle of cells. -/
structure Rect where
  x : Nat
  y : Nat
  width : Nat
  height : Nat
deriving Repr, DecidableEq

/-- Every side of it is a word. -/
structure Rect.Sized (rect : Rect) : Prop where
  x : rect.x < 2 ^ 64
  y : rect.y < 2 ^ 64
  width : rect.width < 2 ^ 64
  height : rect.height < 2 ^ 64

/-- The corner of the float that the offset places. -/
inductive FloatAnchor where
  | nw
  | ne
  | sw
  | se
deriving Repr, DecidableEq

inductive Align where
  | topLeft
  | top
  | topRight
  | left
  | center
  | right
  | bottomLeft
  | bottom
  | bottomRight
deriving Repr, DecidableEq

namespace Align

/-- The vertical band: `0` = top, `1` = middle, `2` = bottom. -/
def vband : Align → Nat
  | topLeft | top | topRight => 0
  | left | center | right => 1
  | bottomLeft | bottom | bottomRight => 2

/-- The horizontal band: `0` = left, `1` = center, `2` = right. -/
def hband : Align → Nat
  | topLeft | left | bottomLeft => 0
  | top | center | bottom => 1
  | topRight | right | bottomRight => 2

end Align

structure Margin where
  top : Nat
  right : Nat
  bottom : Nat
  left : Nat
deriving Repr, DecidableEq

inductive BorderStyle where
  | none
  | single
  | rounded
  | double
  | solid
deriving Repr, DecidableEq

/-- What the floating-point numbers are asked for: `(reference as f32) * f`, rounded, at least one,
as a word. -/
class Fraction (F : Type) where
  scale : F → Nat → Nat

/-- One axis of a window's size: cells, or a fraction of the reference. -/
inductive Extent (F : Type) where
  | cells (count : UInt16)
  | frac (f : F)

variable {F : Type} [Fraction F]

/-- `Extent::resolve`. -/
def Extent.resolve : Extent F → Nat → Nat
  | .cells count, _ => count.toNat
  | .frac f, reference => Fraction.scale f reference

/-- The options of a float that its placement reads. -/
structure FloatConfig (F : Type) where
  anchor : FloatAnchor
  row : Int
  col : Int
  width : Extent F
  height : Extent F
  align : Option Align
  margin : Margin
  border : BorderStyle
  flip : Bool

/-! ### Placement by alignment -/

/-- The `pos` closure of `place_aligned`: one axis of the box. -/
def alignedPos (band lo span size near far : Nat) : Nat :=
  let p :=
    match band with
    | 0 => satAdd lo near
    | 2 => satAdd lo span - size - far
    | _ => satAdd lo ((span - size) / 2)
  let hi := max (satAdd lo span - size) lo
  max lo (min p hi)

/-- `place_aligned`: the top left cell of the box. -/
def placeAligned (bounds : Rect) (w h : Nat) (align : Align) (margin : Margin) : Nat × Nat :=
  (alignedPos align.hband bounds.x bounds.width w margin.left margin.right,
    alignedPos align.vband bounds.y bounds.height h margin.top margin.bottom)

/-! ### Placement by offset -/

/-- One cell on each side, when there is a border. -/
def borderCells (border : BorderStyle) : Nat := if border ≠ .none then 2 else 0

/-- The flip: above the origin's row when the box does not fit below it, shrunk into the roomier side
when it fits neither.  The row and the height that come of it. -/
def flipped (origin bounds : Rect) (border h : Nat) (y : Int) : Option (Int × Nat) :=
  match checkedAdd bounds.y bounds.height with
  | none => none
  | some bottom =>
      let spaceBelow := (max (Word.saturate (toSigned bottom - y)) 0).toNat
      let spaceAbove := origin.y - bounds.y
      if h > spaceBelow then
        if h ≤ spaceAbove then some (toSigned (origin.y - h), h)
        else if spaceAbove > spaceBelow then
          let h := max spaceAbove (border + 1)
          some (toSigned (origin.y - h), h)
        else some (y, max spaceBelow (border + 1))
      else some (y, h)

/-- The clamp of one axis. -/
def clampedPos (lo far size : Nat) (pos : Int) : Nat :=
  let low := toSigned lo
  let high := max (toSigned (far - size)) low
  (max (max low (min pos high)) 0).toNat

/-- The left column of an offset float before the clamp: the offset, and an `E` anchor's width. -/
def requestedLeft (origin : Rect) (cfg : FloatConfig F) (w : Nat) : Int :=
  let x := Word.saturate (toSigned origin.x + cfg.col)
  if cfg.anchor = .ne ∨ cfg.anchor = .se then Word.saturate (x - toSigned w) else x

/-- The top row of an offset float before the flip and the clamp. -/
def requestedTop (origin : Rect) (cfg : FloatConfig F) (h : Nat) : Int :=
  let y := Word.saturate (toSigned origin.y + cfg.row)
  if cfg.anchor = .sw ∨ cfg.anchor = .se then Word.saturate (y - toSigned h) else y

/-- The row and the height of an offset float behind the flip, when the float asks for it. -/
def flipIfAsked (origin bounds : Rect) (cfg : FloatConfig F) (h : Nat) (y : Int) :
    Option (Int × Nat) :=
  if cfg.flip then flipped origin bounds (borderCells cfg.border) h y else some (y, h)

/-- `place_float`. -/
def placeFloat (origin bounds : Rect) (cfg : FloatConfig F) : Option Rect := do
  let border := borderCells cfg.border
  let w ← checkedAdd (max (cfg.width.resolve bounds.width) 1) border
  let h ← checkedAdd (max (cfg.height.resolve bounds.height) 1) border
  match cfg.align with
  | some align =>
      let (x, y) := placeAligned bounds w h align cfg.margin
      some ⟨x, y, w, h⟩
  | none =>
      let x := requestedLeft origin cfg w
      let (y, h) ← flipIfAsked origin bounds cfg h (requestedTop origin cfg h)
      let right ← checkedAdd bounds.x bounds.width
      let bottom ← checkedAdd bounds.y bounds.height
      some ⟨clampedPos bounds.x right w x, clampedPos bounds.y bottom h y, w, h⟩

/-! ### The box inside the bounds -/

/-- Along one axis, a size that fits lies inside the span, and one that does not starts with it. -/
structure BoxedAxis (lo span pos size : Nat) : Prop where
  inside : size ≤ span → lo ≤ pos ∧ pos + size ≤ lo + span
  pinned : span < size → pos = lo

structure Boxed (bounds rect : Rect) : Prop where
  across : BoxedAxis bounds.x bounds.width rect.x rect.width
  down : BoxedAxis bounds.y bounds.height rect.y rect.height

theorem alignedPos_eq (band lo span size near far : Nat) :
    ∃ p, alignedPos band lo span size near far =
      max lo (min p (max (satAdd lo span - size) lo)) :=
  ⟨_, rfl⟩

variable {lo h : Nat} {bounds origin : Rect} {offset : Int} {cfg : FloatConfig F}

theorem alignedPos_boxed {span size : Nat} (word : lo < 2 ^ 64) (band near far : Nat) :
    BoxedAxis lo span (alignedPos band lo span size near far) size := by
  obtain ⟨p, is⟩ := alignedPos_eq band lo span size near far
  have low : lo ≤ alignedPos band lo span size near far := by omega
  have high : alignedPos band lo span size near far ≤ max (satAdd lo span - size) lo := by omega
  simp only [satAdd] at high
  constructor
  · intro fits
    exact ⟨low, by omega⟩
  · intro large
    exact Nat.le_antisymm (by omega) low

theorem clampedPos_small (size : Nat) {far : Nat} (ordered : lo ≤ far) (small : lo < 2 ^ 63)
    (pos : Int) : BoxedAxis lo (far - lo) (clampedPos lo far size pos) size := by
  have far_le := toSigned_le (far - size)
  have reads : clampedPos lo far size pos =
      (max (max (lo : Int) (min pos (max (toSigned (far - size)) lo))) 0).toNat := by
    rw [clampedPos, toSigned_small small]
  constructor
  · intro fits
    omega
  · intro large
    omega

theorem clampedPos_large (size : Nat) {far : Nat} (large : 2 ^ 63 ≤ lo) (word : far < 2 ^ 64)
    (pos : Int) : clampedPos lo far size pos < lo := by
  have reads : clampedPos lo far size pos =
      (max (max ((lo : Int) - 2 ^ 64) (min pos (max (toSigned (far - size)) ((lo : Int) - 2 ^ 64))))
        0).toNat := by
    rw [clampedPos, toSigned_large large]
  have high : toSigned (far - size) < 2 ^ 63 := by
    unfold toSigned
    split <;> omega
  omega

theorem clampedPos_boxed_iff {span size : Nat} (word : lo + span < 2 ^ 64) (pos : Int) :
    BoxedAxis lo span (clampedPos lo (lo + span) size pos) size ↔ lo < 2 ^ 63 := by
  constructor
  · intro boxed
    by_contra large
    have below := clampedPos_large size (Nat.not_lt.1 large) word pos
    rcases Nat.lt_or_ge span size with tall | fits
    · exact absurd (boxed.pinned tall) (Nat.ne_of_lt below)
    · exact absurd (boxed.inside fits).1 (Nat.not_le.2 below)
  · intro small
    have boxed := clampedPos_small size (Nat.le_add_right lo span) small pos
    rwa [Nat.add_sub_cancel_left] at boxed

/-! ### The row a flipping float must not cover -/

/-- What the flip is for: an offset float that starts below the origin's row, on the screen, with
room for a row of text and the border on one of the two sides. -/
structure FlipAsked (origin bounds : Rect) (cfg : FloatConfig F) : Prop where
  flip : cfg.flip = true
  offset : cfg.align = none
  anchor : cfg.anchor = .nw ∨ cfg.anchor = .ne
  above : bounds.y ≤ origin.y
  inside : origin.y < bounds.y + bounds.height
  below : 0 < cfg.row
  room : ((borderCells cfg.border + 1 : Nat) : Int) ≤
    max (origin.y - bounds.y : Int) (bounds.y + bounds.height - (origin.y + cfg.row))

/-- The box does not cover the origin's row. -/
def Clear (origin rect : Rect) : Prop := origin.y < rect.y ∨ rect.y + rect.height ≤ origin.y

/-- The last row of the bounds is a signed word; past that, the room there is must happen to be where
the float is put: above the origin's row, or at the very edge of the signed words. -/
def FlipFits (above below : Int) (border h bottom row : Nat) : Prop :=
  bottom < 2 ^ 63 ∨
    (row < 2 ^ 63 ∧ (border + 1 ≤ above ∨ (above = 0 ∧ bottom < 2 ^ 63 + border + 1))) ∨
    (2 ^ 63 ≤ row ∧ (h ≤ above ∨ below ≤ above))

theorem flipFits_straddling {above below : Int} {border bottom row : Nat}
    (large : 2 ^ 63 ≤ bottom) (low : row < 2 ^ 63) : FlipFits above below border h bottom row ↔
      border + 1 ≤ above ∨ (above = 0 ∧ bottom < 2 ^ 63 + border + 1) := by
  unfold FlipFits
  omega

theorem flipFits_high {above below : Int} {border bottom row : Nat} (large : 2 ^ 63 ≤ bottom)
    (high : 2 ^ 63 ≤ row) :
    FlipFits above below border h bottom row ↔ h ≤ above ∨ below ≤ above := by
  unfold FlipFits
  omega

/-- The rows below the requested top, as the flip counts them. -/
def spaceBelow (bottom : Nat) (y : Int) : Nat := (max (Word.saturate (toSigned bottom - y)) 0).toNat

theorem flipped_cases {border h' : Nat} {y y' : Int} (word : bounds.y + bounds.height < 2 ^ 64)
    (flips : flipped origin bounds border h y = some (y', h')) :
    (h ≤ spaceBelow (bounds.y + bounds.height) y ∧ y' = y ∧ h' = h) ∨
    (h ≤ origin.y - bounds.y ∧ spaceBelow (bounds.y + bounds.height) y < h ∧
      y' = toSigned (origin.y - h) ∧ h' = h) ∨
    (origin.y - bounds.y < h ∧ spaceBelow (bounds.y + bounds.height) y < origin.y - bounds.y ∧
      h' = max (origin.y - bounds.y) (border + 1) ∧ y' = toSigned (origin.y - h')) ∨
    (origin.y - bounds.y < h ∧ spaceBelow (bounds.y + bounds.height) y < h ∧
      origin.y - bounds.y ≤ spaceBelow (bounds.y + bounds.height) y ∧ y' = y ∧
      h' = max (spaceBelow (bounds.y + bounds.height) y) (border + 1)) := by
  have sum : checkedAdd bounds.y bounds.height = some (bounds.y + bounds.height) :=
    checkedAdd_eq_some.2 ⟨word, rfl⟩
  simp only [flipped, sum] at flips
  rw [← spaceBelow] at flips
  by_cases fits : h > spaceBelow (bounds.y + bounds.height) y
  · rw [if_pos fits] at flips
    by_cases whole : h ≤ origin.y - bounds.y
    · rw [if_pos whole] at flips
      cases flips
      exact Or.inr (Or.inl ⟨whole, fits, rfl, rfl⟩)
    · rw [if_neg whole] at flips
      by_cases roomier : origin.y - bounds.y > spaceBelow (bounds.y + bounds.height) y
      · rw [if_pos roomier] at flips
        cases flips
        exact Or.inr (Or.inr (Or.inl ⟨Nat.not_le.1 whole, roomier, rfl, rfl⟩))
      · rw [if_neg roomier] at flips
        cases flips
        exact Or.inr (Or.inr (Or.inr ⟨Nat.not_le.1 whole, fits, Nat.not_lt.1 roomier, rfl, rfl⟩))
  · rw [if_neg fits] at flips
    cases flips
    exact Or.inl ⟨Nat.not_lt.1 fits, rfl, rfl⟩

theorem spaceBelow_low {bottom row : Nat} (low : bottom < 2 ^ 63) (inside : row < bottom)
    (word : offset < 2 ^ 63) (positive : 0 < offset) :
    (row : Int) < Word.saturate (toSigned row + offset) ∧
      (spaceBelow bottom (Word.saturate (toSigned row + offset)) : Int) =
        max (bottom - (row + offset)) 0 ∧
      (row + offset < bottom → Word.saturate (toSigned row + offset) = row + offset) := by
  have shown : Word.saturate (toSigned row + offset) = min (row + offset) (2 ^ 63 - 1) := by
    rw [toSigned_small (Nat.lt_trans inside low), Word.saturate]
    omega
  rw [shown, spaceBelow, toSigned_small low, Word.saturate]
  refine ⟨?_, ?_, ?_⟩
  · omega
  · omega
  · omega

theorem spaceBelow_straddling {bottom row : Nat} (high : 2 ^ 63 ≤ bottom) (word : bottom < 2 ^ 64)
    (low : row < 2 ^ 63) (positive : 0 < offset) :
    Word.saturate (toSigned row + offset) = min (row + offset) (2 ^ 63 - 1) ∧
      spaceBelow bottom (Word.saturate (toSigned row + offset)) = 0 := by
  have shown : Word.saturate (toSigned row + offset) = min (row + offset) (2 ^ 63 - 1) := by
    rw [toSigned_small low, Word.saturate]
    omega
  refine ⟨shown, ?_⟩
  rw [shown, spaceBelow, toSigned_large high, Word.saturate]
  omega

theorem spaceBelow_high {bottom row : Nat} (high : 2 ^ 63 ≤ row) (inside : row < bottom)
    (word : bottom < 2 ^ 64) (offset_word : offset < 2 ^ 63) (positive : 0 < offset) :
    Word.saturate (toSigned row + offset) = row + offset - 2 ^ 64 ∧
      (spaceBelow bottom (Word.saturate (toSigned row + offset)) : Int) =
        max (bottom - (row + offset)) 0 := by
  have shown : Word.saturate (toSigned row + offset) = row + offset - 2 ^ 64 := by
    rw [toSigned_large high, Word.saturate]
    omega
  refine ⟨shown, ?_⟩
  rw [shown, spaceBelow, toSigned_large (Nat.le_trans high (Nat.le_of_lt inside)), Word.saturate]
  omega

theorem clampedPos_eq (far size : Nat) (start : lo < 2 ^ 63) (pos : Int) :
    (clampedPos lo far size pos : Int) =
      max (lo : Int) (min pos (max (toSigned (far - size)) lo)) := by
  simp only [clampedPos, toSigned_small start]
  omega

theorem flipped_clear_iff {border h' : Nat} {row y' : Int} (start : bounds.y < 2 ^ 63)
    (word : bounds.y + bounds.height < 2 ^ 64) (above : bounds.y ≤ origin.y)
    (inside : origin.y < bounds.y + bounds.height) (row_word : row < 2 ^ 63) (row_pos : 0 < row)
    (tall : border + 1 ≤ h) (room : ((border + 1 : Nat) : Int) ≤
      max (origin.y - bounds.y : Int) (bounds.y + bounds.height - (origin.y + row)))
    (flips : flipped origin bounds border h (Word.saturate (toSigned origin.y + row)) = some (y', h')) :
    (origin.y < clampedPos bounds.y (bounds.y + bounds.height) h' y' ∨
      clampedPos bounds.y (bounds.y + bounds.height) h' y' + h' ≤ origin.y) ↔
    FlipFits (origin.y - bounds.y) (bounds.y + bounds.height - (origin.y + row)) border h
      (bounds.y + bounds.height) origin.y := by
  obtain ⟨x, oy, width, height⟩ := origin
  obtain ⟨bx, lo, bwidth, span⟩ := bounds
  have cases := flipped_cases word flips
  have pos := clampedPos_eq (lo + span) h' start y'
  simp only at *
  generalize clampedPos lo (lo + span) h' y' = p at pos ⊢
  generalize total : lo + span = bottom at *
  clear flips
  rcases Nat.lt_or_ge bottom (2 ^ 63) with small | large
  · obtain ⟨beyond, below, exact_top⟩ := spaceBelow_low small inside row_word row_pos
    rw [toSigned_small (Nat.lt_of_le_of_lt (Nat.sub_le bottom h') small)] at pos
    refine ⟨fun _ => Or.inl small, fun _ => ?_⟩
    generalize spaceBelow bottom (Word.saturate (toSigned oy + row)) = room_below at *
    generalize Word.saturate (toSigned oy + row) = top at *
    rcases cases with ⟨fits, rfl, rfl⟩ | ⟨whole, short, moved, rfl⟩ | ⟨short, roomier, tall', moved⟩ |
      ⟨short, small, roomier, rfl, tall'⟩
    · omega
    · rw [toSigned_small (by omega)] at moved
      omega
    · rw [toSigned_small (by omega)] at moved
      omega
    · omega
  · have far := toSigned_cases (bottom - h')
    rcases Nat.lt_or_ge oy (2 ^ 63) with low | high
    · rw [flipFits_straddling large low]
      obtain ⟨shown, below⟩ := spaceBelow_straddling large word low row_pos
      rw [below] at cases
      rw [shown] at cases
      rcases cases with ⟨fits, -, -⟩ | ⟨whole, short, moved, rfl⟩ | ⟨short, roomier, tall', moved⟩ |
        ⟨short, small, roomier, rfl, tall'⟩
      · omega
      · rw [toSigned_small (by omega)] at moved
        omega
      · rw [toSigned_small (by omega)] at moved
        omega
      · omega
    · rw [flipFits_high large high]
      obtain ⟨shown, below⟩ := spaceBelow_high high inside word row_word row_pos
      rw [shown] at below cases
      generalize spaceBelow bottom (oy + row - 2 ^ 64) = room_below at *
      rcases cases with ⟨fits, rfl, rfl⟩ | ⟨whole, short, moved, rfl⟩ |
        ⟨short, roomier, tall', moved⟩ | ⟨short, small, roomier, rfl, tall'⟩
      · omega
      · have lifted := toSigned_cases (oy - h')
        omega
      · have lifted := toSigned_cases (oy - h')
        omega
      · omega

/-! ### The placement as a whole -/

/-- The cells of one axis with the border. -/
def outerSize (cfg : FloatConfig F) (extent : Extent F) (reference : Nat) : Nat :=
  max (extent.resolve reference) 1 + borderCells cfg.border

theorem flipped_isSome {border : Nat} {y : Int} (word : bounds.y + bounds.height < 2 ^ 64) :
    ∃ y' h', flipped origin bounds border h y = some (y', h') := by
  have sum : checkedAdd bounds.y bounds.height = some (bounds.y + bounds.height) :=
    checkedAdd_eq_some.2 ⟨word, rfl⟩
  simp only [flipped, sum]
  split
  · split
    · exact ⟨_, _, rfl⟩
    · split
      · exact ⟨_, _, rfl⟩
      · exact ⟨_, _, rfl⟩
  · exact ⟨_, _, rfl⟩

theorem placeFloat_aligned {rect : Rect} {align : Align} (aligned : cfg.align = some align) :
    placeFloat origin bounds cfg = some rect ↔
      outerSize cfg cfg.width bounds.width < 2 ^ 64 ∧
      outerSize cfg cfg.height bounds.height < 2 ^ 64 ∧
      rect = ⟨(placeAligned bounds (outerSize cfg cfg.width bounds.width)
          (outerSize cfg cfg.height bounds.height) align cfg.margin).1,
        (placeAligned bounds (outerSize cfg cfg.width bounds.width)
          (outerSize cfg cfg.height bounds.height) align cfg.margin).2,
        outerSize cfg cfg.width bounds.width, outerSize cfg cfg.height bounds.height⟩ := by
  simp only [placeFloat, aligned, Option.bind_eq_bind, Option.bind_eq_some_iff,
    checkedAdd_eq_some, Option.some.injEq]
  constructor
  · rintro ⟨w, ⟨wide, rfl⟩, h, ⟨tall, rfl⟩, rfl⟩
    exact ⟨wide, tall, rfl⟩
  · rintro ⟨wide, tall, rfl⟩
    exact ⟨_, ⟨wide, rfl⟩, _, ⟨tall, rfl⟩, rfl⟩

theorem placeFloat_offset {rect : Rect} (offset : cfg.align = none) :
    placeFloat origin bounds cfg = some rect ↔
      outerSize cfg cfg.width bounds.width < 2 ^ 64 ∧
      outerSize cfg cfg.height bounds.height < 2 ^ 64 ∧
      bounds.x + bounds.width < 2 ^ 64 ∧ bounds.y + bounds.height < 2 ^ 64 ∧
      ∃ y h, flipIfAsked origin bounds cfg (outerSize cfg cfg.height bounds.height)
          (requestedTop origin cfg (outerSize cfg cfg.height bounds.height)) = some (y, h) ∧
        rect = ⟨clampedPos bounds.x (bounds.x + bounds.width)
            (outerSize cfg cfg.width bounds.width)
            (requestedLeft origin cfg (outerSize cfg cfg.width bounds.width)),
          clampedPos bounds.y (bounds.y + bounds.height) h y,
          outerSize cfg cfg.width bounds.width, h⟩ := by
  simp only [placeFloat, offset, Option.bind_eq_bind, Option.bind_eq_some_iff,
    checkedAdd_eq_some, Option.some.injEq]
  constructor
  · rintro ⟨w, ⟨wide, rfl⟩, h, ⟨tall, rfl⟩, ⟨y', h'⟩, flips, right, ⟨right_word, rfl⟩, bottom,
      ⟨bottom_word, rfl⟩, rfl⟩
    exact ⟨wide, tall, right_word, bottom_word, y', h', flips, rfl⟩
  · rintro ⟨wide, tall, right_word, bottom_word, y', h', flips, rfl⟩
    exact ⟨_, ⟨wide, rfl⟩, _, ⟨tall, rfl⟩, (y', h'), flips, _, ⟨right_word, rfl⟩, _,
      ⟨bottom_word, rfl⟩, rfl⟩

omit [Fraction F] in
theorem flipIfAsked_isSome (origin : Rect) (cfg : FloatConfig F) (h : Nat) (y : Int)
    (word : bounds.y + bounds.height < 2 ^ 64) :
    ∃ y' h', flipIfAsked origin bounds cfg h y = some (y', h') := by
  unfold flipIfAsked
  split
  · exact flipped_isSome word
  · exact ⟨_, _, rfl⟩

theorem FlipAsked.clear_iff {left width : Nat} {y : Int} (asked : FlipAsked origin bounds cfg)
    (row_word : cfg.row < 2 ^ 63) (start : bounds.y < 2 ^ 63)
    (word : bounds.y + bounds.height < 2 ^ 64)
    (flips : flipIfAsked origin bounds cfg (outerSize cfg cfg.height bounds.height)
      (requestedTop origin cfg (outerSize cfg cfg.height bounds.height)) = some (y, h)) :
    Clear origin ⟨left, clampedPos bounds.y (bounds.y + bounds.height) h y, width, h⟩ ↔
      FlipFits (origin.y - bounds.y) (bounds.y + bounds.height - (origin.y + cfg.row))
        (borderCells cfg.border) (outerSize cfg cfg.height bounds.height)
        (bounds.y + bounds.height) origin.y := by
  have top : requestedTop origin cfg (outerSize cfg cfg.height bounds.height) =
      Word.saturate (toSigned origin.y + cfg.row) := by
    rcases asked.anchor with anchor | anchor <;> simp [requestedTop, anchor]
  rw [flipIfAsked, if_pos asked.flip, top] at flips
  apply flipped_clear_iff start word asked.above asked.inside row_word asked.below _ asked.room flips
  unfold outerSize
  omega

/-- The sums and the starts that the placement computes with are words it can hold. -/
structure Representable (bounds : Rect) (cfg : FloatConfig F) : Prop where
  width : outerSize cfg cfg.width bounds.width < 2 ^ 64
  height : outerSize cfg cfg.height bounds.height < 2 ^ 64
  right : cfg.align = none → bounds.x + bounds.width < 2 ^ 64
  bottom : cfg.align = none → bounds.y + bounds.height < 2 ^ 64
  left : cfg.align = none → bounds.x < 2 ^ 63
  top : cfg.align = none → bounds.y < 2 ^ 63

/-- **Floats are placed on the screen, off the row they describe.**  The placement overflows nothing,
keeps the box within the bounds where it fits them and at their start where it does not, and keeps a
flipping float off the origin's row, exactly when its sums are words and the flip counts its rooms. -/
theorem float_placed_iff {origin bounds : Rect} {cfg : FloatConfig F} (sized : bounds.Sized)
    (row_word : cfg.row < 2 ^ 63) :
    (∃ rect, placeFloat origin bounds cfg = some rect ∧ Boxed bounds rect ∧
      (FlipAsked origin bounds cfg → Clear origin rect)) ↔
    Representable bounds cfg ∧
      (FlipAsked origin bounds cfg →
        FlipFits (origin.y - bounds.y) (bounds.y + bounds.height - (origin.y + cfg.row))
          (borderCells cfg.border) (outerSize cfg cfg.height bounds.height)
          (bounds.y + bounds.height) origin.y) := by
  cases mode : cfg.align with
  | some align =>
      simp only [placeFloat_aligned mode]
      constructor
      · rintro ⟨rect, ⟨wide, tall, -⟩, -⟩
        refine ⟨⟨wide, tall, ?_, ?_, ?_, ?_⟩, ?_⟩
        iterate 4
          intro offset
          rw [mode] at offset
          cases offset
        intro asked
        have offset := asked.offset
        rw [mode] at offset
        cases offset
      · rintro ⟨fits, -⟩
        refine ⟨_, ⟨fits.width, fits.height, rfl⟩, ⟨?_, ?_⟩, ?_⟩
        · exact alignedPos_boxed sized.x _ _ _
        · exact alignedPos_boxed sized.y _ _ _
        · intro asked
          have offset := asked.offset
          rw [mode] at offset
          cases offset
  | none =>
      simp only [placeFloat_offset mode]
      constructor
      · rintro ⟨rect, ⟨wide, tall, right, bottom, y, h, flips, rfl⟩, boxed, clear⟩
        have left := (clampedPos_boxed_iff right _).1 boxed.across
        have top := (clampedPos_boxed_iff bottom _).1 boxed.down
        refine ⟨⟨wide, tall, fun _ => right, fun _ => bottom, fun _ => left, fun _ => top⟩, ?_⟩
        intro asked
        exact (asked.clear_iff row_word top bottom flips).1 (clear asked)
      · rintro ⟨fits, safe⟩
        have right := fits.right mode
        have bottom := fits.bottom mode
        obtain ⟨y, h, flips⟩ := flipIfAsked_isSome origin cfg
          (outerSize cfg cfg.height bounds.height)
          (requestedTop origin cfg (outerSize cfg cfg.height bounds.height)) bottom
        refine ⟨_, ⟨fits.width, fits.height, right, bottom, y, h, flips, rfl⟩, ⟨?_, ?_⟩, ?_⟩
        · exact (clampedPos_boxed_iff right _).2 (fits.left mode)
        · exact (clampedPos_boxed_iff bottom _).2 (fits.top mode)
        · intro asked
          exact (asked.clear_iff row_word (fits.top mode) bottom flips).2 (safe asked)

/-- A configuration whose sizes are all cells. -/
instance : Fraction Empty where
  scale := Empty.elim

/-- A hover under the cursor's line, near the bottom of the screen. -/
def hover : FloatConfig Empty where
  anchor := .nw
  row := 1
  col := 0
  width := .cells 20
  height := .cells 5
  align := none
  margin := ⟨0, 0, 0, 0⟩
  border := .rounded
  flip := true

/-- The hover of the last line but one is put above it. -/
theorem float_placed_iff_hover :
    ∃ rect, placeFloat ⟨10, 22, 0, 0⟩ ⟨0, 0, 80, 24⟩ hover = some rect ∧
      Boxed ⟨0, 0, 80, 24⟩ rect ∧
      (FlipAsked ⟨10, 22, 0, 0⟩ ⟨0, 0, 80, 24⟩ hover → Clear ⟨10, 22, 0, 0⟩ rect) := by
  apply (float_placed_iff ⟨by decide, by decide, by decide, by decide⟩ (by decide)).2
  constructor
  · exact ⟨by decide, by decide, by decide, by decide, by decide, by decide⟩
  · intro _
    exact Or.inl (by decide)

/-- Bounds whose far edge is past the largest word. -/
theorem placeFloat_overflows :
    placeFloat ⟨1, 0, 0, 0⟩ ⟨1, 0, 2 ^ 64 - 1, 24⟩ hover = none := by
  decide

end Bemtvi.Core.Floats
