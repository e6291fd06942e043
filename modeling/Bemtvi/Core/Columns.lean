/-
Module: Bemtvi.Core.Columns
Purpose: Screen columns of a line: the width of a grapheme, the column of a byte, the byte of a column,
  and the mapper that walks a line forward once for many queries.
Trusted boundary: human-reviewed model of bemtvi-core/src/unicode.rs:24-30, 56-83, 205-223, 540-638
  and 858-901; what the segmentation and width crates compute is a parameter, a tabstop of 0, which
  panics there, gives a tab no cells, and a slice off a character boundary is cut before it
Main exports: Segmenter, graphemeWidth, floorGrapheme, virtcol, LineVirtcol, LineVirtcol.at_byte,
  byteAtVirtcol
-/
import Bemtvi.Lib.Clusters
import Bemtvi.Lib.Utf8Bytes

namespace Bemtvi.Core.Columns

open Utf8 Clusters

/-- What the crates say of a text: `graphemes(true)`, and `UnicodeWidthStr::width`. -/
class Segmenter where
  graphemes : Text → List Text
  width : Text → Nat

/-- A printable ASCII byte. -/
def printableAscii (b : UInt8) : Bool := 0x20 ≤ b && b < 0x7f

/-- `all_printable_ascii`. -/
def allPrintableAscii (bytes : List UInt8) : Bool := bytes.all printableAscii

/-- `is_ascii`, of the byte at a place. -/
def asciiAt (bytes : List UInt8) (place : Nat) : Bool := bytes[place]?.any (· < 128)

/-! ### The width of a grapheme -/

/-- `control_width`: the cells of an unprintable control character's substitution. -/
def controlWidth (c : Char) : Option Nat :=
  if c = '\t' then none
  else if c.toNat ≤ 0x1f ∨ c.toNat = 0x7f then some 2
  else if 0x80 ≤ c.toNat ∧ c.toNat ≤ 0x9f then some 4
  else none

/-- `single_char`. -/
def singleChar : Text → Option Char
  | [c] => some c
  | _ => none

variable [Segmenter]

/-- `grapheme_width`: the cells of a grapheme that starts at a column. -/
def graphemeWidth (g : Text) (col tabstop : Nat) : Nat :=
  if g = ['\t'] then tabstop - col % tabstop
  else
    match (singleChar g).bind controlWidth with
    | some w => w
    | none => Segmenter.width g

/-- The column behind graphemes, from a column on. -/
def columnsFrom (tabstop : Nat) (col : Nat) (gs : List Text) : Nat :=
  gs.foldl (fun col g => col + graphemeWidth g col tabstop) col

/-! ### Bytes and columns -/

/-- `GraphemeCursor::is_boundary`. -/
def isBoundary (line : Text) (byte : Nat) : Bool :=
  byte == 0 || (endsFrom 0 (Segmenter.graphemes line)).contains byte

/-- `floor_grapheme`. -/
def floorGrapheme (line : Text) (byte : Nat) : Nat :=
  if byte ≥ size line then size line
  else
    let b := bytes line
    -- Between two ASCII characters there is a boundary, but inside a CRLF.
    if asciiAt b byte && (byte == 0 || (asciiAt b (byte - 1) &&
        !(b[byte - 1]? == some 13 && b[byte]? == some 10))) then byte
    else
      let byte := Nat.findGreatest (fun byte => isCharBoundary line byte = true) byte
      if isBoundary line byte then byte
      else Nat.findGreatest (fun byte => isBoundary line byte = true) (byte - 1)

/-- `virtcol`. -/
def virtcol (line : Text) (byte tabstop : Nat) : Nat :=
  let byte := min byte (size line)
  if allPrintableAscii ((bytes line).take (min (byte + 1) (size line))) then byte
  else
    let byte := floorGrapheme line byte
    columnsFrom tabstop 0 (Segmenter.graphemes (within line byte))

/-- `LineVirtcol`: the graphemes not walked yet, and where the walk stands. -/
structure LineVirtcol where
  line : Text
  tabstop : Nat
  simple : Bool
  graphemes : List (Nat × Text)
  walkedByte : Nat
  walkedCol : Nat

namespace LineVirtcol

/-- `new`. -/
def new (line : Text) (tabstop : Nat) : LineVirtcol where
  line := line
  tabstop := tabstop
  -- `is_ascii` and not `is_ascii_control`.
  simple := (bytes line).all fun b => b < 128 && !(b < 0x20 || b == 0x7f)
  graphemes := startsFrom 0 (Segmenter.graphemes line)
  walkedByte := 0
  walkedCol := 0

/-- The walk of `at`, over every grapheme that ends by `byte`. -/
def walk (tabstop byte : Nat) : List (Nat × Text) → Nat → Nat → List (Nat × Text) × Nat × Nat
  | [], walkedByte, walkedCol => ([], walkedByte, walkedCol)
  | (start, g) :: rest, walkedByte, walkedCol =>
      if start + size g > byte then ((start, g) :: rest, walkedByte, walkedCol)
      else walk tabstop byte rest (start + size g) (walkedCol + graphemeWidth g walkedCol tabstop)

/-- `at`. -/
def at_byte (mapper : LineVirtcol) (byte : Nat) : Nat × LineVirtcol :=
  if mapper.simple then (min byte (size mapper.line), mapper)
  else
    -- A backward query starts the walk over.
    let mapper :=
      if byte < mapper.walkedByte then
        { mapper with
          graphemes := startsFrom 0 (Segmenter.graphemes mapper.line)
          walkedByte := 0
          walkedCol := 0 }
      else mapper
    let (graphemes, walkedByte, walkedCol) :=
      walk mapper.tabstop byte mapper.graphemes mapper.walkedByte mapper.walkedCol
    (walkedCol, { mapper with
      graphemes := graphemes, walkedByte := walkedByte, walkedCol := walkedCol })

/-- The answers to one query after the other. -/
def answers (mapper : LineVirtcol) : List Nat → List Nat
  | [] => []
  | byte :: rest => (mapper.at_byte byte).1 :: (mapper.at_byte byte).2.answers rest

end LineVirtcol

/-- The loop of `byte_at_virtcol`; the line's length when no grapheme is there. -/
def byteAtFrom (tabstop target len : Nat) : List (Nat × Text) → Nat → Nat
  | [], _ => len
  | (i, g) :: rest, col =>
      let w := graphemeWidth g col tabstop
      if col + w > target ∨ (w = 0 ∧ col = target) then i
      else byteAtFrom tabstop target len rest (col + w)

/-- `byte_at_virtcol`. -/
def byteAtVirtcol (line : Text) (target tabstop : Nat) : Nat :=
  let n := min (target + 1) (size line)
  if allPrintableAscii ((bytes line).take n) then min target (size line)
  else byteAtFrom tabstop target (size line) (startsFrom 0 (Segmenter.graphemes line)) 0

end Bemtvi.Core.Columns
