/-
Module: Bemtvi.Lsp.Position
Purpose: The protocol's places in a text.  A place is a line of the document and a column counted in
  the units of the encoding the two sides agreed on; the editor resolves it on a rope that has one
  more newline when `'endofline'` is off.
Trusted boundary: human-reviewed model of lsp-types' `Position` and `Range`, of
  bemtvi-server/src/lsp/mod.rs:920-990 and 1205-1227, of semantic.rs:416-457 and of
  bemtvi-core/src/unicode.rs:983-997; the bounds of a line are not kept between two columns
Main exports: PositionEncoding, Position, Range, columnByte, documentByte, byteCol, LineCols,
  LspPosResolver, lspRangeToBytesIn
-/
import Bemtvi.Core.Buffer

namespace Bemtvi.Lsp

open Utf8
open Bemtvi.Core (Buffer)

/-- The units a `character` column is counted in. -/
inductive PositionEncoding where
  | utf8
  | utf16
  | utf32
deriving Repr, DecidableEq

structure Position where
  line : Nat
  character : Nat
deriving Repr, DecidableEq

/-- `stop` is the `end` of the protocol. -/
structure Range where
  start : Position
  stop : Position
deriving Repr, DecidableEq

/-! ### What the protocol says -/

/-- `char::len_utf16`. -/
def lenUtf16 (c : Char) : Nat := if c.toNat < 0x10000 then 1 else 2

def PositionEncoding.units : PositionEncoding → Char → Nat
  | utf8, c => c.utf8Size
  | utf16, c => lenUtf16 c
  | utf32, _ => 1

/-- Whether a column lies behind a character it has these units left for.  A column inside a character
is its start in UTF-8 and its end in UTF-16. -/
def PositionEncoding.passes : PositionEncoding → Char → Nat → Bool
  | utf8, c, left => c.utf8Size ≤ left
  | _, _, left => 0 < left

/-- The byte of a column in a line; the line's end when it is past it. -/
@[grind =]
def columnByte (encoding : PositionEncoding) : Text → Nat → Nat
  | [], _ => 0
  | c :: line, left =>
      if encoding.passes c left then
        c.utf8Size + columnByte encoding line (left - encoding.units c)
      else 0

/-- The byte of a place in a document; the document's end when it is past its last line. -/
def documentByte (encoding : PositionEncoding) (character : Nat) : Nat → Text → Nat
  | 0, document => columnByte encoding (document.takeWhile (· ≠ '\n')) character
  | line + 1, document =>
      match document.dropWhile (· ≠ '\n') with
      | [] => size document
      | _ :: rest =>
          size (document.takeWhile (· ≠ '\n')) + 1 + documentByte encoding character line rest

/-! ### Columns -/

/-- Down to the next character boundary. -/
def snapDown (line : Text) : Nat → Nat
  | 0 => 0
  | byte + 1 => if isCharBoundary line (byte + 1) then byte + 1 else snapDown line byte

/-- `utf16_to_byte`, from the units and the byte before the rest of a line. -/
def utf16ToByteFrom (u16Units : Nat) : Nat → Nat → Text → Nat
  | _, byte, [] => byte
  | units, byte, c :: line =>
      if units ≥ u16Units then byte
      else utf16ToByteFrom u16Units (units + lenUtf16 c) (byte + c.utf8Size) line

def utf16ToByte (line : Text) (u16Units : Nat) : Nat := utf16ToByteFrom u16Units 0 0 line

/-- The byte at which a character of a line starts; the line's end past the last. -/
def nthByte : Text → Nat → Nat
  | [], _ => 0
  | _ :: _, 0 => 0
  | c :: line, n + 1 => c.utf8Size + nthByte line n

/-- `byte_col`. -/
def byteCol (encoding : PositionEncoding) (line : Text) (character : Nat) : Nat :=
  match encoding with
  | .utf8 => snapDown line (min character (size line))
  | .utf16 => utf16ToByte line character
  | .utf32 => nthByte line character

/-- A line's columns. -/
structure LineCols where
  text : Text
  ascii : Bool

namespace LineCols

def new (text : Text) : LineCols where
  text := text
  ascii := text.all fun c => c.toNat < 0x80

/-- UTF-16 units, characters and bytes at each character start, then at the line end. -/
def boundsFrom : Nat → Nat → Nat → Text → List (Nat × Nat × Nat)
  | units, chars, byte, [] => [(units, chars, byte)]
  | units, chars, byte, c :: line =>
      (units, chars, byte) :: boundsFrom (units + lenUtf16 c) (chars + 1) (byte + c.utf8Size) line

/-- `partition_point`, of a list that starts with all the elements the test accepts. -/
def partitionPoint {α : Type} (xs : List α) (test : α → Bool) : Nat := (xs.takeWhile test).length

/-- `byte`. -/
def byte (cols : LineCols) (encoding : PositionEncoding) (character : Nat) : Nat :=
  if cols.ascii then min character (size cols.text)
  else if encoding = .utf8 then byteCol encoding cols.text character
  else
    let bounds := boundsFrom 0 0 0 cols.text
    let idx :=
      match encoding with
      | .utf16 => partitionPoint bounds fun (units, _, _) => units < character
      | _ => partitionPoint bounds fun (_, chars, _) => chars < character
    (bounds[idx]?).elim (size cols.text) fun bound => bound.2.2

end LineCols

/-! ### Places -/

/-- A buffer, and the columns of the line last resolved on. -/
structure LspPosResolver (E : Type) where
  buffer : Buffer E
  line : Option (Nat × LineCols)

namespace LspPosResolver

variable {E : Type}

def new (buffer : Buffer E) : LspPosResolver E where
  buffer := buffer
  line := none

/-- The columns of a row: those at hand, or fresh ones. -/
def colsOf (resolver : LspPosResolver E) (row : Nat) : LineCols :=
  match resolver.line with
  | some (at_row, cols) =>
      if at_row = row then cols else LineCols.new (resolver.buffer.lineCow row)
  | none => LineCols.new (resolver.buffer.lineCow row)

/-- `pos`: past the document's last row, the document's end. -/
def pos (resolver : LspPosResolver E) (pos : Position) (encoding : PositionEncoding) :
    Nat × LspPosResolver E :=
  let buffer := resolver.buffer
  let lastRow := buffer.lineCount - if buffer.options.endofline then 0 else 1
  if pos.line > lastRow then (buffer.documentLenBytes, resolver)
  else
    let row := pos.line
    let cols := resolver.colsOf row
    (Utf8.lineStart buffer.text row + cols.byte encoding pos.character,
      { resolver with line := some (row, cols) })

/-- `range`: a reversed range is empty. -/
def range (resolver : LspPosResolver E) (range : Range) (encoding : PositionEncoding) :
    (Nat × Nat) × LspPosResolver E :=
  let (start, resolver) := resolver.pos range.start encoding
  let (stop, resolver) := resolver.pos range.stop encoding
  ((start, max stop start), resolver)

end LspPosResolver

/-- `lsp_range_to_bytes_in`. -/
def lspRangeToBytesIn {E : Type} (buffer : Buffer E) (range : Range) (encoding : PositionEncoding) :
    Nat × Nat :=
  ((LspPosResolver.new buffer).range range encoding).1

end Bemtvi.Lsp
