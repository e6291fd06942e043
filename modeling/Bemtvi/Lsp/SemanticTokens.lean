/-
Module: Bemtvi.Lsp.SemanticTokens
Purpose: Semantic tokens: a delta reply spliced into the flat integers of the cached tokens, and the
  tokens decoded to spans of lines.
Trusted boundary: human-reviewed model of bemtvi-server/src/lsp/semantic.rs:276-405 and 466-485; the
  spans of a line are a function of the line, and a sum of two `u32` fits a `usize`
Main exports: SemanticToken, SemanticTokensEdit, applyTokenEdits, SemanticSpan, decodeTokens
-/
import Bemtvi.Lsp.Position
import Mathlib

namespace Bemtvi.Lsp.Semantic

open Utf8
open Bemtvi.Core (Buffer)

/-! ### Delta edits -/

structure SemanticToken where
  deltaLine : UInt32
  deltaStart : UInt32
  length : UInt32
  tokenType : UInt32
  tokenModifiersBitset : UInt32
deriving DecidableEq

structure SemanticTokensEdit where
  start : UInt32
  deleteCount : UInt32
  data : Option (List SemanticToken)
deriving DecidableEq

/-- `flatten_tokens`. -/
def flattenTokens (tokens : List SemanticToken) : List UInt32 :=
  tokens.flatMap fun t =>
    [t.deltaLine, t.deltaStart, t.length, t.tokenType, t.tokenModifiersBitset]

/-- `chunk_tokens`: what is left over is dropped. -/
def chunkTokens : List UInt32 → List SemanticToken
  | a :: b :: c :: d :: e :: rest => ⟨a, b, c, d, e⟩ :: chunkTokens rest
  | _ => []

/-- The integers an edit puts in. -/
def SemanticTokensEdit.integers (edit : SemanticTokensEdit) : List UInt32 :=
  (edit.data.map flattenTokens).getD []

/-- Where an edit starts in an array. -/
def SemanticTokensEdit.from_ (edit : SemanticTokensEdit) (length : Nat) : Nat :=
  min edit.start.toNat length

/-- The stable sort by start. -/
def sortedEdits (edits : List SemanticTokensEdit) : List SemanticTokensEdit :=
  edits.insertionSort fun a b => a.start.toNat ≤ b.start.toNat

/-- One edit: the run before it, what it puts in, and where the untouched rest begins. -/
def applyEdit (old : List UInt32) (state : List UInt32 × Nat) (edit : SemanticTokensEdit) :
    List UInt32 × Nat :=
  let start := edit.from_ old.length
  let before := if state.2 < start then (old.drop state.2).take (start - state.2) else []
  (state.1 ++ before ++ edit.integers, min (start + edit.deleteCount.toNat) old.length)

/-- The edits in order, on the flat integers. -/
def spliceIntegers (old : List UInt32) (edits : List SemanticTokensEdit) : List UInt32 :=
  let (out, idx) := (sortedEdits edits).foldl (applyEdit old) ([], 0)
  out ++ old.drop idx

/-- `apply_token_edits`. -/
def applyTokenEdits (base : List SemanticToken) (edits : List SemanticTokensEdit) :
    List SemanticToken :=
  chunkTokens (spliceIntegers (flattenTokens base) edits)

/-- An edit deletes an integer. -/
def SemanticTokensEdit.covers (edit : SemanticTokensEdit) (place : Nat) : Bool :=
  edit.start.toNat ≤ place ∧ place < edit.start.toNat + edit.deleteCount.toNat

/-- What the edits leave at a place of the array: what they put in before it, then its integer. -/
def pieceAt (old : List UInt32) (edits : List SemanticTokensEdit) (place : Nat) : List UInt32 :=
  (edits.filter fun edit => edit.from_ old.length = place).flatMap SemanticTokensEdit.integers ++
    if edits.any fun edit => edit.covers place then [] else (old[place]?).toList

/-- Every edit for itself, in the coordinates of the old array. -/
def spliceIndependently (old : List UInt32) (edits : List SemanticTokensEdit) : List UInt32 :=
  (List.range' 0 (old.length + 1)).flatMap (pieceAt old (sortedEdits edits))

/-- No integer is deleted twice, and nothing is put in among the integers another edit deletes. -/
def Apart (a b : SemanticTokensEdit) : Prop :=
  a.start.toNat + a.deleteCount.toNat ≤ b.start.toNat ∨
    b.start.toNat + b.deleteCount.toNat ≤ a.start.toNat

/-- An edit that deletes some of an array comes after those that start where it does. -/
def InsertsFirst (length : Nat) (a b : SemanticTokensEdit) : Prop :=
  a.start = b.start → a.deleteCount = 0 ∨ length ≤ a.start.toNat

/-! ### Spans -/

structure SemanticLegend where
  tokenTypes : List String
  tokenModifiers : List String
deriving Repr, DecidableEq

structure SemanticSpan where
  start : Nat
  end_ : Nat
  groups : List String
  ty : String
  mods : List String
deriving Repr, DecidableEq

/-- The modifiers of a token that the legend has, of its first 32. -/
def activeModifiers (tok : SemanticToken) (legend : SemanticLegend) : List String :=
  ((legend.tokenModifiers.take 32).zipIdx.filter fun entry =>
    tok.tokenModifiersBitset.toNat.testBit entry.2).map Prod.fst

/-- `classify`: the type, the modifiers and the groups; none for a type outside the legend. -/
def classify (tok : SemanticToken) (legend : SemanticLegend) :
    Option (String × List String × List String) :=
  (legend.tokenTypes[tok.tokenType.toNat]?).map fun ty =>
    let mods := activeModifiers tok legend
    (ty, mods, mods.map (fun modifier => "lsp.typemod." ++ ty ++ "." ++ modifier) ++
      ["lsp.type." ++ ty])

/-- `u32::MAX`. -/
def maxU32 : Nat := 2 ^ 32 - 1

/-- `saturating_add`. -/
def saturatingAdd (a b : Nat) : Nat := min (a + b) maxU32

/-- Where decoding has got to. -/
structure Decoder where
  spans : Nat → List SemanticSpan
  line : Nat
  startChar : Nat
  cols : Option (Nat × LineCols)

variable {E : Type}

/-- The columns of a line, those kept when they are its. -/
def Decoder.lineCols (decoder : Decoder) (buffer : Buffer E) (line : Nat) : LineCols :=
  match decoder.cols with
  | some (at_, cols) => if at_ = line then cols else LineCols.new (buffer.lineCow line)
  | none => LineCols.new (buffer.lineCow line)

/-- One token. -/
def decodeToken (legend : SemanticLegend) (encoding : PositionEncoding) (buffer : Buffer E)
    (decoder : Decoder) (tok : SemanticToken) : Decoder :=
  let line :=
    if 0 < tok.deltaLine.toNat then saturatingAdd decoder.line tok.deltaLine.toNat
    else decoder.line
  let startChar :=
    if 0 < tok.deltaLine.toNat then tok.deltaStart.toNat
    else saturatingAdd decoder.startChar tok.deltaStart.toNat
  let decoder := { decoder with line := line, startChar := startChar }
  if tok.length.toNat = 0 then decoder
  else if buffer.lineCount ≤ line then decoder
  else
    let cols := decoder.lineCols buffer line
    let decoder := { decoder with cols := some (line, cols) }
    let start := cols.byte encoding startChar
    let stop := cols.byte encoding (saturatingAdd startChar tok.length.toNat)
    if stop ≤ start then decoder
    else
      (classify tok legend).elim decoder fun (ty, mods, groups) =>
        { decoder with
          spans := Function.update decoder.spans line
            (decoder.spans line ++ [⟨start, stop, groups, ty, mods⟩]) }

/-- `decode_tokens`. -/
def decodeTokens (tokens : List SemanticToken) (legend : SemanticLegend)
    (encoding : PositionEncoding) (buffer : Buffer E) : Nat → List SemanticSpan :=
  (tokens.foldl (decodeToken legend encoding buffer) ⟨fun _ => [], 0, 0, none⟩).spans

/-! ### Absolute places -/

/-- The running sums of the deltas, from a place on: line, column, token. -/
def absoluteFrom : Nat → Nat → List SemanticToken → List (Nat × Nat × SemanticToken)
  | _, _, [] => []
  | line, start, tok :: tokens =>
      let line' := line + tok.deltaLine.toNat
      let start' :=
        if 0 < tok.deltaLine.toNat then tok.deltaStart.toNat else start + tok.deltaStart.toNat
      (line', start', tok) :: absoluteFrom line' start' tokens

/-- The span of a token on a row, its sums cut at the greatest `u32`. -/
def spanAt (legend : SemanticLegend) (encoding : PositionEncoding) (buffer : Buffer E) (row : Nat)
    (absolute : Nat × Nat × SemanticToken) : Option SemanticSpan :=
  let (line, character, tok) := absolute
  let start := columnByte encoding (buffer.lineCow row) (min character maxU32)
  let stop := columnByte encoding (buffer.lineCow row) (min (character + tok.length.toNat) maxU32)
  if min line maxU32 = row ∧ row < buffer.lineCount ∧ start < stop then
    (classify tok legend).map fun (ty, mods, groups) => ⟨start, stop, groups, ty, mods⟩
  else none

/-- No sum is cut inside the document: one past the greatest `u32` is past the last line, or past the
end of its line. -/
def Uncut (buffer : Buffer E) (tokens : List SemanticToken) : Prop :=
  ∀ place ∈ absoluteFrom 0 0 tokens,
    (place.1 ≤ maxU32 ∨ buffer.lineCount ≤ maxU32) ∧
    (place.2.1 + place.2.2.length.toNat ≤ maxU32 ∨ size (buffer.lineCow place.1) ≤ maxU32)

end Bemtvi.Lsp.Semantic
