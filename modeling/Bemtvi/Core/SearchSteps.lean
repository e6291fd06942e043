/-
Module: Bemtvi.Core.SearchSteps
Purpose: Stepping through the matches of a search: the scans forward and backward over a buffer's lines,
  the walk of a count, where the cursor settles on a match, and the preview of a pattern being typed.
Trusted boundary: human-reviewed model of bemtvi-core/src/editor/search.rs:384-536 and 607-708 (no offset,
  no operator), editor/cursor.rs:95-135, 244-280 and 339-364, and src/search.rs:79-117; a line comes with
  its graphemes and with what the regex engine finds in it
Main exports: Line, Buffer, matchForwardFrom, matchBackwardBefore, searchMatches, runSearch, settle, step
-/
import Mathlib

namespace Bemtvi.Core.SearchSteps

/-- A match: the bytes it starts and ends at. -/
abbrev MatchRange := Nat × Nat

/-- A line: the bytes of its text and of its break, where its graphemes start, and the pattern's matches in
it. -/
structure Line where
  len : Nat
  eol : Nat
  graphemes : List Nat
  findAll : List MatchRange
  findFrom : Nat → Option MatchRange

/-- The lines of a buffer. -/
abbrev Buffer := List Line

/-- `SearchDir`. -/
inductive SearchDir where
  | forward
  | backward
deriving Repr, DecidableEq

def SearchDir.opposite : SearchDir → SearchDir
  | .forward => .backward
  | .backward => .forward

/-! ### Places -/

def Line.bytes (line : Line) : Nat := line.len + line.eol

/-- `len_bytes`. -/
def lenBytes (buf : Buffer) : Nat := (buf.map (·.bytes)).sum

/-- `line_start`. -/
def lineStart (buf : Buffer) (line : Nat) : Nat := lenBytes (buf.take line)

/-- `byte_to_line`, within the buffer. -/
def byteToLine : Buffer → Nat → Nat
  | [], _ => 0
  | [_], _ => 0
  | line :: buf, byte => if byte < line.bytes then 0 else byteToLine buf (byte - line.bytes) + 1

/-- `last_char_idx`. -/
def lastCharIdx (buf : Buffer) : Nat := lenBytes buf - 1

/-- A line by its number; nothing past the last. -/
def lineAt (buf : Buffer) (line : Nat) : Line := (buf[line]?).getD ⟨0, 0, [], [], fun _ => none⟩

/-- The grapheme behind a place of a line. -/
def Line.nextGrapheme (line : Line) (col : Nat) : Nat := (line.graphemes.find? (col < ·)).getD line.len

/-- `floor_grapheme`. -/
def Line.floorGrapheme (line : Line) (col : Nat) : Nat :=
  if col ≥ line.len then line.len else ((line.graphemes.filter (· ≤ col)).getLast?).getD 0

/-- `next_grapheme_idx`; its shortcut between two ASCII bytes gives the same. -/
def nextGraphemeIdx (buf : Buffer) (idx : Nat) : Nat :=
  let line := byteToLine buf idx
  let start := lineStart buf line
  let rel := idx - start
  if rel < (lineAt buf line).len then start + (lineAt buf line).nextGrapheme rel
  else min (idx + 1) (lenBytes buf)

/-! ### Scans -/

/-- The lines scanned downward, from a column of the first. -/
def forwardScan (base col : Nat) : Buffer → Option MatchRange
  | [] => none
  | line :: buf =>
      match line.findFrom col with
      | some found => some (base + found.1, base + found.2)
      | none => forwardScan (base + line.bytes) 0 buf

/-- `match_forward_from`. -/
def matchForwardFrom (buf : Buffer) (start : Nat) : Option MatchRange :=
  let line := byteToLine buf (min start (lastCharIdx buf))
  forwardScan (lineStart buf line) (start - lineStart buf line) (buf.drop line)

/-- The last match of a line that starts before a column. -/
def Line.lastBefore (line : Line) (cap : Nat) : Option MatchRange :=
  (line.findAll.takeWhile fun found => found.1 < cap).getLast?

/-- The lines above a line scanned upward. -/
def backwardScan (buf : Buffer) : Nat → Option MatchRange
  | 0 => none
  | line + 1 =>
      match (lineAt buf line).lastBefore ((lineAt buf line).len + 1) with
      | some found => some (lineStart buf line + found.1, lineStart buf line + found.2)
      | none => backwardScan buf line

/-- `match_backward_before`. -/
def matchBackwardBefore (buf : Buffer) (limit : Nat) : Option MatchRange :=
  let line := byteToLine buf (min limit (lastCharIdx buf))
  match (lineAt buf line).lastBefore (limit - lineStart buf line) with
  | some found => some (lineStart buf line + found.1, lineStart buf line + found.2)
  | none => backwardScan buf line

/-- `search_matches`, with 'wrapscan': the match in the direction, else the one from the other end. -/
def searchMatches (buf : Buffer) (dir : SearchDir) (origin : Nat) : Option MatchRange :=
  match dir with
  | .forward => (matchForwardFrom buf (nextGraphemeIdx buf origin)).or (matchForwardFrom buf 0)
  | .backward => (matchBackwardBefore buf origin).or (matchBackwardBefore buf (lenBytes buf))

/-! ### Steps -/

/-- `move_to_match`: the cursor's byte, clamped to the last grapheme of its line. -/
def settle (buf : Buffer) (byte : Nat) : Nat :=
  let byte := min byte (lastCharIdx buf)
  let line := byteToLine buf byte
  let col := min (byte - lineStart buf line) ((lineAt buf line).len - 1)
  lineStart buf line + (lineAt buf line).floorGrapheme col

/-- The walk of `run_search` over a count, from match to match. -/
def walk (buf : Buffer) (dir : SearchDir) : Nat → Nat → Option MatchRange → Option MatchRange
  | 0, _, last => last
  | count + 1, origin, _ =>
      match searchMatches buf dir origin with
      | some hit => walk buf dir count hit.1 (some hit)
      | none => none

/-- `run_search`: the cursor. -/
def runSearch (buf : Buffer) (dir : SearchDir) (count cursor : Nat) : Nat :=
  match walk buf dir count cursor none with
  | some hit => settle buf hit.1
  | none => cursor

/-- `n`, or `N` against the search's direction. -/
def step (buf : Buffer) (dir : SearchDir) (same : Bool) (count cursor : Nat) : Nat :=
  runSearch buf (if same then dir else dir.opposite) (max count 1) cursor

/-- `preview_match`, and where the preview rests. -/
def preview (buf : Buffer) (dir : SearchDir) (origin : Nat) : Nat :=
  match searchMatches buf dir origin with
  | some hit => settle buf hit.1
  | none => settle buf origin

end Bemtvi.Core.SearchSteps
