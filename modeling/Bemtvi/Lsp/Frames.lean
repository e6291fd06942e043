/-
Module: Bemtvi.Lsp.Frames
Purpose: The frames of the synchronous client: `parse_frames` drains every complete
  `Content-Length` frame of a buffer, with a cap on what it holds without a header terminator and
  one on the bodies it waits for.
Trusted boundary: human-reviewed model of sync_client.rs:1203-1290; `from_slice` stands for
  serde_json's parser; a length past `usize` and one past the body cap are skipped alike
Main exports: Json, findSubsequence, parseContentLength, parseFrames, Frame, framing
-/
import Bemtvi.Lib.Framing
import Bemtvi.Lib.Text

namespace Bemtvi.Lsp

open Utf8 (trim)

/-- A JSON value. -/
inductive Json where
  | null
  | bool (value : Bool)
  | int (value : Int)
  | float (bits : UInt64)
  | str (value : String)
  | arr (items : List Json)
  | obj (fields : List (String × Json))

def Json.get : Json → String → Option Json
  | .obj fields, name => fields.lookup name
  | _, _ => none

def Json.asStr : Json → Option String
  | .str text => some text
  | _ => none

def Json.asI64 : Json → Option Int
  | .int n => if -2 ^ 63 ≤ n ∧ n < 2 ^ 63 then some n else none
  | _ => none

def Json.asArray : Json → Option (List Json)
  | .arr items => some items
  | _ => none

/-- The `message` field of a JSON-RPC error object. -/
def errorMessage (err : Json) : String :=
  ((Json.get err "message").bind Json.asStr).getD "lsp error"

/-- The index of the first occurrence of `needle` in `haystack`. -/
def findSubsequence (needle : List UInt8) : List UInt8 → Option Nat
  | [] => none
  | byte :: rest =>
      if needle.isPrefixOf (byte :: rest) then some 0
      else (findSubsequence needle rest).map (· + 1)

/-! ### Headers -/

/-- `text.split("\r\n")`. -/
def splitCrlf : List Char → List (List Char)
  | [] => [[]]
  | '\r' :: '\n' :: rest => [] :: splitCrlf rest
  | c :: rest =>
      match splitCrlf rest with
      | line :: lines => (c :: line) :: lines
      | [] => [[c]]

def splitOnce (delimiter : Char) : List Char → Option (List Char × List Char)
  | [] => none
  | c :: rest =>
      if c = delimiter then some ([], rest)
      else (splitOnce delimiter rest).map fun (front, back) => (c :: front, back)

def eqIgnoreAsciiCase (one two : List Char) : Bool :=
  one.map Char.toLower == two.map Char.toLower

/-- `str::parse::<usize>`, without its upper bound. -/
def parseUsize (text : List Char) : Option Nat :=
  let digits := match text with
    | '+' :: rest => rest
    | _ => text
  if digits ≠ [] ∧ digits.all Char.isDigit then
    some (digits.foldl (fun total c => total * 10 + (c.toNat - '0'.toNat)) 0)
  else none

/-- The value of the first line named `Content-Length`. -/
def contentLength : List (List Char) → Option Nat
  | [] => none
  | line :: lines =>
      match splitOnce ':' line with
      | none => contentLength lines
      | some (name, value) =>
          if eqIgnoreAsciiCase (trim name) "content-length".toList then parseUsize (trim value)
          else contentLength lines

def parseContentLength (header : List UInt8) : Option Nat :=
  match String.fromUTF8? ⟨header.toArray⟩ with
  | none => none
  | some text => contentLength (splitCrlf text.toList)

/-! ### Frames -/

/-- `MAX_FRAME_LEN`: the largest announced body. -/
def maxFrameLen : Nat := 256 * 1024 * 1024

/-- `MAX_HEADER_LEN`: the longest run kept without a terminator in sight. -/
def maxHeaderLen : Nat := 64 * 1024

def terminator : List UInt8 := [13, 10, 13, 10]

section

variable (fromSlice : List UInt8 → Option Json)

/-- The loop of `parse_frames`, on the bytes from its cursor on. -/
@[grind =]
def parseFramesFrom : Nat → List UInt8 → List Json × List UInt8
  | 0, tail => ([], tail)
  | fuel + 1, tail =>
      match findSubsequence terminator tail with
      | none => if tail.length > maxHeaderLen then ([], []) else ([], tail)
      | some hdrEnd =>
          match parseContentLength (tail.take hdrEnd) with
          | none => parseFramesFrom fuel (tail.drop (hdrEnd + 4))
          | some len =>
              if len > maxFrameLen then parseFramesFrom fuel (tail.drop (hdrEnd + 4))
              else if tail.length < hdrEnd + 4 + len then ([], tail)
              else
                let later := parseFramesFrom fuel (tail.drop (hdrEnd + 4 + len))
                match fromSlice ((tail.drop (hdrEnd + 4)).take len) with
                | some message => (message :: later.1, later.2)
                | none => later

/-- Every turn of the loop drops a terminator, so the length bounds the turns. -/
def parseFrames (inbuf : List UInt8) : List Json × List UInt8 :=
  parseFramesFrom fromSlice (inbuf.length + 1) inbuf

/-- A frame of a message: a header that announces the body's length, with no terminator inside and
within the cap up to the last byte of its own, and a body within the other cap. -/
inductive Frame : List UInt8 → Json → Prop where
  | mk (header body : List UInt8) (message : Json)
      (ends : findSubsequence terminator (header ++ terminator) = some header.length)
      (short : header.length + 3 ≤ maxHeaderLen)
      (announces : parseContentLength header = some body.length)
      (fits : body.length ≤ maxFrameLen)
      (reads : fromSlice body = some message) :
      Frame (header ++ terminator ++ body) message

end

/-! ### Finding the terminator -/

variable {haystack needle frame : List UInt8}

theorem findSubsequence_bound {index : Nat} (found : findSubsequence needle haystack = some index) :
    index + needle.length ≤ haystack.length := by
  induction haystack generalizing index with
  | nil => cases found
  | cons byte rest ih =>
      rw [findSubsequence] at found
      split at found
      · next here =>
          cases found
          have front := (List.isPrefixOf_iff_prefix.1 here).length_le
          omega
      · rcases Option.map_eq_some_iff.1 found with ⟨inner, deeper, rfl⟩
        have bound := ih deeper
        rw [List.length_cons]
        omega

/-- Later bytes do not move the first occurrence. -/
theorem findSubsequence_append {index : Nat} (later : List UInt8)
    (found : findSubsequence needle haystack = some index) :
    findSubsequence needle (haystack ++ later) = some index := by
  induction haystack generalizing index with
  | nil => cases found
  | cons byte rest ih =>
      have bound := findSubsequence_bound found
      rw [findSubsequence] at found
      rw [List.cons_append, findSubsequence]
      split at found
      · next here =>
          have front := List.isPrefixOf_iff_prefix.1 here
          have still : needle.isPrefixOf (byte :: (rest ++ later)) = true :=
            List.isPrefixOf_iff_prefix.2 (front.trans (List.prefix_append (byte :: rest) later))
          rw [if_pos still]
          exact found
      · next elsewhere =>
          rcases Option.map_eq_some_iff.1 found with ⟨inner, deeper, rfl⟩
          have not_yet : ¬ needle.isPrefixOf (byte :: (rest ++ later)) = true := by
            intro early
            have front := List.isPrefixOf_iff_prefix.1 early
            apply elsewhere
            apply List.isPrefixOf_iff_prefix.2
            exact List.prefix_of_prefix_length_le front (List.prefix_append (byte :: rest) later)
              (by omega)
          rw [if_neg not_yet, ih deeper]
          rfl

/-! ### The parser takes whole frames -/

variable {fromSlice : List UInt8 → Option Json}

/-- More turns than bytes make no difference. -/
theorem parseFramesFrom_fuel {fuel fuel' : Nat} {tail : List UInt8} (enough : tail.length < fuel)
    (enough' : tail.length < fuel') :
    parseFramesFrom fromSlice fuel tail = parseFramesFrom fromSlice fuel' tail := by
  induction fuel generalizing fuel' tail with
  | zero => cases enough
  | succ fuel ih =>
      cases fuel' with
      | zero => cases enough'
      | succ fuel' =>
          rw [parseFramesFrom, parseFramesFrom]
          cases found : findSubsequence terminator tail with
          | none => rfl
          | some hdrEnd =>
              have bound := findSubsequence_bound found
              have four : terminator.length = 4 := rfl
              have skip : ∀ count, hdrEnd + 4 ≤ count →
                  parseFramesFrom fromSlice fuel (tail.drop count) =
                    parseFramesFrom fromSlice fuel' (tail.drop count) := by
                intro count past
                apply ih <;> rw [List.length_drop] <;> omega
              simp only
              rw [skip _ (Nat.le_refl _)]
              cases parseContentLength (tail.take hdrEnd) with
              | none => rfl
              | some len =>
                  simp only
                  rw [skip (hdrEnd + 4 + len) (Nat.le_add_right _ _)]

theorem parseFrames_head {message : Json} (rest : List UInt8)
    (framed : Frame fromSlice frame message) : parseFrames fromSlice (frame ++ rest) =
      (message :: (parseFrames fromSlice rest).1, (parseFrames fromSlice rest).2) := by
  cases framed with
  | mk header body message ends short announces fits reads =>
      have four : terminator.length = 4 := rfl
      have found : findSubsequence terminator (header ++ terminator ++ body ++ rest) =
          some header.length := by
        rw [List.append_assoc (header ++ terminator)]
        exact findSubsequence_append _ ends
      have head : (header ++ terminator ++ body ++ rest).take header.length = header := by
        rw [List.append_assoc, List.append_assoc, List.take_left']
        rfl
      have after : (header ++ terminator ++ body ++ rest).drop (header.length + 4) =
          body ++ rest := by
        rw [List.append_assoc (header ++ terminator), List.drop_left']
        rw [List.length_append, four]
      have past : (header ++ terminator ++ body ++ rest).drop (header.length + 4 + body.length) =
          rest := by
        rw [← List.drop_drop, after, List.drop_left]
      have long : ¬ (header ++ terminator ++ body ++ rest).length <
          header.length + 4 + body.length := by
        simp only [List.length_append, four]
        omega
      have fuelled : parseFramesFrom fromSlice ((header ++ terminator ++ body ++ rest).length)
          rest = parseFrames fromSlice rest := by
        apply parseFramesFrom_fuel
        · simp only [List.length_append, four]
          omega
        · exact Nat.lt_succ_self _
      rw [parseFrames, parseFramesFrom, found]
      simp only
      rw [head, announces]
      simp only
      rw [if_neg (Nat.not_lt.2 fits), if_neg long, after, past, List.take_left, reads, fuelled]

theorem parseFrames_wait {message : Json} {front : List UInt8}
    (framed : Frame fromSlice frame message) (part : List.IsPrefix front frame)
    (proper : front ≠ frame) : parseFrames fromSlice front = ([], front) := by
  cases framed with
  | mk header body message ends short announces fits reads =>
      have four : terminator.length = 4 := rfl
      rw [parseFrames, parseFramesFrom]
      cases found : findSubsequence terminator front with
      | none =>
          -- No terminator in sight: the part ends inside the header or its terminator.
          have bounded : front.length ≤ header.length + 3 := by
            by_contra longer
            have whole : List.IsPrefix (header ++ terminator) front := by
              apply List.prefix_of_prefix_length_le (List.prefix_append (header ++ terminator) body)
                part
              rw [List.length_append, four]
              omega
            rcases whole with ⟨later, rfl⟩
            rw [findSubsequence_append later ends] at found
            cases found
          simp only
          rw [if_neg (by omega)]
      | some hdrEnd =>
          rcases part with ⟨later, whole⟩
          have same : hdrEnd = header.length := by
            have one := findSubsequence_append later found
            have two := findSubsequence_append body ends
            rw [whole, two] at one
            exact (Option.some.inj one).symm
          subst same
          have bound := findSubsequence_bound found
          rw [four] at bound
          have head : front.take header.length = header := by
            have cut := congrArg (List.take header.length) whole
            rw [List.take_append_of_le_length (by omega), List.append_assoc, List.take_left'] at cut
            · exact cut
            · rfl
          have shorter : front.length < header.length + 4 + body.length := by
            have total := congrArg List.length whole
            simp only [List.length_append, four] at total
            have some_left : later ≠ [] := by
              intro empty
              rw [empty, List.append_nil] at whole
              exact proper whole
            have positive := List.length_pos_iff.2 some_left
            omega
          simp only
          rw [head, announces]
          simp only
          rw [if_neg (Nat.not_lt.2 fits), if_pos shorter]

/-- The parser reads framed streams. -/
theorem framing (fromSlice : List UInt8 → Option Json) :
    Framing.FrameParser (parseFrames fromSlice) (Frame fromSlice) := by
  constructor
  · rfl
  · intro frame message rest framed
    exact parseFrames_head rest framed
  · intro frame message front framed part proper
    exact parseFrames_wait framed part proper

end Bemtvi.Lsp
