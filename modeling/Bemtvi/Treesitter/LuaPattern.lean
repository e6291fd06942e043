/-
Module: Bemtvi.Treesitter.LuaPattern
Purpose: The matcher of Lua's string patterns that `#lua-match?` predicates are decided by: a
  recursion over the pattern that tries the ways through it one after the other and takes back the
  captures of a way that fails.  And what a pattern's text spells.
Trusted boundary: human-reviewed model of bemtvi-ts/src/lua_pattern.rs; bytes are bytes, a position
  in the pattern is the rest of the pattern; the overflow of `d - b'1'` at `%0`, which a build with
  overflow checks panics at, wraps
Main exports: luaMatch, doMatch, Parses, Occurs
-/
import Bemtvi.Lib.Patterns
import Bemtvi.Lib.Utf8Bytes

namespace Bemtvi.Treesitter

open Patterns
open Utf8 (byteOf)

abbrev Bytes := List UInt8

/-! ### Classes of bytes -/

/-- `L_ESC`. -/
def escByte : UInt8 := byteOf '%'

def between (low high : Char) (c : UInt8) : Bool := byteOf low ≤ c && c ≤ byteOf high

def isAsciiLowercase (c : UInt8) : Bool := between 'a' 'z' c
def isAsciiUppercase (c : UInt8) : Bool := between 'A' 'Z' c
def isAsciiAlphabetic (c : UInt8) : Bool := isAsciiLowercase c || isAsciiUppercase c
def isAsciiDigit (c : UInt8) : Bool := between '0' '9' c
def isAsciiAlphanumeric (c : UInt8) : Bool := isAsciiAlphabetic c || isAsciiDigit c
def isAsciiHexdigit (c : UInt8) : Bool := isAsciiDigit c || between 'a' 'f' c || between 'A' 'F' c
def isAsciiGraphic (c : UInt8) : Bool := between '!' '~' c
def isAsciiPunctuation (c : UInt8) : Bool := isAsciiGraphic c && !isAsciiAlphanumeric c
def isAsciiControl (c : UInt8) : Bool := c < 32 || c == 127

/-- C's `isspace`. -/
def isSpace (c : UInt8) : Bool := c == 32 || (9 ≤ c && c ≤ 13)

def toAsciiLowercase (c : UInt8) : UInt8 := if isAsciiUppercase c then c + 32 else c

/-- `match_class`. -/
def matchClass (c cl : UInt8) : Bool :=
  let lower := toAsciiLowercase cl
  let complement (res : Bool) : Bool := if isAsciiUppercase cl then !res else res
  if lower = byteOf 'a' then complement (isAsciiAlphabetic c)
  else if lower = byteOf 'c' then complement (isAsciiControl c)
  else if lower = byteOf 'd' then complement (isAsciiDigit c)
  else if lower = byteOf 'g' then complement (isAsciiGraphic c)
  else if lower = byteOf 'l' then complement (isAsciiLowercase c)
  else if lower = byteOf 'p' then complement (isAsciiPunctuation c)
  else if lower = byteOf 's' then complement (isSpace c)
  else if lower = byteOf 'u' then complement (isAsciiUppercase c)
  else if lower = byteOf 'w' then complement (isAsciiAlphanumeric c)
  else if lower = byteOf 'x' then complement (isAsciiHexdigit c)
  -- Not a class: an escaped byte.
  else cl == c

/-! ### Single items -/

/-- The loop of `class_end` behind a set's `[`: what is behind its `]`. -/
def setEnd : Bytes → Option Bytes
  | [] => none
  | [_] => none
  | cc :: d :: p =>
      if cc = escByte then
        -- An escaped member.
        match p with
        | [] => none
        | d' :: p' => if d' = byteOf ']' then some p' else setEnd (d' :: p')
      else if d = byteOf ']' then some p
      else setEnd (d :: p)

/-- `class_end`: what is behind the single item at the head of a pattern. -/
def classEnd : Bytes → Option Bytes
  | [] => none
  | c :: p =>
      if c = escByte then
        match p with
        | [] => none
        | _ :: p => some p
      else if c = byteOf '[' then
        setEnd (if p.head? = some (byteOf '^') then p.drop 1 else p)
      else some p

/-- The bytes of a pattern in front of a place in it. -/
def upTo (p ep : Bytes) : Bytes := p.take (p.length - ep.length)

/-- The loop of `match_bracket`; the last byte is the set's `]`. -/
def member (c : UInt8) : Bytes → Bool
  | [] => false
  | [_] => false
  | [p, q] => if p = escByte then matchClass c q else p == c
  | p :: q :: hi :: rest =>
      if p = escByte then matchClass c q || member c (hi :: rest)
      else if q = byteOf '-' && !rest.isEmpty then (p ≤ c && c ≤ hi) || member c rest
      else p == c || member c (q :: hi :: rest)

/-- `match_bracket`, on the bytes from `[` to `]`. -/
def matchBracket (c : UInt8) (set : Bytes) : Bool :=
  let members := set.drop 1
  if members.head? = some (byteOf '^') then !member c (members.drop 1) else member c members

/-- What the bytes of a single item say of a byte. -/
def itemTest (item : Bytes) (c : UInt8) : Bool :=
  match item with
  | [] => false
  | pc :: rest =>
      if pc = byteOf '.' then true
      else if pc = escByte then matchClass c (rest.headD 0)
      else if pc = byteOf '[' then matchBracket c item
      else pc == c

/-- `single_match`. -/
def singleMatch (src : Bytes) (s : Nat) (item : Bytes) : Bool :=
  match src[s]? with
  | none => false
  | some c => itemTest item c

/-! ### The recursion -/

section Recursion

-- `do_match`, at the next depth.
variable (go : List Capture → Nat → Bytes → Attempt) (src : Bytes)

/-- `start_capture`. -/
def startCapture (caps : List Capture) (s : Nat) (p : Bytes) (what : Extent) : Attempt :=
  match go (caps ++ [⟨s, what⟩]) s p with
  | (some e, caps) => (some e, caps)
  | (none, caps) => (none, caps.dropLast)

/-- The place of the capture that is closed next: the last unfinished one. -/
def lastUnfinished (caps : List Capture) : Option Nat :=
  (List.range caps.length).reverse.find? fun i =>
    caps[i]?.any fun capture => capture.extent = .unfinished

/-- A capture's extent set. -/
def setExtent (caps : List Capture) (l : Nat) (extent : Nat → Extent) : List Capture :=
  caps.modify l fun capture => { capture with extent := extent capture.init }

/-- `end_capture`. -/
def endCapture (caps : List Capture) (s : Nat) (p : Bytes) : Attempt :=
  match lastUnfinished caps with
  | none => (none, caps)
  | some l =>
      match go (setExtent caps l fun init => .closed (s - init)) s p with
      | (some e, caps) => (some e, caps)
      | (none, caps) => (none, setExtent caps l fun _ => .unfinished)

/-- `match_capture`: the place behind the second copy. -/
def matchCapture (caps : List Capture) (s : Nat) (d : UInt8) : Option Nat :=
  match caps[(d - byteOf '1').toNat]? with
  | some ⟨init, .closed length⟩ =>
      if length ≤ src.length - s ∧ (src.drop s).take length = (src.drop init).take length then
        some (s + length)
      else none
  | _ => none

/-- `match_balance`. -/
def matchBalance (caps : List Capture) (s : Nat) (p : Bytes) : Attempt :=
  match p with
  | b :: e :: rest =>
      if src[s]? = some b then
        match balancedEnd b e 1 (src.drop (s + 1)) with
        | some count => go caps (s + 1 + count) rest
        | none => (none, caps)
      else (none, caps)
  | _ => (none, caps)

/-- The second loop of `max_expand`: back off one at a time. -/
def backOff (s : Nat) (ep : Bytes) : Nat → List Capture → Attempt
  | 0, caps => go caps s ep
  | i + 1, caps =>
      match go caps (s + (i + 1)) ep with
      | (some e, caps) => (some e, caps)
      | (none, caps) => backOff s ep i caps

/-- `max_expand`. -/
def maxExpand (caps : List Capture) (s : Nat) (item ep : Bytes) : Attempt :=
  backOff go s ep ((src.drop s).takeWhile (itemTest item)).length caps

/-- The loop of `min_expand`, over the rest of the text. -/
def extend (item ep : Bytes) : Bytes → List Capture → Nat → Attempt
  | [], caps, s => go caps s ep
  | c :: rest, caps, s =>
      match go caps s ep with
      | (some e, caps) => (some e, caps)
      | (none, caps) => if itemTest item c then extend item ep rest caps (s + 1) else (none, caps)

/-- `min_expand`. -/
def minExpand (caps : List Capture) (s : Nat) (item ep : Bytes) : Attempt :=
  extend go item ep (src.drop s) caps s

/-- `default_match`. -/
def defaultMatch (caps : List Capture) (s : Nat) (p : Bytes) : Attempt :=
  match classEnd p with
  | none => (none, caps)
  | some ep =>
      let item := upTo p ep
      let matched := singleMatch src s item
      match ep with
      | [] => if matched then go caps (s + 1) [] else (none, caps)
      | q :: ep' =>
          if q = byteOf '?' then
            if matched then
              match go caps (s + 1) ep' with
              | (some e, caps) => (some e, caps)
              | (none, caps) => go caps s ep'
            else go caps s ep'
          else if q = byteOf '+' then
            if matched then maxExpand go src caps (s + 1) item ep' else (none, caps)
          else if q = byteOf '*' then maxExpand go src caps s item ep'
          else if q = byteOf '-' then minExpand go src caps s item ep'
          else if matched then go caps (s + 1) (q :: ep') else (none, caps)

/-- The zero-width test of `%f`, on the bytes of its set. -/
def atFrontier (s : Nat) (set : Bytes) : Bool :=
  !matchBracket (if s = 0 then 0 else src.getD (s - 1) 0) set && matchBracket (src.getD s 0) set

/-- `do_match_inner`; each turn of its loop leaves less of the pattern. -/
def doMatchInner : Nat → List Capture → Nat → Bytes → Attempt
  | 0, caps, s, _ => (some s, caps)
  | fuel + 1, caps, s, p =>
      match p with
      | [] => (some s, caps)
      | c :: rest =>
          if c = byteOf '(' then
            if rest.head? = some (byteOf ')') then startCapture go caps s (rest.drop 1) .position
            else startCapture go caps s rest .unfinished
          else if c = byteOf ')' then endCapture go caps s rest
          else if c = byteOf '$' ∧ rest = [] then (if s = src.length then some s else none, caps)
          else if c = escByte then
            match rest with
            | [] => defaultMatch go src caps s p
            | d :: rest' =>
                if d = byteOf 'b' then matchBalance go src caps s rest'
                else if d = byteOf 'f' then
                  if rest'.head? = some (byteOf '[') then
                    match classEnd rest' with
                    | none => (none, caps)
                    | some ep =>
                        if atFrontier src s (upTo rest' ep) then doMatchInner fuel caps s ep
                        else (none, caps)
                  -- Malformed: no set behind `%f`.
                  else (none, caps)
                else if isAsciiDigit d then
                  match matchCapture src caps s d with
                  | none => (none, caps)
                  | some ns => doMatchInner fuel caps ns rest'
                else defaultMatch go src caps s p
          else defaultMatch go src caps s p

end Recursion

/-- `MAX_DEPTH`. -/
def maxDepth : Nat := 200

/-- `do_match`, with the depth that is left. -/
def doMatch (src : Bytes) : Nat → List Capture → Nat → Bytes → Attempt
  | 0, caps, _, _ => (none, caps)
  | depth + 1, caps, s, p => doMatchInner (doMatch src depth) src p.length caps s p

/-- A leading `^`, and the pattern behind it. -/
def anchored (pattern : Bytes) : Bool × Bytes :=
  if pattern.head? = some (byteOf '^') then (true, pattern.drop 1) else (false, pattern)

/-- `lua_match`. -/
def luaMatch (text pattern : Bytes) : Bool :=
  let (anchor, pat) := anchored pattern
  let starts := if anchor then [0] else List.range (text.length + 1)
  starts.any fun s => (doMatch text maxDepth [] s pat).1.isSome

/-! ### What a pattern spells -/

/-- A single item and how often it may stand. -/
def parseSingle (p : Bytes) : Option (Item UInt8 × Bytes) :=
  match classEnd p with
  | none => none
  | some ep =>
      let test := itemTest (upTo p ep)
      match ep with
      | [] => some (.single test .once, [])
      | q :: ep' =>
          if q = byteOf '?' then some (.single test .optional, ep')
          else if q = byteOf '+' then some (.single test .atLeastOnce, ep')
          else if q = byteOf '*' then some (.single test .many, ep')
          else if q = byteOf '-' then some (.single test .few, ep')
          else some (.single test .once, q :: ep')

/-- The first item of a pattern, and the pattern behind it. -/
def parseItem : Bytes → Option (Item UInt8 × Bytes)
  | [] => none
  | c :: rest =>
      if c = byteOf '(' then
        if rest.head? = some (byteOf ')') then some (.positionCapture, rest.drop 1)
        else some (.openCapture, rest)
      else if c = byteOf ')' then some (.closeCapture, rest)
      else if c = byteOf '$' ∧ rest = [] then some (.atEnd, [])
      else if c = escByte then
        match rest with
        | [] => parseSingle (c :: rest)
        | d :: rest' =>
            if d = byteOf 'b' then
              match rest' with
              | opener :: closer :: rest' => some (.balance opener closer, rest')
              | _ => none
            else if d = byteOf 'f' then
              if rest'.head? = some (byteOf '[') then
                (classEnd rest').map fun ep =>
                  (.frontier fun c => matchBracket c (upTo rest' ep), ep)
              else none
            else if isAsciiDigit d then some (.back (d - byteOf '1').toNat, rest')
            else parseSingle (c :: rest)
      else parseSingle (c :: rest)

/-- The items that a pattern spells; none where it is malformed. -/
inductive Parses : Bytes → List (Item UInt8) → Prop where
  | nil : Parses [] []
  | cons {p rest item items} : parseItem p = some (item, rest) → Parses rest items →
      Parses p (item :: items)

/-- The pattern's items lead on from a place of the text, from its start where the pattern is
anchored there. -/
def Occurs (text pattern : Bytes) : Prop :=
  ∃ items s e, Parses (anchored pattern).2 items ∧ s ≤ text.length ∧
    ((anchored pattern).1 = true → s = 0) ∧ Matches text 0 items [] s e

/-- A word of letters. -/
def Plain (p : Bytes) : Prop := ∀ c ∈ p, isAsciiAlphabetic c = true

end Bemtvi.Treesitter
