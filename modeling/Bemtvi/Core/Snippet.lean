/-
Module: Bemtvi.Core.Snippet
Purpose: Snippet bodies: the bytes of a body parsed into a tree, every number's default text, and the
  tree laid out as a text with the places of its tabstops.
Trusted boundary: human-reviewed model of snippet.rs:21-412; the cursor is the bytes that are left, a
  list of nodes is a tree of first node and rest, and how deep calls may nest is not modelled
Main exports: Nodes, Outcome, parseNodes, parseSnippet, resolveDefaults, renderDefault, layout,
  ParsedSnippet
-/
import Bemtvi.Lib.Utf8Bytes

namespace Bemtvi.Core.Snippet

open Utf8

/-! ### The tree -/

/-- A list of nodes: literal text or a tabstop in front of the rest. -/
inductive Nodes where
  | nil
  | text (literal : Text) (rest : Nodes)
  | stop (index : UInt32) (body : Nodes) (choices : List Text) (rest : Nodes)
deriving DecidableEq

inductive SnippetError where
  | unsupported (construct : String)
  | malformed (what : String)
deriving Repr, DecidableEq

/-- What a call gives; a panic is a slice past the end or inside a character, and a call that has gone
on for more steps than it was allowed. -/
inductive Outcome (α : Type) where
  | ok (value : α)
  | error (what : SnippetError)
  | panicked
deriving DecidableEq

namespace Outcome

variable {α β : Type}

def bind (outcome : Outcome α) (next : α → Outcome β) : Outcome β :=
  match outcome with
  | ok value => next value
  | error what => .error what
  | panicked => .panicked

def map (f : α → β) (outcome : Outcome α) : Outcome β := outcome.bind fun value => ok (f value)

end Outcome

/-! ### Characters and numbers -/

/-- `str::from_utf8`. -/
def fromUtf8 (slice : List UInt8) : Option Text :=
  slice.toByteArray.utf8Decode?.map Array.toList

/-- `utf8_len`. -/
def utf8Len (b : UInt8) : Nat :=
  if b ≤ 0x7f then 1
  else if 0xc0 ≤ b ∧ b ≤ 0xdf then 2
  else if 0xe0 ≤ b ∧ b ≤ 0xef then 3
  else 4

/-- The character whose first byte is `b`, sliced from the bytes that start with it. -/
def sliceChar (b : UInt8) (bytes : List UInt8) : Option Text :=
  if utf8Len b ≤ bytes.length then fromUtf8 (bytes.take (utf8Len b)) else none

def isAsciiDigit (b : UInt8) : Bool := byteOf '0' ≤ b && b ≤ byteOf '9'

/-- The bytes of an identifier. -/
def isIdentByte (b : UInt8) : Bool :=
  isAsciiDigit b || (byteOf 'A' ≤ b && b ≤ byteOf 'Z') || (byteOf 'a' ≤ b && b ≤ byteOf 'z') ||
    b = byteOf '_'

def maxU32 : Nat := 2 ^ 32 - 1

/-- `parse_int`, of a run of digits. -/
def decimal (digits : List UInt8) : UInt32 :=
  UInt32.ofNat (digits.foldl (fun n b => min (min (n * 10) maxU32 + (b - byteOf '0').toNat) maxU32) 0)

/-- `parse_int`. -/
def parseInt (bytes : List UInt8) : UInt32 × List UInt8 :=
  (decimal (bytes.takeWhile isAsciiDigit), bytes.dropWhile isAsciiDigit)

/-- `read_ident`. -/
def readIdent (bytes : List UInt8) : String :=
  String.ofList ((bytes.takeWhile isIdentByte).map charOf)

/-! ### Parsing -/

/-- `expect_close`. -/
def expectClose : List UInt8 → Outcome (List UInt8)
  | b :: rest => if b = byteOf '\x7d' then .ok rest else .error (.malformed "expected `\x7d`")
  | [] => .error (.malformed "expected `\x7d`")

/-- `parse_choices`, in so many steps, from the choices and the text there are. -/
def parseChoices : Nat → List Text → Text → List UInt8 → Outcome (List Text × List UInt8)
  | 0, _, _, _ => .panicked
  | _ + 1, _, _, [] => .error (.malformed "unterminated choice `$\x7bN|…|\x7d`")
  | steps + 1, choices, cur, c :: rest =>
      if c = byteOf '\\' ∧ rest ≠ [] then
        let n := rest.headD 0
        if n = byteOf ',' ∨ n = byteOf '|' ∨ n = byteOf '\\' then
          parseChoices steps choices (cur ++ [charOf n]) rest.tail
        else parseChoices steps choices (cur ++ ['\\']) rest
      else if c = byteOf ',' then parseChoices steps (choices ++ [cur]) [] rest
      else if c = byteOf '|' then
        (expectClose rest).map fun rest => (choices ++ [cur], rest)
      else
        match sliceChar c (c :: rest) with
        | some literal =>
            parseChoices steps choices (cur ++ literal) ((c :: rest).drop (utf8Len c))
        | none => .panicked

/-- What stands behind a `$`, without the list it starts. -/
structure Stop where
  index : UInt32
  body : Nodes
  choices : List Text

/-- `parse_braced`, behind the brace; `nodes` reads the nodes up to the closing one. -/
def parseBraced (nodes : List UInt8 → Outcome (Nodes × List UInt8)) (bytes : List UInt8) :
    Outcome (Stop × List UInt8) :=
  if (bytes.head?.map isAsciiDigit).getD false then
    let (index, rest) := parseInt bytes
    match rest with
    | b :: rest =>
        if b = byteOf '\x7d' then .ok (⟨index, .nil, []⟩, rest)
        else if b = byteOf ':' then
          (nodes rest).bind fun (body, rest) =>
            (expectClose rest).map fun rest => (⟨index, body, []⟩, rest)
        else if b = byteOf '|' then
          (parseChoices (rest.length + 1) [] [] rest).map fun (choices, rest) =>
            (⟨index, .nil, choices⟩, rest)
        else if b = byteOf '/' then
          .error (.unsupported ("transform on tabstop $" ++ toString index.toNat))
        else .error (.malformed ("unterminated `$\x7b" ++ toString index.toNat ++ "…\x7d`"))
    | [] => .error (.malformed ("unterminated `$\x7b" ++ toString index.toNat ++ "…\x7d`"))
  else .error (.unsupported ("variable placeholder `$\x7b" ++ readIdent bytes ++ "…\x7d`"))

/-- `parse_dollar`, behind the `$`. -/
def parseDollar (nodes : List UInt8 → Outcome (Nodes × List UInt8)) :
    List UInt8 → Outcome (Stop × List UInt8)
  | [] => .error (.malformed "trailing `$`")
  | b :: rest =>
      if b = byteOf '\x7b' then parseBraced nodes rest
      else if isAsciiDigit b then
        let (index, rest) := parseInt (b :: rest)
        .ok (⟨index, .nil, []⟩, rest)
      else .error (.unsupported ("variable `$" ++ readIdent (b :: rest) ++ "`"))

/-- The literal so far, unless it is empty, in front of nodes. -/
def flush (lit : Text) (nodes : Nodes) : Nodes :=
  if lit = [] then nodes else .text lit nodes

/-- `parse_nodes`, in so many steps, from the literal there is. -/
def parseNodes : Nat → Bool → Text → List UInt8 → Outcome (Nodes × List UInt8)
  | 0, _, _, _ => .panicked
  | _ + 1, _, lit, [] => .ok (flush lit .nil, [])
  | steps + 1, inBrace, lit, c :: rest =>
      if c = byteOf '\x7d' ∧ inBrace = true then .ok (flush lit .nil, c :: rest)
      else if c = byteOf '\\' ∧ rest ≠ [] then
        let n := rest.headD 0
        if n = byteOf '$' ∨ n = byteOf '\x7d' ∨ n = byteOf '\\' then
          parseNodes steps inBrace (lit ++ [charOf n]) rest.tail
        else parseNodes steps inBrace (lit ++ ['\\']) rest
      else if c = byteOf '$' then
        (parseDollar (parseNodes steps true []) rest).bind fun (stop, rest) =>
          (parseNodes steps inBrace [] rest).map fun (nodes, rest) =>
            (flush lit (.stop stop.index stop.body stop.choices nodes), rest)
      else
        match sliceChar c (c :: rest) with
        | some literal =>
            parseNodes steps inBrace (lit ++ literal) ((c :: rest).drop (utf8Len c))
        | none => .panicked

/-- The tree of a whole body. -/
def parseTree (src : List UInt8) : Outcome Nodes :=
  (parseNodes (src.length + 1) false [] src).bind fun (nodes, rest) =>
    if rest = [] then .ok nodes else .error (.malformed "unexpected `\x7d`")

/-! ### Defaults and layout -/

/-- The texts of the numbers that have one. -/
abbrev Defaults := UInt32 → Option Text

/-- `entry(index).or_insert(text)`. -/
def Defaults.orInsert (defaults : Defaults) (index : UInt32) (text : Text) : Defaults :=
  Function.update defaults index (some ((defaults index).getD text))

/-- `render_default`. -/
def renderDefault (defaults : Defaults) : Nodes → Text
  | .nil => []
  | .text literal rest => literal ++ renderDefault defaults rest
  | .stop index body choices rest =>
      (match choices with
        | first :: _ => first
        | [] => if body = Nodes.nil then (defaults index).getD [] else renderDefault defaults body) ++
        renderDefault defaults rest

/-- `resolve_defaults`. -/
def resolveDefaults : Nodes → Defaults → Defaults
  | .nil, defaults => defaults
  | .text _ rest, defaults => resolveDefaults rest defaults
  | .stop index body choices rest, defaults =>
      let own :=
        match choices with
        | first :: _ => defaults.orInsert index first
        | [] =>
            if body = Nodes.nil then defaults
            else defaults.orInsert index (renderDefault defaults body)
      resolveDefaults rest (resolveDefaults body own)

/-- A range of bytes. -/
abbrev Span := Nat × Nat

/-- `entry(index).or_default().push(span)`, of a map in the order of its keys. -/
def pushSpan : List (UInt32 × List Span) → UInt32 → Span → List (UInt32 × List Span)
  | [], index, span => [(index, [span])]
  | (key, spans) :: rest, index, span =>
      if index < key then (index, [span]) :: (key, spans) :: rest
      else if index = key then (key, spans ++ [span]) :: rest
      else (key, spans) :: pushSpan rest index span

/-- What has been laid out. -/
structure Layout where
  text : Text
  spans : List (UInt32 × List Span)
  choices : UInt32 → Option (List Text)

/-- `layout`. -/
def layout (defaults : Defaults) : Nodes → Layout → Layout
  | .nil, out => out
  | .text literal rest, out => layout defaults rest { out with text := out.text ++ literal }
  | .stop index body choices rest, out =>
      let start := size out.text
      let own :=
        match choices with
        | first :: _ =>
            { out with
              text := out.text ++ first
              choices := Function.update out.choices index
                (some ((out.choices index).getD choices)) }
        | [] =>
            if body = Nodes.nil then { out with text := out.text ++ (defaults index).getD [] }
            else layout defaults body out
      layout defaults rest
        { own with spans := pushSpan own.spans index (start, size own.text) }

/-! ### Parsed snippets -/

structure TabStop where
  index : UInt32
  spans : List Span
  choices : List Text
deriving DecidableEq

structure ParsedSnippet where
  text : Text
  stops : List TabStop
deriving DecidableEq

/-- Where a number comes in the order of the stops. -/
def sortKey (index : UInt32) : Nat := if index = 0 then maxU32 else index.toNat

/-- The stops of a layout, in their order. -/
def Layout.stops (out : Layout) : List TabStop :=
  (out.spans.map fun (index, spans) =>
    { index := index
      spans := spans.insertionSort fun a b => a.1 ≤ b.1
      choices := (out.choices index).getD [] }).insertionSort
    fun a b => sortKey a.index ≤ sortKey b.index

/-- Nothing laid out yet. -/
def Layout.empty : Layout := ⟨[], [], fun _ => none⟩

/-- The snippet of a tree. -/
def laidOut (nodes : Nodes) : ParsedSnippet :=
  let out := layout (resolveDefaults nodes fun _ => none) nodes .empty
  ⟨out.text, out.stops⟩

/-- `parse_snippet`. -/
def parseSnippet (src : List UInt8) : Outcome ParsedSnippet := (parseTree src).map laidOut

end Bemtvi.Core.Snippet
