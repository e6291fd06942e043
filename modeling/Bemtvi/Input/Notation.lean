/-
Module: Bemtvi.Input.Notation
Purpose: Keys and their notation: a string of notation parsed into keys, with the terminal's
  control aliases folded or kept apart, and a key printed back.
Trusted boundary: human-reviewed model of input.rs:14-110, 303-362, 422-654 and 698-710; a string is
  its characters, so a byte of the source's scan is a character where the code compares it
Main exports: Key, KeyCode, parseSpecial, parseKeysRaw, parseKeys, keyToNotation
-/
import Mathlib

namespace Bemtvi.Input

/-! ### Keys -/

abbrev U8 := Fin 256

inductive MouseButton where
  | left
  | right
  | middle
  | wheel
  | move
  | x1
  | x2
deriving Repr, DecidableEq

inductive MouseKind where
  | press
  | drag
  | release
deriving Repr, DecidableEq

inductive WheelDir where
  | up
  | down
  | left
  | right
deriving Repr, DecidableEq

inductive KeyCode where
  | char (c : Char)
  | enter
  | esc
  | backspace
  | tab
  | delete
  | left
  | right
  | up
  | down
  | home
  | end_
  | pageUp
  | pageDown
  | function (n : U8)
  | mouse (button : MouseButton) (clicks : U8) (kind : MouseKind)
  | pasteStart
  | pasteEnd
  | scrollWheel (dir : WheelDir)
deriving Repr, DecidableEq

structure Key where
  code : KeyCode
  ctrl : Bool
  alt : Bool
  shift : Bool
  cmd : Bool
deriving Repr, DecidableEq

namespace Key

def new (code : KeyCode) : Key where
  code := code
  ctrl := false
  alt := false
  shift := false
  cmd := false

def char (c : Char) : Key := new (.char c)

/-- A character with Control held. -/
def ctrlChar (c : Char) : Key := { new (.char c) with ctrl := true }

end Key

/-! ### Parsing -/

/-- `key_from_control_byte`. -/
def keyFromControlByte (c : Char) : Option Key :=
  if c.toNat = 0x0d then some (.new .enter)
  else if c.toNat = 0x1b then some (.new .esc)
  else if c.toNat = 0x09 then some (.new .tab)
  else if c.toNat = 0x08 then some (.new .backspace)
  else if c.toNat ≤ 0x1f then some (.ctrlChar (Char.ofNat (c.toNat ^^^ 0x40)).toLower)
  else none

/-- The number a run of digits stands for. -/
def decimal (digits : List Char) : Nat :=
  digits.foldl (fun n c => 10 * n + (c.toNat - '0'.toNat)) 0

/-- `str::parse::<u8>`, of a run of digits that is not empty. -/
def parseU8 (digits : List Char) : Option U8 :=
  if small : decimal digits < 256 then some ⟨decimal digits, small⟩ else none

/-- `str::split_once('-')`. -/
def splitDash (name : List Char) : Option (List Char × List Char) :=
  if '-' ∈ name then
    some (name.takeWhile (· ≠ '-'), (name.dropWhile (· ≠ '-')).drop 1)
  else none

def mouseName (name : List Char) : Option (MouseButton × MouseKind) :=
  match String.ofList name with
  | "leftmouse" => some (.left, .press)
  | "rightmouse" => some (.right, .press)
  | "middlemouse" => some (.middle, .press)
  | "leftdrag" => some (.left, .drag)
  | "rightdrag" => some (.right, .drag)
  | "middledrag" => some (.middle, .drag)
  | "leftrelease" => some (.left, .release)
  | "rightrelease" => some (.right, .release)
  | "middlerelease" => some (.middle, .release)
  | _ => none

/-- The click count a mouse name starts with, and the rest. -/
def mouseClicks (lower : List Char) : Option (U8 × List Char) :=
  match splitDash lower with
  | some (n, name) =>
      if n ≠ [] ∧ n.all Char.isDigit then (parseU8 n).map fun clicks => (clicks, name)
      else some (1, lower)
  | none => some (1, lower)

def parseMouseNotation (rest : List Char) : Option (MouseButton × U8 × MouseKind) :=
  match mouseClicks (rest.map Char.toLower) with
  | none => none
  | some (clicks, name) =>
      if clicks = 0 ∨ 4 < clicks then none
      else (mouseName name).map fun (button, kind) =>
        (button, if kind = .press then clicks else 1, kind)

/-- The modifiers that a special form starts with. -/
structure Modifiers where
  ctrl : Bool
  shift : Bool
  alt : Bool
  cmd : Bool
deriving Repr, DecidableEq

def Modifiers.none : Modifiers := ⟨false, false, false, false⟩

/-- The modifier that the letter before a dash names. -/
def Modifiers.with (held : Modifiers) (letter : Char) : Option Modifiers :=
  match letter.toUpper with
  | 'C' => some { held with ctrl := true }
  | 'S' => some { held with shift := true }
  | 'A' | 'M' => some { held with alt := true }
  | 'D' => some { held with cmd := true }
  | _ => Option.none

/-- The loop of `parse_special` that strips the modifiers. -/
def stripModifiers (held : Modifiers) : List Char → Modifiers × List Char
  | letter :: '-' :: rest =>
      match held.with letter with
      | some held => stripModifiers held rest
      | none => (held, letter :: '-' :: rest)
  | rest => (held, rest)

/-- The names of the special keys. -/
def namedCode (name : List Char) : Option KeyCode :=
  match String.ofList name with
  | "cr" | "enter" | "return" => some .enter
  | "esc" => some .esc
  | "tab" => some .tab
  | "bs" | "backspace" => some .backspace
  | "del" | "delete" => some .delete
  | "space" => some (.char ' ')
  | "lt" => some (.char '<')
  | "gt" => some (.char '>')
  | "bar" => some (.char '|')
  | "bslash" => some (.char '\\')
  | "nul" => some (.char (Char.ofNat 0))
  | "up" => some .up
  | "down" => some .down
  | "left" => some .left
  | "right" => some .right
  | "home" => some .home
  | "end" => some .end_
  | "pageup" => some .pageUp
  | "pagedown" => some .pageDown
  | "pastestart" => some .pasteStart
  | "pasteend" => some .pasteEnd
  | "scrollwheelup" => some (.scrollWheel .up)
  | "scrollwheeldown" => some (.scrollWheel .down)
  | "scrollwheelleft" => some (.scrollWheel .left)
  | "scrollwheelright" => some (.scrollWheel .right)
  | _ => none

/-- The code that a special form's name stands for, without its modifiers. -/
def parseCode (rest : List Char) : Option KeyCode :=
  let lower := rest.map Char.toLower
  match namedCode lower with
  | some code => some code
  | none =>
      match lower with
      | [] => none
      | [c] => some (.char c)
      | 'f' :: digits => if digits.all Char.isDigit then (parseU8 digits).map .function else none
      | _ => none

/-- A mouse gesture's name, or any other. -/
def parseName (rest : List Char) : Option KeyCode :=
  match parseMouseNotation rest with
  | some (button, clicks, kind) => some (.mouse button clicks kind)
  | none => parseCode rest

def parseSpecial (inner : List Char) : Option Key :=
  let (held, rest) := stripModifiers .none inner
  (parseName rest).map fun code => ⟨code, held.ctrl, held.alt, held.shift, held.cmd⟩

/-- `canonical_ctrl_alias`. -/
def canonicalCtrlAlias (key : Key) : Key :=
  if !key.ctrl || key.alt || key.shift then key
  else match key.code with
    | .char 'i' => .new .tab
    | .char 'm' => .new .enter
    | .char '[' => .new .esc
    | .char 'h' => .new .backspace
    | _ => key

/-- The special form behind a `<`, with the rest of the input behind its `>`. -/
def specialForm (input : List Char) : Option (Key × List Char) :=
  if '>' ∈ input then
    (parseSpecial (input.takeWhile (· ≠ '>'))).map fun key =>
      (key, (input.dropWhile (· ≠ '>')).drop 1)
  else none

theorem specialForm_shorter {input rest : List Char} {key : Key}
    (found : specialForm input = some (key, rest)) : rest.length ≤ input.length := by
  unfold specialForm at found
  split at found
  · rcases Option.map_eq_some_iff.1 found with ⟨key', -, same⟩
    cases same
    have dropped := (input.dropWhile_sublist (· ≠ '>')).length_le
    simp only [List.length_drop]
    omega
  · cases found

/-- `parse_keys_inner`. -/
@[grind =]
def parseKeysInner (fold_aliases : Bool) : List Char → List Key
  | [] => []
  | c :: input =>
      if c = '<' then
        match _found : specialForm input with
        | some (key, rest) =>
            (if fold_aliases then canonicalCtrlAlias key else key) ::
              parseKeysInner fold_aliases rest
        | none => .char '<' :: parseKeysInner fold_aliases input
      else (keyFromControlByte c).getD (.char c) :: parseKeysInner fold_aliases input
termination_by input => input.length
decreasing_by
  · have shorter := specialForm_shorter _found
    simp only [List.length_cons]
    omega
  · exact Nat.lt_succ_self _
  · exact Nat.lt_succ_self _

def parseKeys (input : List Char) : List Key := parseKeysInner true input

def parseKeysRaw (input : List Char) : List Key := parseKeysInner false input

/-! ### Printing -/

def MouseButton.stem : MouseButton → String
  | .left => "Left"
  | .right => "Right"
  | .middle => "Middle"
  | _ => "Left"

def MouseKind.stem : MouseKind → String
  | .press => "Mouse"
  | .drag => "Drag"
  | .release => "Release"

def WheelDir.stem : WheelDir → String
  | .up => "Up"
  | .down => "Down"
  | .left => "Left"
  | .right => "Right"

/-- Whether the code needs angle brackets of its own, and its stem. -/
def Key.stem (key : Key) : Bool × List Char :=
  let modified := key.ctrl || key.alt || key.cmd
  match key.code with
  | .char c =>
      if c = ' ' then (true, "Space".toList)
      else if c = '<' ∧ !modified then (true, "lt".toList)
      else if c = '>' ∧ modified then (true, "gt".toList)
      else (false, [c])
  | .enter => (true, "CR".toList)
  | .esc => (true, "Esc".toList)
  | .backspace => (true, "BS".toList)
  | .tab => (true, "Tab".toList)
  | .delete => (true, "Del".toList)
  | .left => (true, "Left".toList)
  | .right => (true, "Right".toList)
  | .up => (true, "Up".toList)
  | .down => (true, "Down".toList)
  | .home => (true, "Home".toList)
  | .end_ => (true, "End".toList)
  | .pageUp => (true, "PageUp".toList)
  | .pageDown => (true, "PageDown".toList)
  | .function n => (true, 'F' :: Nat.toDigits 10 n)
  | .pasteStart => (true, "PasteStart".toList)
  | .pasteEnd => (true, "PasteEnd".toList)
  | .mouse button clicks kind =>
      let name := button.stem.toList ++ kind.stem.toList
      if kind = .press ∧ 1 < clicks then (true, Nat.toDigits 10 clicks ++ '-' :: name)
      else (true, name)
  | .scrollWheel dir => (true, "ScrollWheel".toList ++ dir.stem.toList)

/-- `key_to_notation`. -/
def keyToNotation (key : Key) : List Char :=
  let (named, base) := key.stem
  if !named && !key.ctrl && !key.alt && !key.cmd then base
  else
    '<' :: (if key.ctrl then "C-".toList else []) ++ (if key.alt then "A-".toList else []) ++
      (if key.cmd then "D-".toList else []) ++
      (if key.shift && named then "S-".toList else []) ++ base ++ ['>']

end Bemtvi.Input
