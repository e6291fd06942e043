/-
Module: Bemtvi.Core.Quickfix
Purpose: One stack of quickfix lists, the buffer that shows its current list with the severity marks on
  it, and the commands that fill, walk and jump.
Trusted boundary: human-reviewed model of bemtvi-core/src/editor/quickfix.rs:23-194, 410-430, 620-640,
  724-884, 1009-1192, 1408-1500 and buffers.rs:1559-1580; the `btv.qf.text` block and the paths of other
  buffers are parameters
Main exports: QfEntry, QfList, QfStack, renderText, refreshWindow, State, Command, step
-/
import Bemtvi.Core.Buffer

namespace Bemtvi.Core.Quickfix

open Utf8

/-! ### Lists -/

/-- `QfAction`. -/
inductive QfAction where
  | new
  | add
  | replace
deriving Repr, DecidableEq

/-- `QfEntry`. -/
structure QfEntry where
  filename : Option Text
  bufnr : Int
  module : Text
  lnum : Nat
  endLnum : Nat
  col : Nat
  endCol : Nat
  vcol : Bool
  nr : Int
  pattern : Text
  text : Text
  typ : UInt8
  valid : Bool
deriving Repr, DecidableEq

/-- `QfList`. -/
structure QfList where
  items : List QfEntry
  title : Text
  idx : Nat
deriving Repr, DecidableEq

def QfList.default : QfList := ⟨[], [], 0⟩

/-- `QfList::apply`. -/
def QfList.apply (list : QfList) (items : List QfEntry) (action : QfAction) (title : Option Text) : QfList :=
  let items := match action with
    | .add => list.items ++ items
    | .new | .replace => items
  { items
    title := title.getD list.title
    idx := if action = .add then list.idx else if items = [] then 0 else 1 }

/-- `QF_MAXLISTS`. -/
def qfMaxLists : Nat := 10

/-- `QfStack`. -/
structure QfStack where
  lists : List QfList
  cur : Nat
deriving Repr, DecidableEq

namespace QfStack

def current (stack : QfStack) : Option QfList := stack.lists[stack.cur]?

/-- `QfStack::apply`. -/
def apply (stack : QfStack) (items : List QfEntry) (action : QfAction) (title : Option Text) : QfStack :=
  match action with
  | .new =>
      let lists := stack.lists.take (stack.cur + 1) ++ [QfList.default.apply items .new title]
      let lists := if lists.length > qfMaxLists then lists.drop 1 else lists
      ⟨lists, lists.length - 1⟩
  | action =>
      if stack.lists = [] then ⟨[QfList.default.apply items action title], 0⟩
      else { stack with lists := stack.lists.modify stack.cur fun list => list.apply items action title }

/-- `older`: the stack, and whether it moved. -/
def older (stack : QfStack) (count : Nat) : QfStack × Bool :=
  let target := stack.cur - max count 1
  ({ stack with cur := target }, target != stack.cur)

/-- `newer`. -/
def newer (stack : QfStack) (count : Nat) : QfStack × Bool :=
  if stack.lists = [] then (stack, false)
  else
    let target := min (min (stack.cur + max count 1) (2 ^ 64 - 1)) (stack.lists.length - 1)
    ({ stack with cur := target }, target != stack.cur)

end QfStack

/-! ### Rendering -/

/-- A number as an `i64`. -/
def asI64 (n : Nat) : Int := if n % 2 ^ 64 < 2 ^ 63 then (n % 2 ^ 64 : Nat) else (n % 2 ^ 64 : Nat) - 2 ^ 64

/-- `QfFields`: an entry as the block sees it. -/
structure QfFields where
  filename : Text
  bufnr : Int
  module : Text
  lnum : Int
  endLnum : Int
  col : Int
  endCol : Int
  vcol : Bool
  nr : Int
  pattern : Text
  text : Text
  typ : Text
  valid : Bool
deriving Repr, DecidableEq

/-- `qf_fields`. -/
def qfFields (entry : QfEntry) : QfFields where
  filename := entry.filename.getD []
  bufnr := entry.bufnr
  module := entry.module
  lnum := asI64 entry.lnum
  endLnum := asI64 entry.endLnum
  col := asI64 entry.col
  endCol := asI64 entry.endCol
  vcol := entry.vcol
  nr := entry.nr
  pattern := entry.pattern
  text := entry.text
  typ := if entry.typ = 0 then [] else [Char.ofNat entry.typ.toNat]
  valid := entry.valid

/-- A `btv.qf.text` block: an entry and its number to its row, or a failure. -/
abbrev TextFn := QfFields → Nat → Except Text Text

/-- `replace('\n', " ")`. -/
def flattenLines (text : Text) : Text := text.map fun c => if c = '\n' then ' ' else c

/-- `qf_render_line`. -/
def renderLine (entry : QfEntry) : Text :=
  let loc :=
    if entry.lnum > 0 then
      (toString entry.lnum).toList ++
        (if entry.col > 0 then " col ".toList ++ (toString entry.col).toList else [])
    else []
  entry.filename.getD [] ++ '|' :: loc ++ '|' :: ' ' :: flattenLines entry.text

/-- `qf_type_hl`. -/
def qfTypeHl (typ : UInt8) : Option Text :=
  let c := Char.ofNat typ.toNat
  if c = 'E' ∨ c = 'e' then some "DiagnosticError".toList
  else if c = 'W' ∨ c = 'w' then some "DiagnosticWarn".toList
  else if c = 'I' ∨ c = 'i' then some "DiagnosticInfo".toList
  else if c = 'N' ∨ c = 'n' ∨ c = 'H' ∨ c = 'h' then some "DiagnosticHint".toList
  else none

/-- The rows of a block, from a number on; the failure that stopped it. -/
def blockRows (block : TextFn) (number : Nat) : List QfEntry → Except Text (List Text)
  | [] => .ok []
  | entry :: entries =>
      match block (qfFields entry) number with
      | .error message => .error message
      | .ok row => (blockRows block (number + 1) entries).map fun rows => flattenLines row :: rows

/-- `join("\n")`. -/
def joinRows : List Text → Text
  | [] => []
  | [row] => row
  | row :: rows => row ++ '\n' :: joinRows rows

/-- A severity mark: its bytes and its group. -/
structure Mark where
  start : Nat
  stop : Nat
  group : Text
deriving Repr, DecidableEq

/-- What a jump goes to: an entry's file and place, or nothing but its text. -/
inductive Jump where
  | file (filename : Text) (line col : Nat)
  | text (text : Text)
deriving Repr, DecidableEq

/-- A stack with its display buffer. -/
structure State where
  stack : QfStack
  textFn : Option TextFn
  contents : Text
  marks : List Mark
  echo : Text
  jumped : Option Jump

namespace State

/-- `qf_cur`. -/
def cur (s : State) : QfList := s.stack.current.getD .default

/-- The rows the current list is shown with. -/
def rows (s : State) : List Text :=
  match s.textFn with
  | none => s.cur.items.map renderLine
  | some block =>
      match blockRows block 1 s.cur.items with
      | .ok rows => rows
      | .error _ => s.cur.items.map renderLine

/-- `qf_render_text`; a block that fails is uninstalled. -/
def renderText (s : State) : State × Text :=
  match s.textFn with
  | none => (s, joinRows (s.cur.items.map renderLine))
  | some block =>
      match blockRows block 1 s.cur.items with
      | .ok rows => (s, joinRows rows)
      | .error message =>
          ({ s with
              textFn := none
              echo := "btv.qf.text: ".toList ++ message ++ " — default rendering restored".toList },
            joinRows (s.cur.items.map renderLine))

end State

/-- The text that `load_str_into` leaves: it ends in a newline. -/
def load (contents : Text) : Text :=
  if contents.getLast? = some '\n' then contents else contents ++ ['\n']

/-- `line_count`. -/
def lineCount (text : Text) : Nat := (lines text).length - 1

/-- The lines shown. -/
def shown (text : Text) : List Text := ((lines text).take (lineCount text)).map stripEol

/-- `qf_paint_severity`, from a row on. -/
def paintSeverity (text : Text) (row : Nat) : List (Option Text) → List Mark
  | [] => []
  | none :: groups => paintSeverity text (row + 1) groups
  | some group :: groups =>
      if row ≥ lineCount text then []
      else
        ⟨lineStart text row, lineStart text row + size (stripEol ((lines text)[row]?.getD [])), group⟩ ::
          paintSeverity text (row + 1) groups

namespace State

/-- `qf_refresh_window`. -/
def refreshWindow (s : State) : State :=
  let rendered := s.renderText
  let contents := load rendered.2
  { rendered.1 with
    contents
    marks := paintSeverity contents 0 (rendered.1.cur.items.map fun entry => qfTypeHl entry.typ) }

/-! ### Commands -/

/-- `qf_set_items`. -/
def setItems (s : State) (items : List QfEntry) (action : QfAction) (title : Option Text) : State :=
  refreshWindow { s with stack := s.stack.apply items action title }

/-- `set_qf_text`, with a block that compiled. -/
def setText (s : State) (block : Option TextFn) : State := refreshWindow { s with textFn := block }

/-- `ex_qf_history`. -/
def history (s : State) (label : Text) (newer : Bool) (count : Nat) : State :=
  if s.stack.lists = [] then { s with echo := "E380: At bottom of quickfix stack".toList }
  else
    let walked := if newer then s.stack.newer count else s.stack.older count
    if walked.2 then
      let s := refreshWindow { s with stack := walked.1 }
      { s with
        echo := s.cur.title ++ " (".toList ++ label ++ " list ".toList ++
          (toString (s.stack.cur + 1)).toList ++ " of ".toList ++
          (toString s.stack.lists.length).toList ++ "); ".toList ++
          (toString s.cur.items.length).toList ++ " items".toList }
    else
      { s with echo := (if newer then "E381: At top of quickfix stack" else
          "E380: At bottom of quickfix stack").toList }

end State

section
variable (pathOf : Int → Option Text)

/-- Where an entry's jump goes. -/
def jumpOf (entry : QfEntry) : Jump :=
  match entry.filename.or (if entry.bufnr > 0 then pathOf entry.bufnr else none) with
  | some filename => .file filename (entry.lnum - 1) (entry.col - 1)
  | none => .text entry.text

/-- `qf_jump_to_index`. -/
def jumpToIndex (s : State) (idx : Nat) : State :=
  match s.cur.items[idx]? with
  | none => { s with echo := "E42: No Errors".toList }
  | some entry =>
      let stack := { s.stack with lists := s.stack.lists.modify s.stack.cur ({ · with idx := idx + 1 }) }
      match jumpOf pathOf entry with
      | .text text => { s with stack, jumped := some (.text text), echo := text }
      | jump => { s with stack, jumped := some jump }

/-- `ex_qf_cc`. -/
def cc (s : State) (nr : Option Nat) : State :=
  if s.cur.items = [] then { s with echo := "E42: No Errors".toList }
  else
    let idx := (nr.getD s.cur.idx) - 1
    jumpToIndex pathOf s (min idx (s.cur.items.length - 1))

/-- The loop of `ex_qf_step` forward: the index it stops at, from an index on. -/
def stepForward (valid : List Bool) (idx remaining : Nat) : Option Nat :=
  match valid with
  | [] => none
  | true :: valid => if remaining = 1 then some idx else stepForward valid (idx + 1) (remaining - 1)
  | false :: valid => stepForward valid (idx + 1) remaining

/-- The loop of `ex_qf_step` backward, over the entries before the current one, nearest first. -/
def stepBackward (valid : List Bool) (remaining : Nat) : Option Nat :=
  match valid with
  | [] => none
  | true :: before => if remaining = 1 then some before.length else stepBackward before (remaining - 1)
  | false :: before => stepBackward before remaining

/-- `ex_qf_step`. -/
def exStep (s : State) (forward : Bool) (count : Nat) : State :=
  let valid := s.cur.items.map (·.valid)
  if valid.any id then
    let found :=
      if forward then stepForward (valid.drop s.cur.idx) s.cur.idx (max count 1)
      else stepBackward (valid.take (s.cur.idx - 1)).reverse (max count 1)
    match found with
    | some idx => jumpToIndex pathOf s idx
    | none => { s with echo := "E553: No more items".toList }
  else { s with echo := "E42: No Errors".toList }

/-- `qf_file_key`. -/
def fileKey (entry : QfEntry) : Option Text :=
  entry.filename.or
    (if entry.bufnr > 0 then some (Char.ofNat 0 :: "buf".toList ++ (toString entry.bufnr).toList) else none)

/-- The loop of `ex_qf_step_file`, over the entries ahead with their indices. -/
def stepFiles (before : Option Text) (remaining : Nat) : List (Option Text × Nat) → Option Nat
  | [] => none
  | (none, _) :: ahead => stepFiles before remaining ahead
  | (some key, idx) :: ahead =>
      if some key = before then stepFiles before remaining ahead
      else if remaining = 1 then some idx
      else stepFiles (some key) (remaining - 1) ahead

/-- `ex_qf_step_file`. -/
def exStepFile (s : State) (forward : Bool) (count : Nat) : State :=
  let keys := s.cur.items.map fileKey
  if keys.any (·.isSome) then
    let before := if s.cur.idx = 0 then none else (keys[s.cur.idx - 1]?).join
    let ahead := if forward then keys.zipIdx.drop s.cur.idx else (keys.zipIdx.take (s.cur.idx - 1)).reverse
    match stepFiles before (max count 1) ahead with
    | some idx => jumpToIndex pathOf s idx
    | none => { s with echo := "E553: No more items".toList }
  else { s with echo := "E42: No Errors".toList }

/-- `qf_jump_valid`. -/
def jumpValid (s : State) (found : Option Nat) : State :=
  match found with
  | some idx => jumpToIndex pathOf s idx
  | none => { s with echo := "E42: No Errors".toList }

/-- `ex_qf_first`. -/
def exFirst (s : State) : State := jumpValid pathOf s (s.cur.items.findIdx? (·.valid))

/-- `ex_qf_last`. -/
def exLast (s : State) : State :=
  jumpValid pathOf s ((s.cur.items.reverse.findIdx? (·.valid)).map (s.cur.items.length - 1 - ·))

/-- What is done with a stack. -/
inductive Command where
  | setItems (items : List QfEntry) (action : QfAction) (title : Option Text)
  | setText (block : Option TextFn)
  | history (label : Text) (newer : Bool) (count : Nat)
  | cc (nr : Option Nat)
  | step (forward : Bool) (count : Nat)
  | stepFile (forward : Bool) (count : Nat)
  | first
  | last
  /-- The display buffer's `jump`, on a row. -/
  | jump (row : Nat)

/-- One command. -/
def step (s : State) : Command → State
  | .setItems items action title => s.setItems items action title
  | .setText block => s.setText block
  | .history label newer count => s.history label newer count
  | .cc nr => cc pathOf s nr
  | .step forward count => exStep pathOf s forward count
  | .stepFile forward count => exStepFile pathOf s forward count
  | .first => exFirst pathOf s
  | .last => exLast pathOf s
  | .jump row => jumpToIndex pathOf s row

end

/-- An empty stack and its display buffer. -/
def State.new : State := State.refreshWindow ⟨⟨[], 0⟩, none, [], [], [], none⟩

/-- The states a stack with its display buffer gets to. -/
def run (pathOf : Int → Option Text) (commands : List Command) : State :=
  commands.foldl (step pathOf) .new

end Bemtvi.Core.Quickfix
