/-
Module: Bemtvi.Core.Commands
Purpose: The grammar of Normal-mode commands, key by key, with what the counts, the register prefix and the
  operators leave pending, and the keys that `.` feeds to it.
Trusted boundary: human-reviewed model of bemtvi-core/src/editor/command.rs:269-303, 786-926, 1199-1601 and
  1604-1790 in Normal mode, and 3026-3076; the window commands, the fold and view commands behind `z` and the
  names of marks are read from tables
Main exports: Stage, PendingCommand, Command, parseStep, feed, numberedPutRegister, leadingCountLen, repeatKeys
-/
import Bemtvi.Core.Counts
import Bemtvi.Core.Registers

namespace Bemtvi.Core.Commands

open Bemtvi.Input (Key KeyCode)
open Bemtvi.Core.Counts (Motion FindKind accumulate)

/-- `as_char`. -/
def asChar (key : Key) : Option Char :=
  match key.code with
  | .char c => if !key.ctrl && !key.alt && !key.cmd then some c else none
  | _ => none

/-! ### What is pending -/

/-- `Stage`. -/
inductive Stage where
  | start
  | gPending
  | findPending (kind : FindKind)
  | replacePending
  | textObjectPending (ia : Char)
  | windowPending
  | windowLayerPending
  | zPending
  | registerPending
  | recordPending
  | playPending
  | markSetPending
  | markJumpPending (exact : Bool) (setJump : Bool)
deriving Repr, DecidableEq

structure PendingCommand where
  count : Option Nat
  opCount : Option Nat
  operator : Option Char
  register : Option Char
  stage : Stage
deriving Repr, DecidableEq

namespace PendingCommand

def clean : PendingCommand := ⟨none, none, none, none, .start⟩

/-- An operator begins: the count moves before it. -/
def arm (p : PendingCommand) (op : Char) : PendingCommand :=
  { p with operator := some op, opCount := p.count, count := none, stage := .start }

def effectiveCount (p : PendingCommand) : Nat := Counts.effectiveCount ⟨p.operator, p.opCount, p.count⟩

end PendingCommand

/-! ### Commands -/

/-- `NormalCmd`, of Normal mode; the `z` and window commands go by their keys. -/
inductive NormalCmd where
  | insertBefore
  | insertLineStart
  | insertAfter
  | insertLineEnd
  | openBelow
  | openAbove
  | deleteUnder
  | deleteBefore
  | deleteToEol
  | changeToEol
  | yankToEol
  | repeatSubstitute (all : Bool)
  | substituteChar
  | enterReplace
  | pasteAfter
  | pasteBefore
  | dotRepeat
  | undo
  | redo
  | join (spaces : Bool)
  | toggleCase
  | enterVisual
  | enterVisualLine
  | enterSelect (lines : Bool)
  | reselectVisual
  | enterCommand
  | enterExprRegister
  | enterSearch (forward : Bool)
  | searchNext
  | searchPrev
  | searchWord (forward wholeWord : Bool)
  | scrollHalf (down : Bool)
  | scrollPage (down : Bool)
  | scrollLine (down : Bool)
  | jumpBack
  | jumpForward
  | altBuffer
  | addCursor
  | changeOlder
  | changeNewer
  | timeTravel (older : Bool)
  | fold (key : Char)
  | viewScroll (key : Key) (count : Option Nat)
  | gotoByte (count : Option Nat)
  | tabNext (count : Option Nat)
  | tabPrev (count : Option Nat)
  | unimplemented (forced : Bool)
deriving Repr, DecidableEq

/-- `ResolvedCommand`. -/
inductive Command where
  | motion (motion : Motion)
  | doubledOperator (op : Char)
  | operatorSearch (op : Char) (forward : Bool)
  | textObject (ia key : Char)
  | replace (c : Char)
  | window (key : Key)
  | windowLayer (key : Key)
  | macroRecord (name : Char)
  | macroPlay (name : Option Char)
  | setMark (name : Char)
  | normal (cmd : NormalCmd)
deriving Repr, DecidableEq

/-- `ParseStep`; `continues` is its `Prefix`. -/
inductive ParseStep where
  | complete (cmd : Command)
  | continues (next : PendingCommand)
  | reset
  | refuse
  | cancel
  | abortObject
deriving Repr, DecidableEq

/-! ### Tables -/

/-- What the keys behind `<C-w>` and `z` and the names of marks say. -/
structure Tables where
  windowCommand : Key → Bool
  layerWindowCommand : Key → Bool
  foldCommand : Char → Bool
  viewCommand : Key → Bool
  isJumpableMark : Char → Bool

def commentOp : Char := Char.ofNat 0xE000
def foldOp : Char := Char.ofNat 0xE001
def lowerOp : Char := Char.ofNat 0xE002
def upperOp : Char := Char.ofNat 0xE003
def toggleOp : Char := Char.ofNat 0xE004

/-- `case_op_for_key`. -/
def caseOpForKey : Char → Option Char
  | 'u' => some lowerOp
  | 'U' => some upperOp
  | '~' => some toggleOp
  | _ => none

/-- `case_op_key`. -/
def caseOpKey (op : Char) : Option Char :=
  if op = lowerOp then some 'u' else if op = upperOp then some 'U' else if op = toggleOp then some '~' else none

/-- `is_register_name`. -/
def isRegisterName (c : Char) : Bool := c.isAlphanum || "-_\"%/:.+*".toList.contains c

/-- `FindKind::from_key`. -/
def findKind : Char → Option FindKind
  | 'f' => some .find
  | 't' => some .till
  | 'F' => some .findBack
  | 'T' => some .tillBack
  | _ => none

def classifyChar : Char → Option Motion
  | 'h' => some .left
  | 'l' | ' ' => some .right
  | '0' => some .lineStart
  | '^' => some .firstNonBlank
  | '$' => some .lineEnd
  | 'j' | '\r' => some .down
  | 'k' => some .up
  | 'G' => some .gotoLine
  | 'w' => some (.word false)
  | 'W' => some (.word true)
  | 'b' => some (.backWord false)
  | 'B' => some (.backWord true)
  | 'e' => some (.endWord false)
  | 'E' => some (.endWord true)
  | ';' => some (.findRepeat false)
  | ',' => some (.findRepeat true)
  | '%' => some .percent
  | ')' => some (.sentence true)
  | '(' => some (.sentence false)
  | '\x7d' => some (.paragraph true)
  | '\x7b' => some (.paragraph false)
  | '+' => some .lineDownFirst
  | '-' => some .lineUpFirst
  | '_' => some .lineFirst
  | '|' => some .column
  | 'H' => some .windowTop
  | 'M' => some .windowMiddle
  | 'L' => some .windowBottom
  | _ => none

/-- `classify_motion`. -/
def classifyMotion (key : Key) : Option Motion :=
  match key.code with
  | .left | .backspace => some .left
  | .right => some .right
  | .home => some .lineStart
  | .end_ => some .lineEnd
  | .down => some .down
  | .up => some .up
  | .enter => some .lineDownFirst
  | _ => (asChar key).bind classifyChar

/-- `is_blockwise_key`. -/
def isBlockwiseKey (key : Key) : Bool :=
  key.ctrl && !key.alt && (key.code == .char 'v' || key.code == .char 'q')

/-! ### Commands of a key -/

/-- A key behind `g`, before an operator is asked for; the first of the source's arms that name it. -/
def gCommand (p : PendingCommand) : Char → Option ParseStep
  | 'g' => some (.complete (.motion .gotoTop))
  | 'c' => some (.continues (p.arm commentOp))
  | 'j' => some (.complete (.motion .displayDown))
  | 'k' => some (.complete (.motion .displayUp))
  | '0' => some (.complete (.motion .displayLineStart))
  | '^' => some (.complete (.motion .displayFirstNonBlank))
  | '$' => some (.complete (.motion .displayLineEnd))
  | '&' => if p.operator.isNone then some (.complete (.normal (.repeatSubstitute true))) else none
  | 'J' => if p.operator.isNone then some (.complete (.normal (.join false))) else none
  | 'h' => some (.complete (.normal (.enterSelect false)))
  | 'H' => some (.complete (.normal (.enterSelect true)))
  | 'v' => some (.complete (.normal .reselectVisual))
  | 'o' => if p.operator.isNone then some (.complete (.normal (.gotoByte p.count))) else none
  | 't' => some (.complete (.normal (.tabNext p.count)))
  | 'T' => some (.complete (.normal (.tabPrev p.count)))
  | ';' => some (.complete (.normal .changeOlder))
  | ',' => some (.complete (.normal .changeNewer))
  | '-' => some (if p.operator.isSome then .refuse else .complete (.normal (.timeTravel true)))
  | '+' => some (if p.operator.isSome then .refuse else .complete (.normal (.timeTravel false)))
  | '`' => some (.continues { p with stage := .markJumpPending true false })
  | '\'' => some (.continues { p with stage := .markJumpPending false false })
  | c =>
      (caseOpForKey c).map fun op =>
        if p.operator = some op then .complete (.doubledOperator op) else .continues (p.arm op)

/-- A key behind an operator that is not its motion nor its text object. -/
def operatorCommand (op : Char) (gpending : Bool) (key : Key) : ParseStep :=
  match asChar key with
  | some c =>
      if c = op then .complete (.doubledOperator op)
      else if c = 'c' && op == commentOp then .complete (.doubledOperator op)
      else if caseOpKey op = some c then .complete (.doubledOperator op)
      else
        match c with
        | '/' => .complete (.operatorSearch op true)
        | '?' => .complete (.operatorSearch op false)
        | 'n' => .complete (.normal .searchNext)
        | 'N' => .complete (.normal .searchPrev)
        | '*' => .complete (.normal (.searchWord true (!gpending)))
        | '#' => .complete (.normal (.searchWord false (!gpending)))
        | 'v' | 'V' => .complete (.normal (.unimplemented true))
        | _ => .reset
  | none => if isBlockwiseKey key then .complete (.normal (.unimplemented true)) else .reset

/-- A key with Control. -/
def ctrlCommand (p : PendingCommand) (key : Key) : ParseStep :=
  match key.code with
  | .char 'w' => .continues { p with stage := .windowPending }
  | .char 'd' => .complete (.normal (.scrollHalf true))
  | .char 'u' => .complete (.normal (.scrollHalf false))
  | .char 'f' => .complete (.normal (.scrollPage true))
  | .char 'b' => .complete (.normal (.scrollPage false))
  | .char 'e' => .complete (.normal (.scrollLine true))
  | .char 'y' => .complete (.normal (.scrollLine false))
  | .char 'r' => .complete (.normal .redo)
  | .char 'o' => .complete (.normal .jumpBack)
  | .char 'i' => .complete (.normal .jumpForward)
  | .char '^' | .char '6' => .complete (.normal .altBuffer)
  | _ => if isBlockwiseKey key then .complete (.normal (.unimplemented false)) else .reset

/-- A key that completes a command by itself. -/
def singleCommand (gpending : Bool) : Char → Option Command
  | 'i' => some (.normal .insertBefore)
  | 'I' => some (.normal .insertLineStart)
  | 'a' => some (.normal .insertAfter)
  | 'A' => some (.normal .insertLineEnd)
  | 'o' => some (.normal .openBelow)
  | 'O' => some (.normal .openAbove)
  | 'x' => some (.normal .deleteUnder)
  | 'X' => some (.normal .deleteBefore)
  | 'D' => some (.normal .deleteToEol)
  | 'C' => some (.normal .changeToEol)
  | 'Y' => some (.normal .yankToEol)
  | '&' => some (.normal (.repeatSubstitute false))
  | 's' => some (.normal .substituteChar)
  | 'R' => some (.normal .enterReplace)
  | 'S' => some (.doubledOperator 'c')
  | 'p' => some (.normal .pasteAfter)
  | 'P' => some (.normal .pasteBefore)
  | '.' => some (.normal .dotRepeat)
  | 'u' => some (.normal .undo)
  | 'J' => some (.normal (.join true))
  | '~' => some (.normal .toggleCase)
  | 'v' => some (.normal .enterVisual)
  | 'V' => some (.normal .enterVisualLine)
  | ':' => some (.normal .enterCommand)
  | '/' => some (.normal (.enterSearch true))
  | '?' => some (.normal (.enterSearch false))
  | 'n' => some (.normal .searchNext)
  | 'N' => some (.normal .searchPrev)
  | '*' => some (.normal (.searchWord true (!gpending)))
  | '#' => some (.normal (.searchWord false (!gpending)))
  | _ => none

/-- `parse_command`. -/
def parseCommand (p : PendingCommand) (gpending : Bool) (key : Key) : ParseStep :=
  match p.operator with
  | some op => operatorCommand op gpending key
  | none =>
      if key.ctrl then ctrlCommand p key
      else if key.code = .pageDown then .complete (.normal (.scrollHalf true))
      else if key.code = .pageUp then .complete (.normal (.scrollHalf false))
      else if key.code = .tab && !key.shift then .complete (.normal .jumpForward)
      else if key.alt && key.code == .char 'c' then .complete (.normal .addCursor)
      else
        match asChar key with
        | none => .reset
        | some c =>
            if "dcy=><".toList.contains c then .continues (p.arm c)
            else if c = 'r' then .continues { p with stage := .replacePending }
            else (singleCommand gpending c).elim .reset .complete

variable (tables : Tables)

/-- A key that a stage takes as its argument; `none` at the stages that take none. -/
def argument (p : PendingCommand) (key : Key) : Option ParseStep :=
  match p.stage with
  | .start | .gPending => none
  | .replacePending => some ((asChar key).elim .reset fun c => .complete (.replace c))
  | stage =>
      if key.code = .esc then some .cancel
      else some (match stage with
        | .findPending kind => (asChar key).elim .abortObject fun c => .complete (.motion (.find kind c))
        | .textObjectPending ia => (asChar key).elim .abortObject fun c => .complete (.textObject ia c)
        | .windowPending =>
            if key.ctrl && key.code == .char 'w' then .continues { p with stage := .windowLayerPending }
            else if tables.windowCommand key then .complete (.window key) else .reset
        | .windowLayerPending => if tables.layerWindowCommand key then .complete (.windowLayer key) else .reset
        | .zPending =>
            match asChar key with
            | some 'f' => .continues (p.arm foldOp)
            | some c =>
                if tables.foldCommand c then .complete (.normal (.fold c))
                else if tables.viewCommand key then .complete (.normal (.viewScroll key p.count)) else .reset
            | none => if tables.viewCommand key then .complete (.normal (.viewScroll key p.count)) else .reset
        | .registerPending =>
            match asChar key with
            | some '=' => .complete (.normal .enterExprRegister)
            | some name =>
                if isRegisterName name then .continues { p with register := some name, stage := .start } else .reset
            | none => .reset
        | .recordPending =>
            (asChar key).elim .reset fun name =>
              if isRecordableRegister name then .complete (.macroRecord name) else .reset
        | .playPending =>
            if isMacroPlayKey key then .complete (.macroPlay none)
            else (asChar key).elim .reset fun name =>
              if isRegisterName name then .complete (.macroPlay (some name)) else .reset
        | .markSetPending => (asChar key).elim .reset fun name => .complete (.setMark name)
        | .markJumpPending exact_ setJump =>
            (asChar key).elim .reset fun name =>
              if tables.isJumpableMark name then
                .complete (.motion (if exact_ then .markJumpExact name setJump else .markJumpLine name setJump))
              else .reset
        | _ => .reset)

/-- The keys that arm a stage at a command boundary, with no operator pending and not behind `g`. -/
def boundaryStage (key : Key) : Option Stage :=
  if asChar key = some '"' then some .registerPending
  else if asChar key = some 'm' then some .markSetPending
  else if isMacroRecordKey key then some .recordPending
  else if isMacroPlayKey key then some .playPending
  else if asChar key = some 'z' then some .zPending
  else none

/-- A key that is no count. -/
def command (p : PendingCommand) (key : Key) : ParseStep :=
  let gpending := p.stage == .gPending
  match (if !gpending && p.operator.isNone then boundaryStage key else none) with
  | some stage => .continues { p with stage := stage }
  | none =>
      match (if gpending then (asChar key).bind (gCommand p) else none) with
      | some step => step
      | none =>
          if !gpending && asChar key == some 'g' then .continues { p with stage := .gPending }
          else if p.operator.isSome && asChar key == some 'i' then
            .continues { p with stage := .textObjectPending 'i' }
          else if p.operator.isSome && asChar key == some 'a' then
            .continues { p with stage := .textObjectPending 'a' }
          else
            match (asChar key).bind findKind with
            | some kind => .continues { p with stage := .findPending kind }
            | none =>
                if !gpending && asChar key == some '`' then
                  .continues { p with stage := .markJumpPending true true }
                else if !gpending && asChar key == some '\'' then
                  .continues { p with stage := .markJumpPending false true }
                else
                  match (if gpending then none else classifyMotion key) with
                  | some motion => .complete (.motion motion)
                  | none =>
                      if gpending && (asChar key).any fun c => c != '*' && c != '#' then .refuse
                      else parseCommand p gpending key

/-- `parse_step`. -/
def parseStep (p : PendingCommand) (key : Key) : ParseStep :=
  match argument tables p key with
  | some step => step
  | none =>
      if key.code = .esc then .cancel
      else
        match (asChar key).bind (accumulate p.count) with
        | some count => .continues { p with count := some count }
        | none => command p key

/-- The keys of a command: what they resolve to, what is pending with it, and the keys behind it. -/
def feed : PendingCommand → List Key → Option (Command × PendingCommand × List Key)
  | _, [] => none
  | p, key :: keys =>
      match parseStep tables p key with
      | .complete cmd => some (cmd, p, keys)
      | .continues next => feed next keys
      | _ => none

/-- What is pending behind keys that complete nothing. -/
@[grind =]
def after : PendingCommand → List Key → Option PendingCommand
  | p, [] => some p
  | p, key :: keys =>
      match parseStep tables p key with
      | .continues next => after next keys
      | _ => none

/-! ### Repeats -/

/-- `leading_count_len`. -/
def leadingCountLen (keys : List Key) : Nat :=
  let digits := keys.takeWhile fun key => (asChar key).any Char.isDigit
  if digits.head?.bind asChar = some '0' then 0 else digits.length

/-- `numbered_put_register`. -/
def numberedPutRegister (keys : List Key) : Option Nat :=
  let i := leadingCountLen keys
  if keys[i]?.bind asChar ≠ some '"' then none
  else if !((keys[i + 1]?.bind asChar).any fun c => "12345678".toList.contains c) then none
  else
    let i' := i + 2 + leadingCountLen (keys.drop (i + 2))
    let i' := if keys[i']?.bind asChar = some 'g' then i' + 1 else i'
    if (keys[i']?.bind asChar).any (fun c => c == 'p' || c == 'P') && i' + 1 == keys.length then some (i + 1)
    else none

/-- The keys of `n.to_string()`. -/
def countKeys (n : Nat) : List Key := (Nat.toDigits 10 n).map Key.char

/-- A put from a numbered register, with the next register. -/
def bumped (keys : List Key) : List Key :=
  match numberedPutRegister keys with
  | some place =>
      match keys[place]?.bind asChar with
      | some c => if c.toNat < '9'.toNat then keys.set place (.char (Char.ofNat (c.toNat + 1))) else keys
      | none => keys
  | none => keys

/-- `repeat_change`: the keys it feeds, from the last change. -/
def repeatKeys (keys : List Key) (count : Option Nat) : List Key :=
  match count with
  | some n => countKeys n ++ (bumped keys).drop (leadingCountLen (bumped keys))
  | none => bumped keys

end Bemtvi.Core.Commands
