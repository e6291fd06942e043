/-
Module: Bemtvi.Core.Registers
Purpose: The registers: what a write and an append leave in one and what a read finds; the names that
  a macro can be recorded into, and the keys that record and play it.
Trusted boundary: human-reviewed model of bemtvi-core/src/editor/registers.rs:102-187 and of
  editor/command.rs:775-793
Main exports: RegKind, RegisterCell, Registers.set, Registers.appendCell, Registers.setApi,
  Registers.get, isRecordableRegister, isMacroRecordKey
-/
import Bemtvi.Input.Notation

namespace Bemtvi.Core

open Input (Key)

/-! ### Registers -/

/-- Whether a register's contents paste back charwise or linewise. -/
inductive RegKind where
  | char
  | line
deriving Repr, DecidableEq

/-- One register's stored text plus how it pastes. -/
structure RegisterCell where
  text : List Char
  kind : RegKind
deriving Repr, DecidableEq

abbrev Registers := Char → Option RegisterCell

namespace Registers

def set (registers : Registers) (name : Char) (cell : RegisterCell) : Registers :=
  fun other => if other = name then some cell else registers other

/-- `append_cell`: the merged contents, not yet written. -/
def appendCell (registers : Registers) (name : Char) (text : List Char) (kind : RegKind) :
    RegisterCell :=
  let buf := (registers name).elim [] RegisterCell.text
  let wasLine := (registers name).any fun cell => cell.kind = .line
  let isLine := decide (kind = .line)
  -- Mixing kinds makes the register linewise, so each part becomes whole lines.
  let buf := if !wasLine && isLine && !buf.isEmpty then buf ++ ['\n'] else buf
  let buf := buf ++ text
  let buf := if wasLine && !isLine then buf ++ ['\n'] else buf
  ⟨buf, if wasLine || isLine then .line else kind⟩

/-- `set_api`: the black hole discards. -/
def setApi (registers : Registers) (name : Char) (text : List Char) (kind : RegKind)
    (append : Bool) : Registers :=
  if name = '_' then registers
  else if append then registers.set name.toLower (registers.appendCell name.toLower text kind)
  else registers.set name.toLower ⟨text, kind⟩

/-- `get`: an uppercase name reads the lowercase register. -/
def get (registers : Registers) (name : Char) : Option RegisterCell := registers name.toLower

end Registers

/-! ### Keys -/

/-- `is_recordable_register`. -/
def isRecordableRegister (c : Char) : Bool := c.isAlphanum

/-- A function key, without modifiers. -/
def isFunctionKey (n : Nat) (key : Key) : Bool :=
  (match key.code with
    | .function m => m.val == n
    | _ => false) && !key.ctrl && !key.alt && !key.shift

/-- `is_macro_record_key`. -/
def isMacroRecordKey (key : Key) : Bool := isFunctionKey 2 key

/-- `is_macro_play_key`. -/
def isMacroPlayKey (key : Key) : Bool := isFunctionKey 3 key

end Bemtvi.Core
