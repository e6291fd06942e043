/-
Module: Bemtvi.Shada.Store
Purpose: The tables of a shada store, what a flush writes into them, and the recency merge that
  reads several stores back into one state.
Trusted boundary: human-reviewed model of shada.rs:508-1205 and persist.rs:29-95; a transaction is
  one step, msgpack reads back what it wrote, a one-character key is the character, sums of `u64`
  wrap as in a release build, and `σ` stands for a session
Main exports: PathBuf, IterOrder, PersistState, Store, writeState, collectMerge, buildState,
  shiftNumberedMarks, loadState, reloadState, Key, Store.row, PersistState.value
-/
import Bemtvi.Lib.Recency

namespace Bemtvi.Shada

open Std (TreeMap)
open Bemtvi.Recency (Stamped Table insertAll writeRows mergeTable groupInto sortBy newer observe
  ring lastOf)

/-- `HISTORY_CAP`. -/
def historyCap : Nat := 10000

/-- `SCHEMA_VERSION`. -/
def schemaVersion : Nat := 1

/-- The paths of a platform, which a store keeps as text. -/
class PathBuf (π : Type) where
  toStringLossy : π → String
  ofString : String → π
  lossy_ofString : ∀ text, toStringLossy (ofString text) = text

instance : PathBuf String where
  toStringLossy := id
  ofString := id
  lossy_ofString := fun _ => rfl

/-- The order in which a `HashMap` comes to be iterated. -/
structure IterOrder where
  arrange : ∀ {α : Type}, List α → List α
  perm : ∀ {α : Type} (items : List α), (arrange items).Perm items

/-! ### The state -/

structure Register where
  text : String
  linewise : Bool
deriving DecidableEq

/-- A place in a file. -/
structure Pos (π : Type) where
  path : π
  line : Nat
  col : Nat
deriving DecidableEq

inductive OptionScalar where
  | bool (value : Bool)
  | num (value : Int)
  | str (value : String)

/-- The state one editor keeps for the next. -/
structure PersistState (π σ : Type) where
  registers : List (Char × Register)
  globalMarks : List (Char × Pos π)
  fileMarks : List ((π × Char) × (Nat × Nat))
  searchHistory : List String
  exHistory : List String
  inputHistory : List (String × List String)
  numberedMarks : List (Char × Pos π)
  fileChangelists : List (π × List (Nat × Nat))
  fileFolds : List (π × List (Nat × Nat × Bool))
  jumplist : List (Pos π)
  exitCursor : Option (Pos π)
  session : Option σ
  pluginData : List (String × List (String × String))
  workspaceOptions : List (String × OptionScalar)

structure Meta where
  version : Nat
  flushTs : Nat
  exit : Option (Pos String)
  exitTs : Nat

/-- The tables of one store; a table that was never written is empty. -/
structure Store (σ : Type) where
  registers : Table Char Register
  marksGlobal : Table Char (Pos String)
  marksFile : Table (String × Char) (Nat × Nat)
  histSearch : TreeMap Nat String
  histEx : TreeMap Nat String
  histInput : TreeMap (String × Nat) String
  marksNumbered : Table Char (Pos String)
  changelistFile : Table String (List (Nat × Nat))
  foldsFile : Table String (List (Nat × Nat × Bool))
  jumplist : TreeMap Nat (Pos String)
  plugin : Table (String × String) String
  info : Option Meta
  session : Option σ
  workspaceOptions : Option (List (String × OptionScalar))

variable {π σ : Type} [PathBuf π]

def Store.empty : Store σ where
  registers := ∅
  marksGlobal := ∅
  marksFile := ∅
  histSearch := ∅
  histEx := ∅
  histInput := ∅
  marksNumbered := ∅
  changelistFile := ∅
  foldsFile := ∅
  jumplist := ∅
  plugin := ∅
  info := none
  session := none
  workspaceOptions := none

def Pos.lossy (pos : Pos π) : Pos String := ⟨PathBuf.toStringLossy pos.path, pos.line, pos.col⟩

def Pos.restore (pos : Pos String) : Pos π := ⟨PathBuf.ofString pos.path, pos.line, pos.col⟩

/-! ### Writing -/

/-- The first sequence key of a flush: its time scaled, and kept within `u64`. -/
def sequenceBase (ts : Nat) : Nat := min (ts * historyCap) (2 ^ 64 - 1)

def sequenceKey (ts index : Nat) : Nat := (sequenceBase ts + index) % 2 ^ 64

def writeHistory (ts : Nat) (entries : List String) : TreeMap Nat String :=
  insertAll (entries.zipIdx.map fun entry => (sequenceKey ts entry.2, entry.1)) ∅

def writeInputHistory (ts : Nat) (input : List (String × List String)) :
    TreeMap (String × Nat) String :=
  input.foldl (fun table ring => insertAll
    (ring.2.zipIdx.map fun entry => ((ring.1, sequenceKey ts entry.2), entry.1)) table) ∅

def writeJumplist (jumplist : List (Pos π)) : TreeMap Nat (Pos String) :=
  insertAll (jumplist.zipIdx.map fun entry => (entry.2, entry.1.lossy)) ∅

namespace PersistState

variable (state : PersistState π σ)

/-! The rows of each table, as the state has them. -/

def globalMarkRows : List (Char × Pos String) :=
  state.globalMarks.map fun entry => (entry.1, entry.2.lossy)

def fileMarkRows : List ((String × Char) × (Nat × Nat)) :=
  state.fileMarks.map fun entry =>
    ((PathBuf.toStringLossy entry.1.1, entry.1.2), entry.2)

def numberedRows : List (Char × Pos String) :=
  state.numberedMarks.map fun entry => (entry.1, entry.2.lossy)

def changelistRows : List (String × List (Nat × Nat)) :=
  state.fileChangelists.map fun entry => (PathBuf.toStringLossy entry.1, entry.2)

def foldRows : List (String × List (Nat × Nat × Bool)) :=
  state.fileFolds.map fun entry => (PathBuf.toStringLossy entry.1, entry.2)

omit [PathBuf π] in
def pluginRows : List ((String × String) × String) :=
  state.pluginData.flatMap fun plugin => plugin.2.map fun entry => ((plugin.1, entry.1), entry.2)

end PersistState

/-- Registers and global marks are written over those there are; the rest is written anew. -/
def writeState (store : Store σ) (ts : Nat) (state : PersistState π σ) : Store σ where
  registers := writeRows false ts state.registers store.registers
  marksGlobal := writeRows false ts state.globalMarkRows store.marksGlobal
  marksFile := writeRows true ts state.fileMarkRows store.marksFile
  marksNumbered := writeRows true ts state.numberedRows store.marksNumbered
  changelistFile := writeRows true ts state.changelistRows store.changelistFile
  foldsFile := writeRows true ts state.foldRows store.foldsFile
  plugin := writeRows true ts state.pluginRows store.plugin
  jumplist := writeJumplist state.jumplist
  info := some ⟨schemaVersion, ts, state.exitCursor.map Pos.lossy,
    if state.exitCursor.isSome then ts else 0⟩
  session := state.session
  workspaceOptions := if state.workspaceOptions.isEmpty then none else some state.workspaceOptions
  histSearch := writeHistory ts state.searchHistory
  histEx := writeHistory ts state.exHistory
  histInput := writeInputHistory ts state.inputHistory

/-! ### Merging -/

/-- The merge of some stores, before it is projected into a state. -/
structure MergedRaw (σ : Type) where
  regs : Table Char Register
  globalMarks : Table Char (Pos String)
  fileMarks : Table (String × Char) (Nat × Nat)
  numbered : Table Char (Pos String)
  changelist : Table String (List (Nat × Nat))
  folds : Table String (List (Nat × Nat × Bool))
  plugin : Table (String × String) String
  histSearch : TreeMap String Nat
  histEx : TreeMap String Nat
  histInput : TreeMap String (TreeMap String Nat)
  jumplist : Nat × List (Pos String)
  exit : Nat × Option (Pos String)
  session : Nat × Option σ
  workspaceOptions : Nat × List (String × OptionScalar)

def MergedRaw.empty : MergedRaw σ where
  regs := ∅
  globalMarks := ∅
  fileMarks := ∅
  numbered := ∅
  changelist := ∅
  folds := ∅
  plugin := ∅
  histSearch := ∅
  histEx := ∅
  histInput := ∅
  jumplist := (0, [])
  exit := (0, none)
  session := (0, none)
  workspaceOptions := (0, [])

def mergeHistory (merge : TreeMap String Nat) (table : TreeMap Nat String) : TreeMap String Nat :=
  table.toList.foldl observe merge

def mergeInputHistory (merge : TreeMap String (TreeMap String Nat))
    (table : TreeMap (String × Nat) String) : TreeMap String (TreeMap String Nat) :=
  table.toList.foldl
    (groupInto (·.1.1) (fun byText row => observe byText (row.1.2, row.2)) ∅) merge

def readJumplist (store : Store σ) : List (Pos String) := store.jumplist.toList.map Prod.snd

/-- What a store's `meta` row dates, if it has one. -/
def Store.dated {α : Type} (store : Store σ) (value : α) : List (Nat × α) :=
  store.info.toList.map fun info => (info.flushTs, value)

/-- A store's clean exit, if it has one. -/
def Store.exits (store : Store σ) : List (Nat × Option (Pos String)) :=
  store.info.toList.flatMap fun info => info.exit.toList.map fun exit => (info.exitTs, some exit)

/-- One turn of `collect_merge`. -/
def MergedRaw.merge (raw : MergedRaw σ) (store : Store σ) : MergedRaw σ where
  regs := mergeTable raw.regs store.registers
  globalMarks := mergeTable raw.globalMarks store.marksGlobal
  fileMarks := mergeTable raw.fileMarks store.marksFile
  numbered := mergeTable raw.numbered store.marksNumbered
  changelist := mergeTable raw.changelist store.changelistFile
  folds := mergeTable raw.folds store.foldsFile
  plugin := mergeTable raw.plugin store.plugin
  histSearch := mergeHistory raw.histSearch store.histSearch
  histEx := mergeHistory raw.histEx store.histEx
  histInput := mergeInputHistory raw.histInput store.histInput
  jumplist := (store.dated (readJumplist store)).foldl newer raw.jumplist
  session := (store.dated store.session).foldl newer raw.session
  workspaceOptions := (store.dated (store.workspaceOptions.getD [])).foldl newer
    raw.workspaceOptions
  exit := store.exits.foldl newer raw.exit

def collectMerge (stores : List (Store σ)) : MergedRaw σ := stores.foldl MergedRaw.merge .empty

/-! ### The merged state -/

/-- The plugins' rows by namespace, the namespaces and their keys in order. -/
def groupPlugin (rows : List ((String × String) × Stamped String)) :
    List (String × List (String × String)) :=
  let byNs : TreeMap String (List (String × String)) :=
    rows.foldl (groupInto (·.1.1) (fun entries row => entries ++ [(row.1.2, row.2.value)]) []) ∅
  byNs.toList.map fun plugin => (plugin.1, sortBy Prod.fst plugin.2)

section

variable (order : IterOrder)

/-- `HistMerge::finish`. -/
def finishHistory (byText : TreeMap String Nat) : List String :=
  ring historyCap (order.arrange byText.toList)

def groupInputHistory (merge : TreeMap String (TreeMap String Nat)) :
    List (String × List String) :=
  let byNs : TreeMap String (List String) :=
    insertAll ((order.arrange merge.toList).map fun entry =>
      (entry.1, finishHistory order entry.2)) ∅
  byNs.toList.filter fun entry => !entry.2.isEmpty

/-- The entries of a merged table. -/
def entriesOf {κ β : Type} [Ord κ] (table : Table κ β) : List (κ × β) :=
  (order.arrange table.toList).map fun row => (row.1, row.2.value)

def buildState (raw : MergedRaw σ) (numberedMarks : List (Char × Pos π)) : PersistState π σ where
  registers := entriesOf order raw.regs
  globalMarks := (entriesOf order raw.globalMarks).map fun entry => (entry.1, entry.2.restore)
  fileMarks := (entriesOf order raw.fileMarks).map fun entry =>
    ((PathBuf.ofString entry.1.1, entry.1.2), entry.2)
  searchHistory := finishHistory order raw.histSearch
  exHistory := finishHistory order raw.histEx
  inputHistory := groupInputHistory order raw.histInput
  numberedMarks := numberedMarks
  fileChangelists := (entriesOf order raw.changelist).map fun entry =>
    (PathBuf.ofString entry.1, entry.2)
  fileFolds := (entriesOf order raw.folds).map fun entry => (PathBuf.ofString entry.1, entry.2)
  jumplist := raw.jumplist.2.map Pos.restore
  exitCursor := none
  session := raw.session.2
  pluginData := groupPlugin (order.arrange raw.plugin.toList)
  workspaceOptions := raw.workspaceOptions.2

def numberedPassthrough (marks : Table Char (Pos String)) : List (Char × Pos π) :=
  (entriesOf order marks).map fun entry => (entry.1, entry.2.restore)

def digit (n : Nat) : Char := Char.ofNat ('0'.toNat + n)

/-- A consumed exit becomes `'0`, and `'0`-`'8` slide down one. -/
def shiftNumberedMarks (old : Table Char (Pos String)) : Option (Pos String) → List (Char × Pos π)
  | none => numberedPassthrough order old
  | some exit => ('0', exit.restore) :: (List.range 9).filterMap fun n =>
      old[digit n]?.map fun mark => (digit (n + 1), mark.value.restore)

/-- What `load` reads of the stores it could open. -/
def loadState (stores : List (Store σ)) : PersistState π σ :=
  let merged := collectMerge stores
  buildState order merged (shiftNumberedMarks order merged.numbered merged.exit.2)

/-- What `reload` reads of its own store and those it could open. -/
def reloadState (stores : List (Store σ)) : PersistState π σ :=
  let merged := collectMerge stores
  buildState order merged (numberedPassthrough order merged.numbered)

end

/-! ### Rows by key -/

inductive Key where
  | register (name : Char)
  | globalMark (name : Char)
  | fileMark (path : String) (name : Char)
  | numbered (digit : Char)
  | changelist (path : String)
  | folds (path : String)
  | plugin (namespace_ key : String)
deriving DecidableEq

inductive Value where
  | register (register : Register)
  | pos (pos : Pos String)
  | place (place : Nat × Nat)
  | changes (entries : List (Nat × Nat))
  | folds (folds : List (Nat × Nat × Bool))
  | text (text : String)
deriving DecidableEq

/-- A flush leaves the rows of such a key that it does not write. -/
def Key.upserts : Key → Bool
  | .register _ | .globalMark _ => true
  | _ => false

/-- A table's row, as a row of any table. -/
def rowIn {κ β : Type} [Ord κ] (wrap : β → Value) (table : Table κ β) (key : κ) :
    Option (Stamped Value) :=
  table[key]?.map fun row => ⟨wrap row.value, row.ts⟩

def Store.row (store : Store σ) : Key → Option (Stamped Value)
  | .register name => rowIn .register store.registers name
  | .globalMark name => rowIn .pos store.marksGlobal name
  | .fileMark path name => rowIn .place store.marksFile (path, name)
  | .numbered digit => rowIn .pos store.marksNumbered digit
  | .changelist path => rowIn .changes store.changelistFile path
  | .folds path => rowIn .folds store.foldsFile path
  | .plugin namespace_ key => rowIn .text store.plugin (namespace_, key)

/-- A state's value for a key: that of its last entry. -/
def PersistState.value (state : PersistState π σ) : Key → Option Value
  | .register name => (lastOf name state.registers).map .register
  | .globalMark name => (lastOf name state.globalMarkRows).map .pos
  | .fileMark path name => (lastOf (path, name) state.fileMarkRows).map .place
  | .numbered digit => (lastOf digit state.numberedRows).map .pos
  | .changelist path => (lastOf path state.changelistRows).map .changes
  | .folds path => (lastOf path state.foldRows).map .folds
  | .plugin namespace_ key => (lastOf (namespace_, key) state.pluginRows).map .text

end Bemtvi.Shada
