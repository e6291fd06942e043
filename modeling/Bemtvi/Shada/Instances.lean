/-
Module: Bemtvi.Shada.Instances
Purpose: Editors that share a shada directory: each loads the stores it can open, changes its
  state, flushes it into its own store, and crashes or exits, deleting the stores it absorbed.
Trusted boundary: human-reviewed model of shada.rs:309-429; a load opens every store but those of
  live editors, a flush or an exit is one step, and `apply` stands for what an editor does to a
  register, a mark, a change list, folds or a plugin's data; which change a value comes from, and
  the exits an editor's chain of loads consumed, are kept for the statements
Main exports: Change, PersistState.apply, File, Instance, World, Event, step, Meets
-/
import Bemtvi.Lib.Run
import Bemtvi.Shada.Store

namespace Bemtvi.Shada

open Bemtvi.Recency (Stamped newestValue)

variable {π σ : Type} [PathBuf π]

/-! ### Changes -/

/-- What an editor sets, or removes. -/
inductive Change (π : Type) where
  | register (name : Char) (value : Option Register)
  | globalMark (name : Char) (value : Option (Pos π))
  | fileMark (path : π) (name : Char) (value : Option (Nat × Nat))
  | changelist (path : π) (value : Option (List (Nat × Nat)))
  | folds (path : π) (value : Option (List (Nat × Nat × Bool)))
  | plugin (namespace_ key : String) (value : Option String)

def Change.key : Change π → Key
  | .register name _ => .register name
  | .globalMark name _ => .globalMark name
  | .fileMark path name _ => .fileMark (PathBuf.toStringLossy path) name
  | .changelist path _ => .changelist (PathBuf.toStringLossy path)
  | .folds path _ => .folds (PathBuf.toStringLossy path)
  | .plugin namespace_ key _ => .plugin namespace_ key

def Change.value : Change π → Option Value
  | .register _ value => value.map .register
  | .globalMark _ value => value.map fun pos => .pos pos.lossy
  | .fileMark _ _ value => value.map .place
  | .changelist _ value => value.map .changes
  | .folds _ value => value.map .folds
  | .plugin _ _ value => value.map .text

/-- Entries with those of some keys taken out, and perhaps a new one. -/
def assign {κ β : Type} (is_key : κ → Bool) (key : κ) (value : Option β) (entries : List (κ × β)) :
    List (κ × β) :=
  entries.filter (fun entry => !is_key entry.1) ++ value.toList.map fun value => (key, value)

def samePath (one two : π) : Bool :=
  decide (PathBuf.toStringLossy one = PathBuf.toStringLossy two)

def PersistState.apply (state : PersistState π σ) : Change π → PersistState π σ
  | .register name value =>
      { state with registers := assign (· == name) name value state.registers }
  | .globalMark name value =>
      { state with globalMarks := assign (· == name) name value state.globalMarks }
  | .fileMark path name value =>
      { state with
        fileMarks := assign (fun key => samePath key.1 path && key.2 == name) (path, name) value
          state.fileMarks }
  | .changelist path value =>
      { state with fileChangelists := assign (samePath · path) path value state.fileChangelists }
  | .folds path value =>
      { state with fileFolds := assign (samePath · path) path value state.fileFolds }
  | .plugin namespace_ key value =>
      { state with
        pluginData := (state.pluginData.map fun plugin =>
          (plugin.1, plugin.2.filter fun entry =>
            !(plugin.1 == namespace_ && entry.1 == key))) ++
          value.toList.map fun value => (namespace_, [(key, value)]) }

/-- The rest of a state replaced. -/
def PersistState.edit (state rest : PersistState π σ) : PersistState π σ :=
  { state with
    searchHistory := rest.searchHistory
    exHistory := rest.exHistory
    inputHistory := rest.inputHistory
    jumplist := rest.jumplist
    session := rest.session
    workspaceOptions := rest.workspaceOptions }

/-! ### Editors and stores -/

/-- A store on disk. -/
structure File (σ : Type) where
  store : Store σ
  /-- The change that each row's value comes from. -/
  origin : Key → Nat
  /-- The exits consumed on the way to its last flush. -/
  shifted : List Nat

inductive Phase where
  | live
  | exited
  | crashed
deriving DecidableEq

/-- An editor, by the name of its store. -/
structure Instance (π σ : Type) where
  phase : Phase
  memory : PersistState π σ
  absorbed : List Nat
  /-- The change that each value in memory comes from. -/
  origin : Key → Nat
  /-- The exits consumed along its chain of loads. -/
  shifted : List Nat

structure World (π σ : Type) where
  files : Nat → Option (File σ)
  instances : Nat → Option (Instance π σ)
  minted : Nat
  /-- The time of the last flush. -/
  clock : Nat
  /-- Every change there was. -/
  changes : List (Key × Option Value)

namespace World

variable (world : World π σ)

def start : World π σ where
  files := fun _ => none
  instances := fun _ => none
  minted := 0
  clock := 0
  changes := []

omit [PathBuf π] in
/-- The store is on disk, and no live editor holds its lock. -/
def readable (id : Nat) : Bool :=
  (world.files id).isSome && !((world.instances id).any fun inst => decide (inst.phase = .live))

omit [PathBuf π] in
/-- The stores of a listing. -/
def opened (listing : List Nat) : List (Nat × File σ) :=
  listing.filterMap fun id => (world.files id).map fun file => (id, file)

def setInstance (id : Nat) (inst : Instance π σ) : World π σ :=
  { world with instances := fun other => if other = id then some inst else world.instances other }

def setFile (id : Nat) (file : File σ) : World π σ :=
  { world with files := fun other => if other = id then some file else world.files other }

end World

/-- The change that a merge's value of the key comes from. -/
def mergedOrigin (files : List (Nat × File σ)) (key : Key) : Nat :=
  (newestValue 0 (files.flatMap fun entry =>
    (entry.2.store.row key).toList.map fun row => (row.ts, entry.2.origin key))).2

/-- The store whose clean exit a load consumes. -/
def exitSource (files : List (Nat × File σ)) : Option Nat :=
  (newestValue none (files.flatMap fun entry =>
    entry.2.store.exits.map fun exit => (exit.1, some entry.1))).2

/-- `RedbFileStore::load`, of the stores it could open. -/
def loadInstance (order : IterOrder) (files : List (Nat × File σ)) : Instance π σ where
  phase := .live
  memory := loadState order (files.map (·.2.store))
  absorbed := files.map (·.1)
  origin := mergedOrigin files
  shifted := (exitSource files).toList ++ files.flatMap (·.2.shifted)

/-- The state written over a store. -/
def File.flush (file : File σ) (ts : Nat) (inst : Instance π σ) (exit : Option (Pos π)) :
    File σ where
  store := writeState file.store ts { inst.memory with exitCursor := exit }
  origin := fun key => if (inst.memory.value key).isSome then inst.origin key else file.origin key
  shifted := inst.shifted

/-! ### Steps -/

inductive Event (π σ : Type) where
  | load (listing : List Nat) (order : IterOrder)
  | change (id : Nat) (change : Change π)
  | edit (id : Nat) (rest : PersistState π σ)
  | flush (id ts : Nat)
  | exit (id ts : Nat) (cursor : Pos π)
  | crash (id : Nat)

/-- A live editor, with its store. -/
def World.live (world : World π σ) (id : Nat) : Option (Instance π σ × File σ) :=
  match world.instances id, world.files id with
  | some inst, some file => if inst.phase = .live then some (inst, file) else none
  | _, _ => none

def step (world : World π σ) : Event π σ → Option (World π σ)
  | .load listing order =>
      if listing.Perm ((List.range world.minted).filter world.readable) then
        some { ((world.setFile world.minted ⟨.empty, fun _ => 0, []⟩).setInstance world.minted
          (loadInstance order (world.opened listing))) with minted := world.minted + 1 }
      else none
  | .change id change =>
      (world.live id).map fun (inst, _) =>
        { (world.setInstance id { inst with
            memory := inst.memory.apply change
            origin := fun key =>
              if key = change.key then world.changes.length else inst.origin key }) with
          changes := world.changes ++ [(change.key, change.value)] }
  | .edit id rest =>
      (world.live id).map fun (inst, _) =>
        world.setInstance id { inst with memory := inst.memory.edit rest }
  | .flush id ts =>
      (world.live id).map fun (inst, file) =>
        { (world.setFile id (file.flush ts inst none)) with clock := ts }
  | .exit id ts cursor =>
      (world.live id).map fun (inst, file) =>
        let written := world.setFile id (file.flush ts inst (some cursor))
        { (written.setInstance id { inst with phase := .exited }) with
          clock := ts
          files := fun other => if other ∈ inst.absorbed then none else written.files other }
  | .crash id =>
      (world.live id).map fun (inst, _) => world.setInstance id { inst with phase := .crashed }

/-! ### The condition -/

/-- The key of a change, not of a mark that only loads make. -/
def Key.settable : Key → Bool
  | .numbered _ => false
  | _ => true

/-- No store holds a value of a key that was set later than the one the editor carries. -/
def UpToDate (world : World π σ) (inst : Instance π σ) : Prop :=
  ∀ key, key.settable = true → inst.memory.value key ≠ none →
    ∀ other file, world.files other = some file → file.store.row key ≠ none →
      file.origin key ≤ inst.origin key

/-- The times of flushes increase, no flush carries a value that some store has a later one for,
and no load finds, as the newest exit, one that a crashed editor with a flushed store in the
listing had absorbed. -/
def Meets (world : World π σ) : Event π σ → Prop
  | .load listing _ =>
      ∀ source, exitSource (world.opened listing) = some source →
        ∀ entry ∈ world.opened listing, ∀ inst, world.instances entry.1 = some inst →
          inst.phase = .crashed → entry.2.store.info.isSome → source ∉ inst.absorbed
  | .flush id ts | .exit id ts _ =>
      world.clock < ts ∧ ∀ inst, world.instances id = some inst → UpToDate world inst
  | _ => True

end Bemtvi.Shada
