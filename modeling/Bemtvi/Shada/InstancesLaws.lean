/-
Module: Bemtvi.Shada.InstancesLaws
Purpose: What every run of editors over one directory keeps: rows are stamped in the order of the
  changes they come from, an editor covers what it absorbed, and a consumed exit is absorbed by
  whoever could consume it again.
Trusted boundary: none
Main exports: value_apply, value_loadState, Kept, step_kept, ShiftsOnce, Yields, Flushed, Covers,
  Durable, instances_agree, crash_shifts_twice
-/
import Bemtvi.Shada.Instances
import Bemtvi.Shada.MergeLaws

namespace Bemtvi.Shada

open Std (TreeMap)
open Bemtvi.Run (run run_along Along)
open Bemtvi.Recency

variable {π σ : Type} [PathBuf π]

/-! ### Changes -/

section

variable {κ κ' β γ : Type} [DecidableEq κ'] {key : κ'}

/-- The assigned key has the new value, and no other key is touched. -/
theorem lastOf_assign (rename : κ → κ') (convert : β → γ) {is_key : κ → Bool} (name : κ)
    (named : ∀ other, is_key other = true ↔ rename other = rename name) (value : Option β)
    (entries : List (κ × β)) :
    lastOf key ((assign is_key name value entries).map fun entry =>
        (rename entry.1, convert entry.2)) =
      if key = rename name then value.map convert
      else lastOf key (entries.map fun entry => (rename entry.1, convert entry.2)) := by
  unfold assign
  rw [List.map_append, lastOf_append]
  by_cases its : key = rename name
  · subst its
    rw [if_pos rfl]
    have gone : lastOf (rename name) ((entries.filter fun entry => !is_key entry.1).map
        fun entry => (rename entry.1, convert entry.2)) = none := by
      cases found : lastOf (rename name) ((entries.filter fun entry => !is_key entry.1).map
          fun entry => (rename entry.1, convert entry.2)) with
      | none => rfl
      | some value =>
          rcases List.mem_map.1 (lastOf_mem found) with ⟨entry, member, same⟩
          have other := (List.mem_filter.1 member).2
          rw [(named entry.1).2 (Prod.mk.inj same).1] at other
          cases other
    rw [gone, Option.or_none]
    cases value with
    | none => rfl
    | some value =>
        change lastOf (rename name) [(rename name, convert value)] = _
        rw [lastOf, if_pos rfl]
        rfl
  · rw [if_neg its]
    have nothing : lastOf key ((value.toList.map fun value => (name, value)).map
        fun entry => (rename entry.1, convert entry.2)) = none := by
      cases value with
      | none => rfl
      | some value =>
          change lastOf key [(rename name, convert value)] = none
          rw [lastOf, if_neg (fun same => its same.symm)]
          rfl
    rw [nothing, Option.none_or]
    induction entries with
    | nil => rfl
    | cons entry rest ih =>
        by_cases taken : is_key entry.1 = true
        · have other : rename entry.1 ≠ key := by
            rw [(named entry.1).1 taken]
            exact fun same => its same.symm
          rw [List.filter_cons_of_neg (by simp [taken]), ih, List.map_cons, lastOf, if_neg other,
            Option.or_none]
        · rw [List.filter_cons_of_pos (by simp [taken]), List.map_cons, lastOf, ih, List.map_cons,
            lastOf]

end

theorem samePath_iff (one two : π) :
    samePath one two = true ↔ PathBuf.toStringLossy one = PathBuf.toStringLossy two :=
  decide_eq_true_iff

theorem pluginRows_apply (state : PersistState π σ) (namespace_ key : String)
    (value : Option String) :
    (state.apply (.plugin namespace_ key value)).pluginRows =
      assign (· == (namespace_, key)) (namespace_, key) value state.pluginRows := by
  unfold PersistState.apply PersistState.pluginRows assign
  simp only [List.flatMap_append, List.flatMap_map]
  congr 1
  · rw [List.filter_flatMap]
    congr 1
    funext plugin
    rw [List.filter_map]
    congr 1
  · cases value with
    | none => rfl
    | some value => rfl

theorem lastOf_assign_same {κ β : Type} [DecidableEq κ] [BEq κ] [LawfulBEq κ] (key name : κ)
    (value : Option β) (entries : List (κ × β)) :
    lastOf key (assign (· == name) name value entries) =
      if key = name then value else lastOf key entries := by
  have assigned : lastOf key ((assign (· == name) name value entries).map fun entry =>
      (id entry.1, id entry.2)) = if key = id name then value.map id else
        lastOf key (entries.map fun entry => (id entry.1, id entry.2)) :=
    lastOf_assign id id name (fun _ => beq_iff_eq) value entries
  simpa using assigned

/-- A change sets its own key, and no other. -/
theorem value_apply (state : PersistState π σ) (change : Change π) (key : Key) :
    (state.apply change).value key = if key = change.key then change.value else state.value key := by
  cases change with
  | register name value =>
      cases key with
      | register name' =>
          unfold PersistState.value PersistState.apply Change.key Change.value
          simp only [lastOf_assign_same, Key.register.injEq]
          split <;> rfl
      | _ => exact (if_neg (fun same => by cases same)).symm
  | globalMark name value =>
      cases key with
      | globalMark name' =>
          have rows : lastOf name' (state.apply (.globalMark name value)).globalMarkRows =
              if name' = name then value.map Pos.lossy else lastOf name' state.globalMarkRows :=
            lastOf_assign id Pos.lossy name (fun _ => beq_iff_eq) value state.globalMarks
          unfold PersistState.value Change.key Change.value
          simp only [rows, Key.globalMark.injEq]
          split
          · rw [Option.map_map]
            rfl
          · rfl
      | _ => exact (if_neg (fun same => by cases same)).symm
  | fileMark path name value =>
      cases key with
      | fileMark path' name' =>
          have rows : lastOf (path', name') (state.apply (.fileMark path name value)).fileMarkRows =
              if (path', name') = (PathBuf.toStringLossy path, name) then value.map id
              else lastOf (path', name') state.fileMarkRows := by
            have named : ∀ other : π × Char, (samePath other.1 path && other.2 == name) = true ↔
                (PathBuf.toStringLossy other.1, other.2) =
                  (PathBuf.toStringLossy path, name) := by
              intro other
              rw [Bool.and_eq_true, samePath_iff, beq_iff_eq, Prod.mk.injEq]
            exact lastOf_assign (fun key : π × Char => (PathBuf.toStringLossy key.1, key.2)) id
              (path, name) named value state.fileMarks
          unfold PersistState.value Change.key Change.value
          simp only [rows, Key.fileMark.injEq, Prod.mk.injEq, Option.map_id]
          split <;> rfl
      | _ => exact (if_neg (fun same => by cases same)).symm
  | changelist path value =>
      cases key with
      | changelist path' =>
          have rows : lastOf path' (state.apply (.changelist path value)).changelistRows =
              if path' = PathBuf.toStringLossy path then value.map id
              else lastOf path' state.changelistRows :=
            lastOf_assign PathBuf.toStringLossy id path (fun other => samePath_iff other path) value
              state.fileChangelists
          unfold PersistState.value Change.key Change.value
          simp only [rows, Key.changelist.injEq, Option.map_id]
          split <;> rfl
      | _ => exact (if_neg (fun same => by cases same)).symm
  | folds path value =>
      cases key with
      | folds path' =>
          have rows : lastOf path' (state.apply (.folds path value)).foldRows =
              if path' = PathBuf.toStringLossy path then value.map id
              else lastOf path' state.foldRows :=
            lastOf_assign PathBuf.toStringLossy id path (fun other => samePath_iff other path) value
              state.fileFolds
          unfold PersistState.value Change.key Change.value
          simp only [rows, Key.folds.injEq, Option.map_id]
          split <;> rfl
      | _ => exact (if_neg (fun same => by cases same)).symm
  | plugin namespace_ name value =>
      cases key with
      | plugin namespace' name' =>
          unfold PersistState.value Change.key Change.value
          simp only [pluginRows_apply, lastOf_assign_same, Key.plugin.injEq, Prod.mk.injEq]
          split <;> rfl
      | _ => exact (if_neg (fun same => by cases same)).symm

theorem value_edit (state rest : PersistState π σ) (key : Key) :
    (state.edit rest).value key = state.value key := by
  cases key <;> rfl

theorem value_exitCursor (state : PersistState π σ) (exit : Option (Pos π)) (key : Key) :
    PersistState.value { state with exitCursor := exit } key = state.value key := by
  cases key <;> rfl

/-! ### Loads -/

theorem value_loadState (order : IterOrder) (stores : List (Store σ)) {key : Key}
    (settable : key.settable = true) :
    (loadState order stores : PersistState π σ).value key =
      ((collectMerge stores).row key).map (·.value) := by
  unfold loadState
  rw [value_buildState]
  cases key with
  | numbered digit => cases settable
  | _ => rfl

/-! ### Numbered marks -/

theorem digit_inj {n m : Nat} (small : n < 10) (small' : m < 10) (same : digit n = digit m) :
    n = m := by
  have apart : ∀ n < 10, ∀ m < 10, digit n = digit m → n = m := by decide
  exact apart n small m small' same

variable {stores : List (Store σ)}

/-- Without an exit, a load has the merged numbered marks. -/
theorem numbered_kept (order : IterOrder) (nothing : (collectMerge stores).exit.2 = none)
    (mark : Char) : (loadState order stores : PersistState π σ).value (.numbered mark) =
      ((collectMerge stores).row (.numbered mark)).map (·.value) := by
  unfold loadState
  rw [value_buildState, nothing]
  unfold shiftNumberedMarks
  simp only [passthroughRows]
  exact lastOf_rowIn order .pos (collectMerge stores).numbered

/-- The numbered marks of a load that consumes an exit. -/
def shiftedRows (merged : Table Char (Pos String)) (exit : Pos String) : List (Char × Pos String) :=
  ('0', exit) :: (List.range 9).filterMap fun n =>
    merged[digit n]?.map fun mark => (digit (n + 1), mark.value)

theorem value_shifted (order : IterOrder) {exit : Pos String}
    (consumed : (collectMerge stores).exit.2 = some exit) (mark : Char) :
    (loadState order stores : PersistState π σ).value (.numbered mark) =
      (lastOf mark (shiftedRows (collectMerge stores).numbered exit)).map .pos := by
  unfold loadState
  rw [value_buildState, consumed]
  unfold shiftNumberedMarks shiftedRows
  simp only [List.map_cons, lossy_restore, List.map_filterMap, Option.map_map, Function.comp_def]

section

variable {merged : Table Char (Pos String)} {exit : Pos String}

variable {pos : Pos String}

theorem mem_shiftedRows {mark : Char} : (mark, pos) ∈ shiftedRows merged exit ↔
      (mark = digit 0 ∧ pos = exit) ∨
        ∃ n < 9, mark = digit (n + 1) ∧ (merged[digit n]?.map (·.value)) = some pos := by
  unfold shiftedRows
  rw [List.mem_cons, Prod.mk.injEq, List.mem_filterMap]
  apply or_congr Iff.rfl
  constructor
  · rintro ⟨n, small, found⟩
    rcases Option.map_eq_some_iff.1 found with ⟨row, its, same⟩
    cases same
    refine ⟨n, List.mem_range.1 small, rfl, ?_⟩
    rw [its]
    rfl
  · rintro ⟨n, small, rfl, found⟩
    rcases Option.map_eq_some_iff.1 found with ⟨row, its, rfl⟩
    refine ⟨n, List.mem_range.2 small, ?_⟩
    rw [its]
    rfl

theorem lastOf_shiftedRows {mark : Char} : lastOf mark (shiftedRows merged exit) = some pos ↔
      (mark = digit 0 ∧ pos = exit) ∨
        ∃ n < 9, mark = digit (n + 1) ∧ (merged[digit n]?.map (·.value)) = some pos := by
  rw [← mem_shiftedRows]
  apply lastOf_iff
  intro one two member member'
  rcases mem_shiftedRows.1 member with ⟨zero, same⟩ | ⟨n, small, same, found⟩
  · rcases mem_shiftedRows.1 member' with ⟨-, same'⟩ | ⟨m, small', same', -⟩
    · rw [same, same']
    · cases digit_inj (by omega) (by omega) (zero.symm.trans same')
  · rcases mem_shiftedRows.1 member' with ⟨zero, -⟩ | ⟨m, small', same', found'⟩
    · cases digit_inj (by omega) (by omega) (zero.symm.trans same)
    · cases digit_inj (by omega) (by omega) (same.symm.trans same')
      rw [found] at found'
      exact Option.some.inj found'

end

/-- A load that consumes an exit has it as `'0`. -/
theorem numbered_zero (order : IterOrder) {exit : Pos String}
    (consumed : (collectMerge stores).exit.2 = some exit) :
    (loadState order stores : PersistState π σ).value (.numbered (digit 0)) = some (.pos exit) := by
  rw [value_shifted order consumed, lastOf_shiftedRows.2 (.inl ⟨rfl, rfl⟩)]
  rfl

/-- A load that consumes an exit has each merged mark but the last one digit on. -/
theorem numbered_next (order : IterOrder) {exit : Pos String}
    (consumed : (collectMerge stores).exit.2 = some exit) {n : Nat} (small : n < 9) :
    (loadState order stores : PersistState π σ).value (.numbered (digit (n + 1))) =
      ((collectMerge stores).row (.numbered (digit n))).map (·.value) := by
  have found : lastOf (digit (n + 1)) (shiftedRows (collectMerge stores).numbered exit) =
      (collectMerge stores).numbered[digit n]?.map (·.value) := by
    apply Option.ext
    intro pos
    rw [lastOf_shiftedRows]
    constructor
    · rintro (⟨zero, -⟩ | ⟨m, small', same, its⟩)
      · cases digit_inj (by omega) (by omega) zero
      · cases digit_inj (by omega) (by omega) same
        exact its
    · intro its
      exact .inr ⟨n, small, rfl, its⟩
  rw [value_shifted order consumed, found]
  unfold MergedRaw.row rowIn
  simp only [Option.map_map, Function.comp_def]

/-- The exit a load consumes is that of its source. -/
theorem exit_consumed (files : List (Nat × File σ)) :
    (exitSource files = none ∧ (collectMerge (files.map (·.2.store))).exit.2 = none) ∨
      ∃ entry ∈ files, exitSource files = some entry.1 ∧ ∃ exit ∈ entry.2.store.exits,
        (collectMerge (files.map (·.2.store))).exit.2 = exit.2 := by
  let values := files.flatMap fun entry => entry.2.store.exits.map fun exit =>
    (exit.1, (some entry.1, exit.2))
  have source : exitSource files = (newestValue (none, none) values).2.1 := by
    have mapped := newestValue_map Prod.fst (none, none) values
    unfold exitSource
    simp only [values, List.map_flatMap, List.map_map, Function.comp_def] at mapped ⊢
    rw [mapped]
  have exit : (collectMerge (files.map (·.2.store))).exit.2 =
      (newestValue (none, none) values).2.2 := by
    have mapped := newestValue_map Prod.snd (none, none) values
    rw [collect_exit]
    simp only [values, List.map_flatMap, List.map_map, Function.comp_def, List.flatMap_map,
      Prod.mk.eta, List.map_id'] at mapped ⊢
    rw [mapped]
  rcases (newestValue_cases (none, none) values).1 with nothing | ⟨member, -⟩
  · left
    rw [source, exit, nothing]
    exact ⟨rfl, rfl⟩
  · right
    rcases List.mem_flatMap.1 member with ⟨entry, its, inside⟩
    rcases List.mem_map.1 inside with ⟨one, held, same⟩
    refine ⟨entry, its, ?_, one, held, ?_⟩
    · rw [source, ← same]
    · rw [exit, ← same]

/-! ### Stores and editors -/

section

variable {world : World π σ} {listing : List Nat}

omit [PathBuf π] in
theorem mem_opened {entry : Nat × File σ} :
    entry ∈ world.opened listing ↔ entry.1 ∈ listing ∧ world.files entry.1 = some entry.2 := by
  unfold World.opened
  rw [List.mem_filterMap]
  constructor
  · rintro ⟨id, member, its⟩
    rcases Option.map_eq_some_iff.1 its with ⟨file, found, rfl⟩
    exact ⟨member, found⟩
  · rintro ⟨member, found⟩
    refine ⟨entry.1, member, ?_⟩
    rw [found]
    rfl

omit [PathBuf π] in
theorem live_iff {id : Nat} {inst : Instance π σ} {file : File σ} :
    world.live id = some (inst, file) ↔
      world.instances id = some inst ∧ world.files id = some file ∧ inst.phase = .live := by
  unfold World.live
  cases world.instances id with
  | none => simp
  | some inst' =>
      cases world.files id with
      | none => simp
      | some file' =>
          simp only
          split
          · next lives =>
              constructor
              · intro same
                cases same
                exact ⟨rfl, rfl, lives⟩
              · rintro ⟨⟨⟩, ⟨⟩, -⟩
                rfl
          · next dead =>
              constructor
              · intro same
                cases same
              · rintro ⟨⟨⟩, -, lives⟩
                exact absurd lives dead

omit [PathBuf π] in
/-- A live editor's event finds the editor and its store. -/
theorem live_taken {id : Nat} {next : World π σ} {act : Instance π σ × File σ → World π σ}
    (taken : (world.live id).map act = some next) : ∃ inst file, world.instances id = some inst ∧
      world.files id = some file ∧ inst.phase = .live ∧ next = act (inst, file) := by
  rcases Option.map_eq_some_iff.1 taken with ⟨⟨inst, file⟩, lives, same⟩
  rcases live_iff.1 lives with ⟨found, there, lives⟩
  exact ⟨inst, file, found, there, lives, same.symm⟩

end

/-! ### The invariant -/

/-- The rows on disk: stamped by past flushes, each by its own store's, in the order of the changes
they come from. -/
structure Rows (files : Nat → Option (File σ)) (clock : Nat) (changes : List (Key × Option Value)) :
    Prop where
  dated : ∀ id file, files id = some file → ∀ key row, file.store.row key = some row →
    0 < row.ts ∧ row.ts ≤ clock
  apart : ∀ id file id' file', files id = some file → files id' = some file' →
    ∀ key row key' row', file.store.row key = some row → file'.store.row key' = some row' →
      row.ts = row'.ts → id = id'
  ordered : ∀ id file id' file', files id = some file → files id' = some file' →
    ∀ key, key.settable = true → ∀ row row', file.store.row key = some row →
      file'.store.row key = some row' → row.ts ≤ row'.ts → file.origin key ≤ file'.origin key
  sourced : ∀ id file, files id = some file → ∀ key, key.settable = true → ∀ row,
    file.store.row key = some row → changes[file.origin key]? = some (key, some row.value)

/-- What an editor holds covers its own store and those it absorbed. -/
structure Holds (files : Nat → Option (File σ)) (changes : List (Key × Option Value)) (id : Nat)
    (inst : Instance π σ) : Prop where
  sourced : ∀ key, key.settable = true → ∀ value, inst.memory.value key = some value →
    changes[inst.origin key]? = some (key, some value)
  covered : ∀ other, other = id ∨ other ∈ inst.absorbed → ∀ file, files other = some file →
    ∀ key, key.settable = true → file.store.row key ≠ none →
      file.origin key ≤ inst.origin key ∧
      (inst.memory.value key = none → changes[inst.origin key]? = some (key, none))

/-- Numbered marks are `'0` and on, up to one of the ten. -/
structure InARow {β : Type} (marks : Char → Option β) : Prop where
  digits : ∀ mark, marks mark ≠ none → ∃ n < 10, mark = digit n
  below : ∀ n < 9, marks (digit (n + 1)) ≠ none → marks (digit n) ≠ none

/-- The numbered marks of an editor are those of its load, over those of the stores it absorbed. -/
structure Marks (files : Nat → Option (File σ)) (id : Nat) (inst : Instance π σ) : Prop where
  held : InARow fun mark => inst.memory.value (.numbered mark)
  above : ∀ other ∈ inst.absorbed, ∀ file, files other = some file → ∀ mark,
    file.store.row (.numbered mark) ≠ none → inst.memory.value (.numbered mark) ≠ none
  flushed : ∀ file, files id = some file → file.store.info ≠ none →
    (∀ mark, (file.store.row (.numbered mark)).map (·.value) =
      inst.memory.value (.numbered mark)) ∧
    ∀ other ∈ inst.absorbed, ∀ file', files other = some file' → ∀ mark row row',
      file.store.row (.numbered mark) = some row →
        file'.store.row (.numbered mark) = some row' → row'.ts ≤ row.ts
  unflushed : ∀ file, files id = some file → file.store.info = none →
    ∀ mark, file.store.row (.numbered mark) = none

/-- Exits that are consumed and still on disk are absorbed by whoever consumed them. -/
structure Exits (world : World π σ) : Prop where
  known : ∀ id inst, world.instances id = some inst → ∀ source ∈ inst.shifted,
    source < world.minted ∧ ∀ inst', world.instances source = some inst' → inst'.phase ≠ .live
  absorbed : ∀ id inst, world.instances id = some inst → ∀ source ∈ inst.shifted,
    world.files source ≠ none → source ∈ inst.absorbed
  gone : ∀ id inst, world.instances id = some inst → inst.phase = .exited →
    ∀ other ∈ inst.absorbed, world.files other = none
  written : ∀ id file, world.files id = some file → ∃ inst, world.instances id = some inst ∧
    (∀ source ∈ file.shifted, source ∈ inst.shifted) ∧
    (file.store.info = none → file.shifted = []) ∧
    (inst.phase ≠ .exited → file.store.exits = [])

structure Kept (world : World π σ) : Prop where
  rows : Rows world.files world.clock world.changes
  holds : ∀ id inst, world.instances id = some inst → inst.phase = .live →
    Holds world.files world.changes id inst
  marks : ∀ id inst, world.instances id = some inst → Marks world.files id inst
  exits : Exits world
  minted : ∀ id inst, world.instances id = some inst → id < world.minted
  absorbed : ∀ id inst, world.instances id = some inst → ∀ other ∈ inst.absorbed,
    other < id ∧ ∀ inst', world.instances other = some inst' → inst'.phase ≠ .live

omit [PathBuf π] in
theorem readable_iff {world : World π σ} {id : Nat} :
    world.readable id = true ↔ world.files id ≠ none ∧
      ∀ inst, world.instances id = some inst → inst.phase ≠ .live := by
  unfold World.readable
  rw [Bool.and_eq_true, Option.isSome_iff_ne_none]
  apply and_congr_right
  intro _
  cases world.instances id with
  | none => simp
  | some inst => simp

section

variable {files files' : Nat → Option (File σ)} {clock clock' : Nat}
  {changes : List (Key × Option Value)}

/-- Stores may go, and empty ones may come. -/
theorem Rows.fewer (rows : Rows files clock changes)
    (known : ∀ id file, files' id = some file →
      files id = some file ∨ ∀ key, file.store.row key = none) :
    Rows files' clock changes := by
  have old : ∀ id file, files' id = some file → ∀ key row, file.store.row key = some row →
      files id = some file := by
    intro id file found key row its
    rcases known id file found with before | empty
    · exact before
    · rw [empty] at its
      cases its
  constructor
  · intro id file found key row its
    exact rows.dated id file (old id file found key row its) key row its
  · intro id file id' file' found found' key row key' row' its its'
    exact rows.apart id file id' file' (old id file found key row its)
      (old id' file' found' key' row' its') key row key' row' its its'
  · intro id file id' file' found found' key settable row row' its its'
    exact rows.ordered id file id' file' (old id file found key row its)
      (old id' file' found' key row' its') key settable row row' its its'
  · intro id file found key settable row its
    exact rows.sourced id file (old id file found key row its) key settable row its

theorem get_changes {change : Key × Option Value} {index : Nat} {entry : Key × Option Value}
    (found : changes[index]? = some entry) : (changes ++ [change])[index]? = some entry := by
  rw [List.getElem?_append_left (List.getElem?_eq_some_iff.1 found).1]
  exact found

theorem Rows.grow (rows : Rows files clock changes) (change : Key × Option Value) :
    Rows files clock (changes ++ [change]) := by
  refine ⟨rows.dated, rows.apart, rows.ordered, ?_⟩
  intro id file found key settable row its
  exact get_changes (rows.sourced id file found key settable row its)

variable {file : File σ} {inst : Instance π σ}

/-- A row of a flushed store comes from memory, or was there before. -/
theorem flushed_row {ts : Nat} {exit : Option (Pos π)} {key : Key} {row : Stamped Value}
    (found : (file.flush ts inst exit).store.row key = some row) :
    (inst.memory.value key = some row.value ∧ row.ts = ts ∧
      (file.flush ts inst exit).origin key = inst.origin key) ∨
    (file.store.row key = some row ∧ inst.memory.value key = none ∧
      (file.flush ts inst exit).origin key = file.origin key) := by
  unfold File.flush at found ⊢
  rw [row_writeState, value_exitCursor] at found
  cases remembered : inst.memory.value key with
  | some value =>
      rw [remembered] at found
      cases found
      left
      exact ⟨rfl, rfl, by simp [remembered]⟩
  | none =>
      rw [remembered] at found
      right
      split at found
      · exact ⟨found, rfl, by simp [remembered]⟩
      · cases found

/-- What is remembered is in a flushed store. -/
theorem row_flush (file : File σ) (ts : Nat) (exit : Option (Pos π)) {key : Key} {value : Value}
    (remembered : inst.memory.value key = some value) :
    (file.flush ts inst exit).store.row key = some ⟨value, ts⟩ ∧
      (file.flush ts inst exit).origin key = inst.origin key := by
  unfold File.flush
  rw [row_writeState, value_exitCursor, remembered]
  exact ⟨rfl, by simp [remembered]⟩

theorem Rows.flush (rows : Rows files clock changes) {id ts : Nat} (exit : Option (Pos π))
    (found : files id = some file) (later : clock < ts)
    (sourced : ∀ key, key.settable = true → ∀ value, inst.memory.value key = some value →
      changes[inst.origin key]? = some (key, some value))
    (fresh : ∀ key, key.settable = true → inst.memory.value key ≠ none →
      ∀ other file, files other = some file → file.store.row key ≠ none →
        file.origin key ≤ inst.origin key) :
    Rows (fun other => if other = id then some (file.flush ts inst exit) else files other) ts
      changes := by
  -- A row is an old one, or a new one of the flushed store.
  have cases_of : ∀ other after, (if other = id then some (file.flush ts inst exit)
      else files other) = some after → ∀ key row, after.store.row key = some row →
        (∃ before, files other = some before ∧ before.store.row key = some row ∧
          after.origin key = before.origin key) ∨
        (other = id ∧ row.ts = ts ∧ after.origin key = inst.origin key ∧
          inst.memory.value key = some row.value) := by
    intro other after its key row has
    split at its
    · next same =>
        cases its
        rcases flushed_row has with ⟨remembered, dated, origin⟩ | ⟨before, -, origin⟩
        · right
          exact ⟨same, dated, origin, remembered⟩
        · left
          rw [same]
          exact ⟨file, found, before, origin⟩
    · left
      exact ⟨after, its, has, rfl⟩
  constructor
  · intro other after its key row has
    rcases cases_of other after its key row has with ⟨before, there, old, -⟩ | ⟨-, dated, -⟩
    · have bounds := rows.dated other before there key row old
      exact ⟨bounds.1, bounds.2.trans (Nat.le_of_lt later)⟩
    · rw [dated]
      exact ⟨Nat.zero_lt_of_lt later, Nat.le_refl _⟩
  · intro one after one' after' its its' key row key' row' has has' tied
    rcases cases_of one after its key row has with ⟨before, there, old, -⟩ | ⟨same, dated, -⟩
    · rcases cases_of one' after' its' key' row' has' with
        ⟨before', there', old', -⟩ | ⟨-, dated', -⟩
      · exact rows.apart one before one' before' there there' key row key' row' old old' tied
      · have bound := (rows.dated one before there key row old).2
        rw [tied, dated'] at bound
        exact absurd later (Nat.not_lt.2 bound)
    · rcases cases_of one' after' its' key' row' has' with
        ⟨before', there', old', -⟩ | ⟨same', -⟩
      · have bound := (rows.dated one' before' there' key' row' old').2
        rw [← tied, dated] at bound
        exact absurd later (Nat.not_lt.2 bound)
      · rw [same, same']
  · intro one after one' after' its its' key settable row row' has has' older
    rcases cases_of one after its key row has with
      ⟨before, there, old, origin⟩ | ⟨same, dated, origin, remembered⟩
    · rcases cases_of one' after' its' key row' has' with
        ⟨before', there', old', origin'⟩ | ⟨-, -, origin', remembered'⟩
      · rw [origin, origin']
        exact rows.ordered one before one' before' there there' key settable row row' old old'
          older
      · rw [origin, origin']
        apply fresh key settable _ one before there
        · rw [old]
          exact Option.some_ne_none _
        · rw [remembered']
          exact Option.some_ne_none _
    · rcases cases_of one' after' its' key row' has' with
        ⟨before', there', old', -⟩ | ⟨-, -, origin', -⟩
      · have bound := (rows.dated one' before' there' key row' old').2
        rw [dated] at older
        exact absurd later (Nat.not_lt.2 (older.trans bound))
      · rw [origin, origin']
  · intro one after its key settable row has
    rcases cases_of one after its key row has with
      ⟨before, there, old, origin⟩ | ⟨-, -, origin, remembered⟩
    · rw [origin]
      exact rows.sourced one before there key settable row old
    · rw [origin]
      exact sourced key settable row.value remembered

end

/-! ### What a load reads -/

section

variable {world : World π σ} {listing : List Nat}

omit [PathBuf π] in
theorem untied_opened (rows : Rows world.files world.clock world.changes) :
    UntiedRows ((world.opened listing).map (·.2.store)) := by
  intro one member two member' key row row' found found' tied
  rcases List.mem_map.1 member with ⟨entry, its, rfl⟩
  rcases List.mem_map.1 member' with ⟨entry', its', rfl⟩
  have there := (mem_opened.1 its).2
  have there' := (mem_opened.1 its').2
  have same := rows.apart _ _ _ _ there there' key row key row' found found' tied
  rw [same, there'] at there
  rw [Option.some.inj there, found] at found'
  exact Option.some.inj found'

variable {entry : Nat × File σ} {key : Key}

omit [PathBuf π] in
/-- The newest row's change is the merge's. -/
theorem mergedOrigin_eq (rows : Rows world.files world.clock world.changes)
    (member : entry ∈ world.opened listing) {row : Stamped Value}
    (found : entry.2.store.row key = some row)
    (newest : ∀ other ∈ world.opened listing, ∀ row', other.2.store.row key = some row' →
      row'.ts ≤ row.ts) : mergedOrigin (world.opened listing) key = entry.2.origin key := by
  have taken : newestValue 0 ((world.opened listing).flatMap fun entry =>
      (entry.2.store.row key).toList.map fun row => (row.ts, entry.2.origin key)) =
        (row.ts, entry.2.origin key) := by
    apply newestValue_eq
    · intro one its two its' tied
      rcases List.mem_flatMap.1 its with ⟨left, there, inside⟩
      rcases List.mem_flatMap.1 its' with ⟨right, there', inside'⟩
      rcases List.mem_map.1 inside with ⟨one_row, held, rfl⟩
      rcases List.mem_map.1 inside' with ⟨two_row, held', rfl⟩
      have same := rows.apart _ _ _ _ (mem_opened.1 there).2 (mem_opened.1 there').2 key one_row
        key two_row (Option.mem_toList.1 held) (Option.mem_toList.1 held') tied
      have file := (mem_opened.1 there).2
      rw [same, (mem_opened.1 there').2] at file
      exact Prod.ext tied (congrArg (fun file => file.origin key) (Option.some.inj file)).symm
    · apply List.mem_flatMap.2
      exact ⟨entry, member, List.mem_map.2 ⟨row, Option.mem_toList.2 found, rfl⟩⟩
    · exact (rows.dated _ _ (mem_opened.1 member).2 key row found).1
    · intro other its
      rcases List.mem_flatMap.1 its with ⟨left, there, inside⟩
      rcases List.mem_map.1 inside with ⟨other_row, held, rfl⟩
      exact newest left there other_row (Option.mem_toList.1 held)
  unfold mergedOrigin
  rw [taken]

/-- What a load makes of a key: the newest row it read, and the change behind that. -/
theorem loaded_value (rows : Rows world.files world.clock world.changes) (order : IterOrder)
    (settable : key.settable = true) {value : Value}
    (loaded : (loadInstance order (world.opened listing) : Instance π σ).memory.value key =
      some value) :
    ∃ entry ∈ world.opened listing, ∃ row, entry.2.store.row key = some row ∧ row.value = value ∧
      mergedOrigin (world.opened listing) key = entry.2.origin key ∧
      ∀ other ∈ world.opened listing, ∀ row', other.2.store.row key = some row' →
        row'.ts ≤ row.ts := by
  unfold loadInstance at loaded
  rw [value_loadState order _ settable, Option.map_eq_some_iff] at loaded
  rcases loaded with ⟨row, merged, rfl⟩
  rcases (row_collectMerge (untied_opened rows) key row).1 merged with
    ⟨⟨store, member, found⟩, newest⟩
  rcases List.mem_map.1 member with ⟨entry, there, rfl⟩
  have newest_file : ∀ other ∈ world.opened listing, ∀ row',
      other.2.store.row key = some row' → row'.ts ≤ row.ts := by
    intro other its row' has
    exact newest _ (List.mem_map.2 ⟨other, its, rfl⟩) row' has
  exact ⟨entry, there, row, found, rfl, mergedOrigin_eq rows there found newest_file, newest_file⟩

/-- Of the rows of a key one is the newest. -/
theorem exists_newestRow {stores : List (Store σ)} {store : Store σ} (member : store ∈ stores)
    (held : store.row key ≠ none) : ∃ row, NewestRow stores key row := by
  cases latest : (stores.filterMap (·.row key)).argmax (·.ts) with
  | none =>
      have nothing := List.argmax_eq_none.1 latest
      rcases Option.ne_none_iff_exists'.1 held with ⟨row, found⟩
      have there : row ∈ stores.filterMap (·.row key) :=
        List.mem_filterMap.2 ⟨store, member, found⟩
      rw [nothing] at there
      cases there
  | some row =>
      refine ⟨row, List.mem_filterMap.1 (List.argmax_mem latest), ?_⟩
      intro other member' row' found
      have there : row' ∈ stores.filterMap (·.row key) :=
        List.mem_filterMap.2 ⟨other, member', found⟩
      exact List.le_of_mem_argmax there latest

/-- A key that some opened store has a row of is loaded. -/
theorem loaded_some (rows : Rows world.files world.clock world.changes) (order : IterOrder)
    (settable : key.settable = true) (member : entry ∈ world.opened listing)
    (held : entry.2.store.row key ≠ none) :
    (loadInstance order (world.opened listing) : Instance π σ).memory.value key ≠ none := by
  have inside : entry.2.store ∈ (world.opened listing).map (·.2.store) :=
    List.mem_map.2 ⟨entry, member, rfl⟩
  rcases exists_newestRow inside held with ⟨row, newest⟩
  unfold loadInstance
  rw [value_loadState order _ settable, (row_collectMerge (untied_opened rows) key row).2 newest]
  exact Option.some_ne_none _

omit [PathBuf π] in
/-- A load covers what it opened. -/
theorem loaded_covers (rows : Rows world.files world.clock world.changes)
    (settable : key.settable = true) (member : entry ∈ world.opened listing)
    (held : entry.2.store.row key ≠ none) :
    entry.2.origin key ≤ mergedOrigin (world.opened listing) key := by
  have inside : entry.2.store ∈ (world.opened listing).map (·.2.store) :=
    List.mem_map.2 ⟨entry, member, rfl⟩
  rcases exists_newestRow inside held with ⟨row, ⟨store, there, found⟩, newest⟩
  rcases List.mem_map.1 there with ⟨last, its, rfl⟩
  have newest_file : ∀ other ∈ world.opened listing, ∀ row',
      other.2.store.row key = some row' → row'.ts ≤ row.ts := by
    intro other member' row' has
    exact newest _ (List.mem_map.2 ⟨other, member', rfl⟩) row' has
  rw [mergedOrigin_eq rows its found newest_file]
  rcases Option.ne_none_iff_exists'.1 held with ⟨older, has⟩
  exact rows.ordered _ _ _ _ (mem_opened.1 member).2 (mem_opened.1 its).2 key settable older row has
    found (newest_file entry member older has)

end

/-! ### Steps -/

theorem kept_start : Kept (World.start : World π σ) := by
  have no_file : ∀ id file, (World.start : World π σ).files id = some file → False := by
    intro id file found
    cases found
  have no_editor : ∀ id inst, (World.start : World π σ).instances id = some inst → False := by
    intro id inst found
    cases found
  constructor
  · constructor
    · intro id file found
      exact (no_file id file found).elim
    · intro id file id' file' found
      exact (no_file id file found).elim
    · intro id file id' file' found
      exact (no_file id file found).elim
    · intro id file found
      exact (no_file id file found).elim
  · intro id inst found
    exact (no_editor id inst found).elim
  · intro id inst found
    exact (no_editor id inst found).elim
  · constructor
    · intro id inst found
      exact (no_editor id inst found).elim
    · intro id inst found
      exact (no_editor id inst found).elim
    · intro id inst found
      exact (no_editor id inst found).elim
    · intro id file found
      exact (no_file id file found).elim
  · intro id inst found
    exact (no_editor id inst found).elim
  · intro id inst found
    exact (no_editor id inst found).elim

/-- The editors go on, each with what it absorbed and consumed; no store comes, and one that is
written has the exits its editor consumed. -/
structure Continues (world next : World π σ) : Prop where
  minted : next.minted = world.minted
  older : ∀ id inst', next.instances id = some inst' → ∃ inst, world.instances id = some inst ∧
    inst'.absorbed = inst.absorbed ∧ inst'.shifted = inst.shifted ∧
    (inst'.phase = .live → inst.phase = .live) ∧
    (inst'.phase = .exited → inst.phase = .exited ∨
      ∀ other ∈ inst.absorbed, next.files other = none)
  newer : ∀ id inst, world.instances id = some inst → ∃ inst', next.instances id = some inst' ∧
    inst'.shifted = inst.shifted
  files : ∀ id file', next.files id = some file' → ∃ file inst inst',
    world.files id = some file ∧ world.instances id = some inst ∧
    next.instances id = some inst' ∧
    (file' = file ∧ (inst'.phase ≠ .exited → inst.phase ≠ .exited) ∨
      file'.shifted = inst.shifted ∧ file'.store.info ≠ none ∧
        (inst'.phase ≠ .exited → file'.store.exits = []))

section

variable {world next : World π σ}

omit [PathBuf π] in
theorem Continues.exits (continues : Continues world next) (exits : Exits world) : Exits next := by
  have stays : ∀ id, next.files id ≠ none → world.files id ≠ none := by
    intro id there
    rcases Option.ne_none_iff_exists'.1 there with ⟨file', found⟩
    rcases continues.files id file' found with ⟨file, -, -, before, -⟩
    rw [before]
    exact Option.some_ne_none _
  constructor
  · intro id inst' found source member
    rcases continues.older id inst' found with ⟨inst, before, -, same, -⟩
    rw [same] at member
    rcases exits.known id inst before source member with ⟨small, dead⟩
    rw [continues.minted]
    refine ⟨small, ?_⟩
    intro other' found' lives
    rcases continues.older source other' found' with ⟨other, before', -, -, lived, -⟩
    exact dead other before' (lived lives)
  · intro id inst' found source member there
    rcases continues.older id inst' found with ⟨inst, before, same, same', -⟩
    rw [same'] at member
    rw [same]
    exact exits.absorbed id inst before source member (stays source there)
  · intro id inst' found exited other member
    rcases continues.older id inst' found with ⟨inst, before, same, -, -, left⟩
    rw [same] at member
    rcases left exited with was | gone
    · by_contra there
      exact stays other there (exits.gone id inst before was other member)
    · exact gone other member
  · intro id file' found
    rcases continues.files id file' found with
      ⟨file, inst, inst', before, its, its', ⟨rfl, phases⟩ | ⟨same, info, quiet⟩⟩
    · rcases exits.written id file' before with ⟨owner, owns, consumed, empty, quiet⟩
      rcases continues.newer id owner owns with ⟨owner', owns', same⟩
      rw [its'] at owns'
      cases owns'
      rw [its] at owns
      cases owns
      refine ⟨inst', its', ?_, empty, ?_⟩
      · rw [same]
        exact consumed
      · intro running
        exact quiet (phases running)
    · rcases continues.newer id inst its with ⟨owner', owns', shifted⟩
      rw [its'] at owns'
      cases owns'
      refine ⟨inst', its', ?_, ?_, quiet⟩
      · rw [same, shifted]
        exact fun _ member => member
      · intro nothing
        exact absurd nothing info

theorem Continues.absorbed (continues : Continues world next) (kept : Kept world) :
    ∀ id inst, next.instances id = some inst → ∀ other ∈ inst.absorbed,
      other < id ∧ ∀ inst', next.instances other = some inst' → inst'.phase ≠ .live := by
  intro id inst' found other member
  rcases continues.older id inst' found with ⟨inst, before, same, -⟩
  rw [same] at member
  rcases kept.absorbed id inst before other member with ⟨less, dead⟩
  refine ⟨less, ?_⟩
  intro absorbed' found' lives
  rcases continues.older other absorbed' found' with ⟨absorbed, before', -, -, lived, -⟩
  exact dead absorbed before' (lived lives)

theorem Continues.known (continues : Continues world next) (kept : Kept world) :
    ∀ id inst, next.instances id = some inst → id < next.minted := by
  intro id inst' found
  rcases continues.older id inst' found with ⟨inst, before, -⟩
  rw [continues.minted]
  exact kept.minted id inst before

end

section

variable {files files' : Nat → Option (File σ)} {changes : List (Key × Option Value)} {id : Nat}
  {inst : Instance π σ}

theorem Holds.grow (holds : Holds files changes id inst) (change : Key × Option Value) :
    Holds files (changes ++ [change]) id inst := by
  constructor
  · intro key settable value remembered
    exact get_changes (holds.sourced key settable value remembered)
  · intro other its file found key settable held
    rcases holds.covered other its file found key settable held with ⟨before, removed⟩
    exact ⟨before, fun nothing => get_changes (removed nothing)⟩

/-- Other stores may come and go. -/
theorem Holds.fewer (holds : Holds files changes id inst)
    (known : ∀ other, other = id ∨ other ∈ inst.absorbed → ∀ file, files' other = some file →
      files other = some file) :
    Holds files' changes id inst := by
  refine ⟨holds.sourced, ?_⟩
  intro other its file found
  exact holds.covered other its file (known other its file found)

theorem Marks.fewer (marks : Marks files id inst)
    (known : ∀ other, other = id ∨ other ∈ inst.absorbed → ∀ file, files' other = some file →
      files other = some file) :
    Marks files' id inst := by
  constructor
  · exact marks.held
  · intro other its file found
    exact marks.above other its file (known other (.inr its) file found)
  · intro file found info
    rcases marks.flushed file (known id (.inl rfl) file found) info with ⟨same, newest⟩
    refine ⟨same, ?_⟩
    intro other its file' found'
    exact newest other its file' (known other (.inr its) file' found')
  · intro file found
    exact marks.unflushed file (known id (.inl rfl) file found)

/-- The marks do not hang on the rest of an editor's memory. -/
theorem Marks.edit (marks : Marks files id inst) {inst' : Instance π σ}
    (same : inst'.absorbed = inst.absorbed)
    (remembered : ∀ mark, inst'.memory.value (.numbered mark) = inst.memory.value (.numbered mark)) :
    Marks files id inst' := by
  constructor
  · simp only [remembered]
    exact marks.held
  · rw [same]
    simp only [remembered]
    exact marks.above
  · rw [same]
    simp only [remembered]
    exact marks.flushed
  · exact marks.unflushed

end

theorem get_update {α : Type} {lookup : Nat → Option α} {id other : Nat} {value found : α}
    (its : (if other = id then some value else lookup other) = some found) :
    (other = id ∧ found = value) ∨ (other ≠ id ∧ lookup other = some found) := by
  split at its
  · next same =>
      left
      exact ⟨same, (Option.some.inj its).symm⟩
  · next differs =>
      right
      exact ⟨differs, its⟩

section

variable {world next : World π σ} {id ts : Nat} {inst inst' : Instance π σ} {file : File σ}

theorem Kept.step (kept : Kept world) (continues : Continues world next)
    (rows : Rows next.files next.clock next.changes)
    (holds : ∀ id inst, next.instances id = some inst → inst.phase = .live →
      Holds next.files next.changes id inst)
    (marks : ∀ id inst, next.instances id = some inst → Marks next.files id inst) : Kept next where
  rows := rows
  holds := holds
  marks := marks
  exits := continues.exits kept.exits
  minted := continues.known kept
  absorbed := continues.absorbed kept

/-- A live editor changes; nothing on disk does. -/
theorem continues_setInstance (kept : Kept world) (found : world.instances id = some inst)
    (lives : inst.phase = .live) (absorbed : inst'.absorbed = inst.absorbed)
    (shifted : inst'.shifted = inst.shifted) (stays : inst'.phase ≠ .exited)
    (changes : List (Key × Option Value)) :
    Continues world { (world.setInstance id inst') with changes := changes } := by
  constructor
  · rfl
  · intro other after its
    rcases get_update its with ⟨rfl, rfl⟩ | ⟨-, before⟩
    · exact ⟨inst, found, absorbed, shifted, fun _ => lives, fun exited => absurd exited stays⟩
    · exact ⟨after, before, rfl, rfl, fun running => running, .inl⟩
  · intro other before its
    by_cases same : other = id
    · subst same
      rw [found] at its
      cases its
      exact ⟨inst', if_pos rfl, shifted⟩
    · refine ⟨before, ?_, rfl⟩
      exact (if_neg same).trans its
  · intro other after its
    rcases kept.exits.written other after its with ⟨owner, owns, -⟩
    by_cases same : other = id
    · subst same
      rw [found] at owns
      cases owns
      refine ⟨after, inst, inst', its, found, if_pos rfl, .inl ⟨rfl, ?_⟩⟩
      intro _ exited
      rw [lives] at exited
      cases exited
    · refine ⟨after, owner, owner, its, owns, ?_, .inl ⟨rfl, fun running => running⟩⟩
      exact (if_neg same).trans owns

theorem Change.settable_key (change : Change π) : change.key.settable = true := by
  cases change <;> rfl

theorem value_apply_numbered (state : PersistState π σ) (change : Change π) (mark : Char) :
    (state.apply change).value (.numbered mark) = state.value (.numbered mark) := by
  rw [value_apply, if_neg]
  intro same
  have settable := change.settable_key
  rw [← same] at settable
  cases settable

theorem change_kept (kept : Kept world) (found : world.instances id = some inst)
    (lives : inst.phase = .live) (change : Change π) :
    Kept { (world.setInstance id { inst with
        memory := inst.memory.apply change
        origin := fun key =>
          if key = change.key then world.changes.length else inst.origin key }) with
      changes := world.changes ++ [(change.key, change.value)] } := by
  have stays : inst.phase ≠ .exited := by
    rw [lives]
    exact fun same => by cases same
  refine kept.step ?_ ?_ ?_ ?_
  · refine continues_setInstance kept found lives ?_ ?_ ?_ _
    · rfl
    · rfl
    · exact stays
  · exact kept.rows.grow _
  · intro other after its running
    rcases get_update its with ⟨rfl, rfl⟩ | ⟨-, before⟩
    · have holds := kept.holds other inst found lives
      constructor
      · intro key settable value remembered
        rw [value_apply] at remembered
        simp only
        split at remembered
        · next same =>
            rw [if_pos same, List.getElem?_concat_length, same, remembered]
        · next differs =>
            rw [if_neg differs]
            exact get_changes (holds.sourced key settable value remembered)
      · intro absorbed member file its' key settable held
        rcases Option.ne_none_iff_exists'.1 held with ⟨row, there⟩
        have known := kept.rows.sourced absorbed file its' key settable row there
        rcases holds.covered absorbed member file its' key settable held with ⟨earlier, removed⟩
        simp only [value_apply]
        split
        · next same =>
            constructor
            · exact Nat.le_of_lt (List.getElem?_eq_some_iff.1 known).1
            · intro nothing
              rw [List.getElem?_concat_length, same, nothing]
        · exact ⟨earlier, fun nothing => get_changes (removed nothing)⟩
    · exact (kept.holds other after before running).grow _
  · intro other after its
    rcases get_update its with ⟨rfl, rfl⟩ | ⟨-, before⟩
    · refine (kept.marks other inst found).edit ?_ ?_
      · rfl
      · intro mark
        exact value_apply_numbered inst.memory change mark
    · exact kept.marks other after before

theorem edit_kept (kept : Kept world) (found : world.instances id = some inst)
    (lives : inst.phase = .live) (rest : PersistState π σ) :
    Kept (world.setInstance id { inst with memory := inst.memory.edit rest }) := by
  have stays : inst.phase ≠ .exited := by
    rw [lives]
    exact fun same => by cases same
  refine kept.step ?_ ?_ ?_ ?_
  · refine continues_setInstance kept found lives ?_ ?_ ?_ world.changes
    · rfl
    · rfl
    · exact stays
  · exact kept.rows
  · intro other after its running
    rcases get_update its with ⟨rfl, rfl⟩ | ⟨-, before⟩
    · have holds := kept.holds other inst found lives
      constructor
      · simp only [value_edit]
        exact holds.sourced
      · simp only [value_edit]
        exact holds.covered
    · exact kept.holds other after before running
  · intro other after its
    rcases get_update its with ⟨rfl, rfl⟩ | ⟨-, before⟩
    · refine (kept.marks other inst found).edit ?_ ?_
      · rfl
      · intro mark
        exact value_edit inst.memory rest (.numbered mark)
    · exact kept.marks other after before

theorem crash_kept (kept : Kept world) (found : world.instances id = some inst)
    (lives : inst.phase = .live) : Kept (world.setInstance id { inst with phase := .crashed }) := by
  refine kept.step ?_ ?_ ?_ ?_
  · refine continues_setInstance kept found lives ?_ ?_ ?_ world.changes
    · rfl
    · rfl
    · intro exited
      cases exited
  · exact kept.rows
  · intro other after its running
    rcases get_update its with ⟨rfl, rfl⟩ | ⟨-, before⟩
    · cases running
    · exact kept.holds other after before running
  · intro other after its
    rcases get_update its with ⟨rfl, rfl⟩ | ⟨-, before⟩
    · refine (kept.marks other inst found).edit ?_ ?_
      · rfl
      · intro mark
        rfl
    · exact kept.marks other after before

/-! What a flush changes on disk. -/

theorem numbered_flush (exit : Option (Pos π)) (mark : Char) :
    (file.flush ts inst exit).store.row (.numbered mark) =
      (inst.memory.value (.numbered mark)).map fun value => ⟨value, ts⟩ := by
  unfold File.flush
  rw [row_writeState, value_exitCursor]
  exact Option.or_none ..

/-- One store is written, and perhaps others are deleted. -/
structure Written (world : World π σ) (id : Nat) (after : File σ) (files' : Nat → Option (File σ)) :
    Prop where
  own : files' id = some after
  others : ∀ other, other ≠ id → ∀ file, files' other = some file → world.files other = some file

/-- A live editor's store is nobody else's. -/
theorem Kept.apart (kept : Kept world) (found : world.instances id = some inst)
    (lives : inst.phase = .live) {one : Nat} {holder : Instance π σ}
    (its : world.instances one = some holder) (differs : one ≠ id) :
    ∀ other, other = one ∨ other ∈ holder.absorbed → other ≠ id := by
  rintro other (rfl | member) same
  · exact differs same
  · subst same
    exact (kept.absorbed one holder its other member).2 inst found lives

theorem Kept.not_own (kept : Kept world) (found : world.instances id = some inst) :
    ∀ other ∈ inst.absorbed, other ≠ id := by
  intro other member same
  have less := (kept.absorbed id inst found other member).1
  rw [same] at less
  exact Nat.lt_irrefl _ less

section

variable {files' : Nat → Option (File σ)} {exit : Option (Pos π)}

theorem rows_written (kept : Kept world) (found : world.instances id = some inst)
    (there : world.files id = some file) (lives : inst.phase = .live) (later : world.clock < ts)
    (fresh : UpToDate world inst) (written : Written world id (file.flush ts inst exit) files') :
    Rows files' ts world.changes := by
  apply (kept.rows.flush exit there later (kept.holds id inst found lives).sourced fresh).fewer
  intro other after its
  left
  by_cases same : other = id
  · subst same
    rw [written.own] at its
    rw [if_pos rfl]
    exact its
  · rw [if_neg same]
    exact written.others other same after its

variable {holder : Instance π σ}

theorem holds_written (kept : Kept world) (found : world.instances id = some inst)
    (there : world.files id = some file) (lives : inst.phase = .live)
    (written : Written world id (file.flush ts inst exit) files') {one : Nat}
    (its : world.instances one = some holder) (running : holder.phase = .live) :
    Holds files' world.changes one holder := by
  have holds := kept.holds one holder its running
  by_cases same : one = id
  · subst same
    rw [found] at its
    cases its
    refine ⟨holds.sourced, ?_⟩
    rintro other (rfl | member) after its key settable held
    · rw [written.own] at its
      cases its
      rcases Option.ne_none_iff_exists'.1 held with ⟨row, has⟩
      rcases flushed_row has with ⟨remembered, -, origin⟩ | ⟨before, -, origin⟩
      · rw [origin]
        refine ⟨Nat.le_refl _, ?_⟩
        intro nothing
        rw [remembered] at nothing
        cases nothing
      · rw [origin]
        apply holds.covered other (.inl rfl) file there key settable
        rw [before]
        exact Option.some_ne_none _
    · have old := written.others other (kept.not_own found other member) after its
      exact holds.covered other (.inr member) after old key settable held
  · apply holds.fewer
    intro other its' after
    exact written.others other (kept.apart found lives its same other its') after

theorem marks_written (kept : Kept world) (found : world.instances id = some inst)
    (lives : inst.phase = .live) (later : world.clock < ts)
    (written : Written world id (file.flush ts inst exit) files') {one : Nat}
    (its : world.instances one = some holder) : Marks files' one holder := by
  have marks := kept.marks one holder its
  by_cases same : one = id
  · subst same
    rw [found] at its
    cases its
    have old : ∀ other ∈ inst.absorbed, ∀ after, files' other = some after →
        world.files other = some after := by
      intro other member
      exact written.others other (kept.not_own found other member)
    constructor
    · exact marks.held
    · intro other member after its
      exact marks.above other member after (old other member after its)
    · intro after its info
      rw [written.own] at its
      cases its
      constructor
      · intro mark
        rw [numbered_flush]
        cases inst.memory.value (.numbered mark) with
        | none => rfl
        | some value => rfl
      · intro other member after its mark row row' has has'
        rw [numbered_flush, Option.map_eq_some_iff] at has
        rcases has with ⟨value, -, rfl⟩
        have bound := (kept.rows.dated other after (old other member after its) _ row' has').2
        exact bound.trans (Nat.le_of_lt later)
    · intro after its nothing
      rw [written.own] at its
      cases its
      cases nothing
  · apply marks.fewer
    intro other its' after
    exact written.others other (kept.apart found lives its same other its') after

end

theorem flush_kept (kept : Kept world) (found : world.instances id = some inst)
    (there : world.files id = some file) (lives : inst.phase = .live) (later : world.clock < ts)
    (fresh : UpToDate world inst) :
    Kept { (world.setFile id (file.flush ts inst none)) with clock := ts } := by
  have written : Written world id (file.flush ts inst none)
      (world.setFile id (file.flush ts inst none)).files := by
    constructor
    · exact if_pos rfl
    · intro other differs after its
      rcases get_update its with ⟨same, -⟩ | ⟨-, before⟩
      · exact absurd same differs
      · exact before
  refine kept.step ?_ ?_ ?_ ?_
  · constructor
    · rfl
    · intro one after its
      exact ⟨after, its, rfl, rfl, fun running => running, .inl⟩
    · intro one before its
      exact ⟨before, its, rfl⟩
    · intro one after its
      rcases get_update its with ⟨rfl, rfl⟩ | ⟨-, before⟩
      · refine ⟨file, inst, inst, there, found, found, .inr ⟨rfl, ?_, ?_⟩⟩
        · exact Option.some_ne_none _
        · intro _
          rfl
      · rcases kept.exits.written one after before with ⟨owner, owns, -⟩
        exact ⟨after, owner, owner, before, owns, owns, .inl ⟨rfl, fun running => running⟩⟩
  · have rows := rows_written kept found there lives later fresh written
    exact rows
  · intro one holder its running
    exact holds_written kept found there lives written its running
  · intro one holder its
    exact marks_written kept found lives later written its

theorem exit_kept (kept : Kept world) (found : world.instances id = some inst)
    (there : world.files id = some file) (lives : inst.phase = .live) (later : world.clock < ts)
    (fresh : UpToDate world inst) (cursor : Pos π) :
    Kept { ((world.setFile id (file.flush ts inst (some cursor))).setInstance id
        { inst with phase := .exited }) with
      clock := ts
      files := fun other => if other ∈ inst.absorbed then none
        else (world.setFile id (file.flush ts inst (some cursor))).files other } := by
  have written : Written world id (file.flush ts inst (some cursor)) (fun other =>
      if other ∈ inst.absorbed then none
      else (world.setFile id (file.flush ts inst (some cursor))).files other) := by
    constructor
    · rw [if_neg (fun member => kept.not_own found id member rfl)]
      exact if_pos rfl
    · intro other differs after its
      split at its
      · cases its
      · rcases get_update its with ⟨same, -⟩ | ⟨-, before⟩
        · exact absurd same differs
        · exact before
  refine kept.step ?_ ?_ ?_ ?_
  · constructor
    · rfl
    · intro one after its
      rcases get_update its with ⟨rfl, rfl⟩ | ⟨-, before⟩
      · refine ⟨inst, found, rfl, rfl, fun _ => lives, fun _ => .inr ?_⟩
        intro other member
        exact if_pos member
      · exact ⟨after, before, rfl, rfl, fun running => running, .inl⟩
    · intro one before its
      by_cases same : one = id
      · subst same
        rw [found] at its
        cases its
        exact ⟨{ inst with phase := .exited }, if_pos rfl, rfl⟩
      · refine ⟨before, ?_, rfl⟩
        exact (if_neg same).trans its
    · intro one after its
      by_cases same : one = id
      · subst same
        have same : after = file.flush ts inst (some cursor) :=
          Option.some.inj (its.symm.trans written.own)
        rw [same]
        refine ⟨file, inst, { inst with phase := .exited }, there, found, if_pos rfl,
          .inr ⟨rfl, ?_, ?_⟩⟩
        · exact Option.some_ne_none _
        · intro running
          exact absurd rfl running
      · have before := written.others one same after its
        rcases kept.exits.written one after before with ⟨owner, owns, -⟩
        refine ⟨after, owner, owner, before, owns, ?_, .inl ⟨rfl, fun running => running⟩⟩
        exact (if_neg same).trans owns
  · have rows := rows_written kept found there lives later fresh written
    exact rows
  · intro one holder its running
    rcases get_update its with ⟨rfl, rfl⟩ | ⟨-, before⟩
    · cases running
    · exact holds_written kept found there lives written before running
  · intro one holder its
    rcases get_update its with ⟨rfl, rfl⟩ | ⟨-, before⟩
    · refine (marks_written kept found lives later written found).edit ?_ ?_
      · rfl
      · intro mark
        rfl
    · exact marks_written kept found lives later written before

end

/-! What a load makes of the numbered marks. -/

section

variable {world : World π σ} {listing : List Nat}

theorem file_inARow (kept : Kept world) {id : Nat} {file : File σ}
    (there : world.files id = some file) : InARow fun mark => file.store.row (.numbered mark) := by
  rcases kept.exits.written id file there with ⟨inst, found, -⟩
  have marks := kept.marks id inst found
  by_cases nothing : file.store.info = none
  · have none_of := marks.unflushed file there nothing
    constructor
    · intro mark held
      exact absurd (none_of mark) held
    · intro n _ held
      exact absurd (none_of _) held
  · have same := (marks.flushed file there nothing).1
    have held_iff : ∀ mark, file.store.row (.numbered mark) ≠ none ↔
        inst.memory.value (.numbered mark) ≠ none := by
      intro mark
      rw [← same, Ne, Ne, Option.map_eq_none_iff]
    constructor
    · intro mark held
      exact marks.held.digits mark ((held_iff mark).1 held)
    · intro n small held
      exact (held_iff _).2 (marks.held.below n small ((held_iff _).1 held))

omit [PathBuf π] in
/-- A merge has a row of a key just when one of the stores does. -/
theorem merged_ne_none (rows : Rows world.files world.clock world.changes) (key : Key) :
    (collectMerge ((world.opened listing).map (·.2.store))).row key ≠ none ↔
      ∃ entry ∈ world.opened listing, entry.2.store.row key ≠ none := by
  constructor
  · intro held
    rcases Option.ne_none_iff_exists'.1 held with ⟨row, found⟩
    rcases (row_collectMerge (untied_opened rows) key row).1 found with ⟨⟨store, member, its⟩, -⟩
    rcases List.mem_map.1 member with ⟨entry, there, rfl⟩
    refine ⟨entry, there, ?_⟩
    rw [its]
    exact Option.some_ne_none _
  · rintro ⟨entry, member, held⟩
    have inside : entry.2.store ∈ (world.opened listing).map (·.2.store) :=
      List.mem_map.2 ⟨entry, member, rfl⟩
    rcases exists_newestRow inside held with ⟨row, newest⟩
    rw [(row_collectMerge (untied_opened rows) key row).2 newest]
    exact Option.some_ne_none _

/-- The merged numbered marks, and what a load makes of them. -/
theorem merged_inARow (kept : Kept world) : InARow fun mark =>
    (collectMerge ((world.opened listing).map (·.2.store))).row (.numbered mark) := by
  constructor
  · intro mark held
    rcases (merged_ne_none kept.rows _).1 held with ⟨entry, member, its⟩
    exact (file_inARow kept (mem_opened.1 member).2).digits mark its
  · intro n small held
    rcases (merged_ne_none kept.rows _).1 held with ⟨entry, member, its⟩
    apply (merged_ne_none kept.rows _).2
    exact ⟨entry, member, (file_inARow kept (mem_opened.1 member).2).below n small its⟩

theorem loaded_inARow (kept : Kept world) (order : IterOrder) : InARow fun mark =>
    (loadInstance order (world.opened listing) : Instance π σ).memory.value (.numbered mark) := by
  have merged : InARow fun mark =>
      (collectMerge ((world.opened listing).map (·.2.store))).row (.numbered mark) :=
    merged_inARow kept
  unfold loadInstance
  cases consumed : (collectMerge ((world.opened listing).map (·.2.store))).exit.2 with
  | none =>
      simp only [numbered_kept order consumed]
      constructor
      · intro mark held
        exact merged.digits mark (fun nothing => held (by rw [nothing]; rfl))
      · intro n small held
        have its := merged.below n small (fun nothing => held (by rw [nothing]; rfl))
        exact fun nothing => its (Option.map_eq_none_iff.1 nothing)
  | some exit =>
      constructor
      · intro mark held
        rcases Option.ne_none_iff_exists'.1 held with ⟨value, found⟩
        rw [value_shifted order consumed, Option.map_eq_some_iff] at found
        rcases found with ⟨pos, its, -⟩
        rcases lastOf_shiftedRows.1 its with ⟨zero, -⟩ | ⟨n, small, same, -⟩
        · exact ⟨0, by decide, zero⟩
        · exact ⟨n + 1, Nat.succ_lt_succ small, same⟩
      · intro n small held
        cases n with
        | zero =>
            rw [numbered_zero order consumed]
            exact Option.some_ne_none _
        | succ n =>
            rw [numbered_next order consumed small] at held
            rw [numbered_next order consumed (Nat.lt_of_succ_lt small)]
            have its := merged.below n (Nat.lt_of_succ_lt small)
              (fun nothing => held (by rw [nothing]; rfl))
            exact fun nothing => its (Option.map_eq_none_iff.1 nothing)

variable {entry : Nat × File σ}

theorem loaded_above (kept : Kept world) (order : IterOrder)
    (member : entry ∈ world.opened listing) {mark : Char}
    (held : entry.2.store.row (.numbered mark) ≠ none) :
    (loadInstance order (world.opened listing) : Instance π σ).memory.value (.numbered mark) ≠
      none := by
  have in_a_row := file_inARow kept (mem_opened.1 member).2
  unfold loadInstance
  cases consumed : (collectMerge ((world.opened listing).map (·.2.store))).exit.2 with
  | none =>
      simp only [numbered_kept order consumed]
      have its := (merged_ne_none kept.rows _).2 ⟨entry, member, held⟩
      exact fun nothing => its (Option.map_eq_none_iff.1 nothing)
  | some exit =>
      rcases in_a_row.digits mark held with ⟨n, small, rfl⟩
      cases n with
      | zero =>
          rw [numbered_zero order consumed]
          exact Option.some_ne_none _
      | succ n =>
          rw [numbered_next order consumed (Nat.lt_of_succ_lt_succ small)]
          have before := in_a_row.below n (Nat.lt_of_succ_lt_succ small) held
          have its := (merged_ne_none kept.rows _).2 ⟨entry, member, before⟩
          exact fun nothing => its (Option.map_eq_none_iff.1 nothing)

/-- A listing has the stores that no live editor holds. -/
theorem opened_iff (kept : Kept world)
    (all : listing.Perm ((List.range world.minted).filter world.readable)) :
    entry ∈ world.opened listing ↔ world.files entry.1 = some entry.2 ∧
      ∀ inst, world.instances entry.1 = some inst → inst.phase ≠ .live := by
  rw [mem_opened, all.mem_iff, List.mem_filter, List.mem_range, readable_iff]
  constructor
  · rintro ⟨⟨-, -, dead⟩, found⟩
    exact ⟨found, dead⟩
  · rintro ⟨found, dead⟩
    rcases kept.exits.written entry.1 entry.2 found with ⟨inst, its, -⟩
    refine ⟨⟨kept.minted _ inst its, ?_, dead⟩, found⟩
    rw [found]
    exact Option.some_ne_none _

/-- What a load consumes, here or on the way, is a dead editor's exit, and among what it opened
if it is still there. -/
theorem loaded_shifted (kept : Kept world) (order : IterOrder)
    (all : listing.Perm ((List.range world.minted).filter world.readable)) {source : Nat}
    (member : source ∈
      (loadInstance order (world.opened listing) : Instance π σ).shifted) :
    (source < world.minted ∧ ∀ inst, world.instances source = some inst → inst.phase ≠ .live) ∧
      (world.files source ≠ none → source ∈ (world.opened listing).map (·.1)) := by
  have known : source < world.minted ∧
      ∀ inst, world.instances source = some inst → inst.phase ≠ .live := by
    rcases List.mem_append.1 member with consumed | before
    · rcases exit_consumed (world.opened listing) with ⟨nothing, -⟩ | ⟨entry, its, from_it, -⟩
      · rw [nothing] at consumed
        cases consumed
      · rw [from_it] at consumed
        cases List.mem_singleton.1 consumed
        have its := (opened_iff kept all).1 its
        rcases kept.exits.written _ _ its.1 with ⟨inst, found, -⟩
        exact ⟨kept.minted _ inst found, its.2⟩
    · rcases List.mem_flatMap.1 before with ⟨entry, its, inside⟩
      rcases kept.exits.written _ _ (mem_opened.1 its).2 with ⟨inst, found, consumed, -⟩
      exact kept.exits.known _ inst found source (consumed source inside)
  refine ⟨known, ?_⟩
  intro there
  rcases Option.ne_none_iff_exists'.1 there with ⟨file, found⟩
  exact List.mem_map.2 ⟨(source, file), (opened_iff kept all).2 ⟨found, known.2⟩, rfl⟩

/-- What a load leaves. -/
def World.load (world : World π σ) (order : IterOrder) (listing : List Nat) : World π σ :=
  { ((world.setFile world.minted ⟨.empty, fun _ => 0, []⟩).setInstance world.minted
      (loadInstance order (world.opened listing))) with minted := world.minted + 1 }

section Load

variable {order : IterOrder}

/-- What a load opens is a dead editor's. -/
theorem dead_entry (kept : Kept world)
    (all : listing.Perm ((List.range world.minted).filter world.readable)) {other : Nat}
    (member : other ∈ (world.opened listing).map (·.1)) : other < world.minted ∧
      (∀ inst, world.instances other = some inst → inst.phase ≠ .live) ∧
      ∃ file, world.files other = some file ∧ (other, file) ∈ world.opened listing := by
  rcases List.mem_map.1 member with ⟨entry, its, rfl⟩
  have known := (opened_iff kept all).1 its
  rcases kept.exits.written _ _ known.1 with ⟨inst, found, -⟩
  exact ⟨kept.minted _ inst found, known.2, entry.2, known.1, its⟩

variable {file : File σ}

theorem load_old_file {other : Nat} (differs : other ≠ world.minted)
    (its : (world.load order listing).files other = some file) : world.files other = some file := by
  rcases get_update its with ⟨same, -⟩ | ⟨-, before⟩
  · exact absurd same differs
  · exact before

theorem load_new_file (its : (world.load order listing).files world.minted = some file) :
    file = ⟨.empty, fun _ => 0, []⟩ := by
  rcases get_update its with ⟨-, same⟩ | ⟨differs, -⟩
  · exact same
  · exact absurd rfl differs

/-- An old editor's stores are where they were. -/
theorem load_old_stores (kept : Kept world) {id : Nat} {inst : Instance π σ}
    (found : world.instances id = some inst) (other : Nat) (own : other = id ∨ other ∈ inst.absorbed)
    (file : File σ) (its : (world.load order listing).files other = some file) :
    world.files other = some file := by
  rcases own with rfl | member
  · exact load_old_file (Nat.ne_of_lt (kept.minted other inst found)) its
  · have less := (kept.absorbed id inst found other member).1
    exact load_old_file (Nat.ne_of_lt (less.trans (kept.minted id inst found))) its

theorem load_holds (kept : Kept world)
    (all : listing.Perm ((List.range world.minted).filter world.readable)) (id : Nat)
    (inst : Instance π σ) (its : (world.load order listing).instances id = some inst)
    (running : inst.phase = .live) :
    Holds (world.load order listing).files (world.load order listing).changes id inst := by
  rcases get_update its with ⟨same, rfl⟩ | ⟨-, before⟩
  · rw [same]
    constructor
    · intro key settable value remembered
      rcases loaded_value kept.rows order settable remembered with
        ⟨entry, member, row, found, rfl, origin, -⟩
      have known := kept.rows.sourced _ _ (mem_opened.1 member).2 key settable row found
      rw [← origin] at known
      exact known
    · rintro other (rfl | member) file found key settable held
      · rw [load_new_file found] at held
        exact absurd (row_empty key) held
      · rcases dead_entry kept all member with ⟨less, -, before, there, its⟩
        have same := load_old_file (Nat.ne_of_lt less) found
        rw [there] at same
        cases same
        constructor
        · exact loaded_covers kept.rows settable its held
        · intro nothing
          exact absurd nothing (loaded_some kept.rows order settable its held)
  · exact (kept.holds id inst before running).fewer (load_old_stores kept before)

theorem load_marks (kept : Kept world)
    (all : listing.Perm ((List.range world.minted).filter world.readable)) (id : Nat)
    (inst : Instance π σ) (its : (world.load order listing).instances id = some inst) :
    Marks (world.load order listing).files id inst := by
  rcases get_update its with ⟨same, rfl⟩ | ⟨-, before⟩
  · rw [same]
    constructor
    · exact loaded_inARow kept order
    · intro other member file found mark held
      rcases dead_entry kept all member with ⟨less, -, before, there, its⟩
      have same := load_old_file (Nat.ne_of_lt less) found
      rw [there] at same
      cases same
      exact loaded_above kept order its held
    · intro file found info
      rw [load_new_file found] at info
      exact absurd rfl info
    · intro file found _ mark
      rw [load_new_file found]
      exact row_empty _
  · exact (kept.marks id inst before).fewer (load_old_stores kept before)

theorem load_exits (kept : Kept world)
    (all : listing.Perm ((List.range world.minted).filter world.readable)) :
    Exits (world.load order listing) := by
  constructor
  · intro id inst its source member
    have known : source < world.minted ∧
        ∀ inst', world.instances source = some inst' → inst'.phase ≠ .live := by
      rcases get_update its with ⟨-, rfl⟩ | ⟨-, before⟩
      · exact (loaded_shifted kept order all member).1
      · exact kept.exits.known id inst before source member
    refine ⟨Nat.lt_succ_of_lt known.1, ?_⟩
    intro inst' its'
    rcases get_update its' with ⟨same, -⟩ | ⟨-, before'⟩
    · rw [same] at known
      exact absurd known.1 (Nat.lt_irrefl _)
    · exact known.2 inst' before'
  · intro id inst its source member there
    rcases Option.ne_none_iff_exists'.1 there with ⟨file, found⟩
    rcases get_update its with ⟨-, rfl⟩ | ⟨-, before⟩
    · rcases loaded_shifted kept order all member with ⟨⟨less, -⟩, inside⟩
      apply inside
      rw [load_old_file (Nat.ne_of_lt less) found]
      exact Option.some_ne_none _
    · have less := (kept.exits.known id inst before source member).1
      apply kept.exits.absorbed id inst before source member
      rw [load_old_file (Nat.ne_of_lt less) found]
      exact Option.some_ne_none _
  · intro id inst its exited other member
    rcases get_update its with ⟨-, rfl⟩ | ⟨-, before⟩
    · cases exited
    · have less := (kept.absorbed id inst before other member).1.trans
        (kept.minted id inst before)
      refine Eq.trans ?_ (kept.exits.gone id inst before exited other member)
      exact if_neg (Nat.ne_of_lt less)
  · intro id file its
    rcases get_update its with ⟨same, rfl⟩ | ⟨differs, before⟩
    · refine ⟨loadInstance order (world.opened listing), ?_, ?_, fun _ => rfl, fun _ => rfl⟩
      · exact if_pos same
      · intro source member
        cases member
    · rcases kept.exits.written id file before with ⟨inst, found, rest⟩
      refine ⟨inst, ?_, rest⟩
      exact (if_neg differs).trans found

theorem load_absorbed (kept : Kept world)
    (all : listing.Perm ((List.range world.minted).filter world.readable)) (id : Nat)
    (inst : Instance π σ) (its : (world.load order listing).instances id = some inst) (other : Nat)
    (member : other ∈ inst.absorbed) : other < id ∧
      ∀ inst', (world.load order listing).instances other = some inst' → inst'.phase ≠ .live := by
  have known : other < id ∧ other < world.minted ∧
      ∀ inst', world.instances other = some inst' → inst'.phase ≠ .live := by
    rcases get_update its with ⟨same, rfl⟩ | ⟨-, before⟩
    · rcases dead_entry kept all member with ⟨less, dead, -⟩
      rw [same]
      exact ⟨less, less, dead⟩
    · rcases kept.absorbed id inst before other member with ⟨less, dead⟩
      exact ⟨less, less.trans (kept.minted id inst before), dead⟩
  refine ⟨known.1, ?_⟩
  intro inst' its'
  rcases get_update its' with ⟨same, -⟩ | ⟨-, before'⟩
  · exact absurd same (Nat.ne_of_lt known.2.1)
  · exact known.2.2 inst' before'

end Load

theorem load_kept (kept : Kept world) (order : IterOrder)
    (all : listing.Perm ((List.range world.minted).filter world.readable)) :
    Kept (world.load order listing) := by
  refine ⟨?_, load_holds kept all, load_marks kept all, load_exits kept all, ?_, load_absorbed kept all⟩
  · apply kept.rows.fewer
    intro other file its
    rcases get_update its with ⟨-, same⟩ | ⟨-, before⟩
    · right
      rw [same]
      exact row_empty
    · left
      exact before
  · intro id inst its
    rcases get_update its with ⟨same, -⟩ | ⟨-, before⟩
    · rw [same]
      exact Nat.lt_succ_self _
    · exact Nat.lt_succ_of_lt (kept.minted id inst before)

/-- Every step that meets the condition keeps the invariant. -/
theorem step_kept {next : World π σ} {event : Event π σ} (kept : Kept world)
    (meets : Meets world event) (taken : step world event = some next) : Kept next := by
  cases event with
  | load listing order =>
      simp only [step] at taken
      split at taken
      · next all =>
          cases taken
          exact load_kept kept order all
      · cases taken
  | change id change =>
      rcases live_taken taken with ⟨inst, file, found, -, lives, rfl⟩
      exact change_kept kept found lives change
  | edit id rest =>
      rcases live_taken taken with ⟨inst, file, found, -, lives, rfl⟩
      exact edit_kept kept found lives rest
  | flush id ts =>
      rcases live_taken taken with ⟨inst, file, found, there, lives, rfl⟩
      exact flush_kept kept found there lives meets.1 (meets.2 inst found)
  | exit id ts cursor =>
      rcases live_taken taken with ⟨inst, file, found, there, lives, rfl⟩
      exact exit_kept kept found there lives meets.1 (meets.2 inst found) cursor
  | crash id =>
      rcases live_taken taken with ⟨inst, file, found, -, lives, rfl⟩
      exact crash_kept kept found lives

end

/-! ### What a run guarantees -/

section

variable {world : World π σ}

/-- A load consumes no exit that the chain of loads behind it has consumed, and after a crash it
has the marks that were flushed. -/
structure ShiftsOnce (world : World π σ) (opened : List (Nat × File σ)) (inst : Instance π σ) :
    Prop where
  consumed : ∀ source, exitSource opened = some source → ∃ file, (source, file) ∈ opened ∧
    ∃ ts exit, (ts, some exit) ∈ file.store.exits ∧
      inst.memory.value (.numbered (digit 0)) = some (.pos exit)
  passed : exitSource opened = none → ∀ mark, inst.memory.value (.numbered mark) =
    ((collectMerge (opened.map (·.2.store))).row (.numbered mark)).map (·.value)
  once : ∀ source, exitSource opened = some source → ∀ entry ∈ opened, source ∉ entry.2.shifted
  crashed : ∀ entry ∈ opened, ∀ owner, world.instances entry.1 = some owner →
    owner.phase = .crashed → entry.2.store.info.isSome →
      (∀ other ∈ opened, other.1 = entry.1 ∨ other.1 ∈ owner.absorbed) →
        ∀ mark, inst.memory.value (.numbered mark) =
          (entry.2.store.row (.numbered mark)).map (·.value)

/-- Each row that a load reads is what some change set, and comes through unless the key was set
again later. -/
def Yields (changes : List (Key × Option Value)) (opened : List (Nat × File σ))
    (inst : Instance π σ) : Prop :=
  ∀ entry ∈ opened, ∀ key, key.settable = true → ∀ row, entry.2.store.row key = some row →
    changes[entry.2.origin key]? = some (key, some row.value) ∧
    (inst.memory.value key = some row.value ∨
      ∃ later value, entry.2.origin key < later ∧ changes[later]? = some (key, some value) ∧
        inst.memory.value key = some value)

/-- The store has the editor's value of each key, as what the change behind it set. -/
def Flushed (changes : List (Key × Option Value)) (inst : Instance π σ) (ts : Nat) (file : File σ) :
    Prop :=
  ∀ key value, inst.memory.value key = some value →
    file.store.row key = some ⟨value, ts⟩ ∧ file.origin key = inst.origin key ∧
      (key.settable = true → changes[inst.origin key]? = some (key, some value))

/-- The store has a row for each of another's, that is no older, or the key was removed. -/
structure Covers (changes : List (Key × Option Value)) (file other : File σ) : Prop where
  settable : ∀ key, key.settable = true → other.store.row key ≠ none →
    (file.store.row key ≠ none ∧ other.origin key ≤ file.origin key) ∨
      ∃ later, other.origin key ≤ later ∧ changes[later]? = some (key, none)
  numbered : ∀ mark row, other.store.row (.numbered mark) = some row →
    ∃ row', file.store.row (.numbered mark) = some row' ∧ row.ts < row'.ts

/-- Some store has a row of the key from the change or a later one, or the key was removed. -/
def Durable (world : World π σ) (key : Key) (serial : Nat) : Prop :=
  (∃ id file, world.files id = some file ∧ file.store.row key ≠ none ∧
    serial ≤ file.origin key) ∨
  ∃ later, serial ≤ later ∧ world.changes[later]? = some (key, none)

variable {listing : List Nat} {event : Event π σ}

theorem load_shiftsOnce (kept : Kept world) (order : IterOrder)
    (all : listing.Perm ((List.range world.minted).filter world.readable))
    (meets : Meets world (.load listing order : Event π σ)) :
    ShiftsOnce world (world.opened listing) (loadInstance order (world.opened listing)) := by
  have exits := exit_consumed (world.opened listing)
  constructor
  · intro source its
    rcases exits with ⟨nothing, -⟩ | ⟨entry, member, from_it, exit, held, consumed⟩
    · rw [nothing] at its
      cases its
    · rw [from_it] at its
      cases its
      refine ⟨entry.2, member, ?_⟩
      unfold Store.exits at held
      rcases List.mem_flatMap.1 held with ⟨info, -, inside⟩
      rcases List.mem_map.1 inside with ⟨pos, listed, rfl⟩
      refine ⟨info.exitTs, pos, ?_, numbered_zero order consumed⟩
      exact held
  · intro nothing mark
    rcases exits with ⟨-, none⟩ | ⟨entry, -, from_it, -⟩
    · exact numbered_kept order none mark
    · rw [nothing] at from_it
      cases from_it
  · intro source its entry member consumed
    have known := (opened_iff kept all).1 member
    rcases kept.exits.written _ _ known.1 with ⟨inst, found, shifted, empty, -⟩
    have there : world.files source ≠ none := by
      rcases exits with ⟨nothing, -⟩ | ⟨origin, inside, from_it, -⟩
      · rw [nothing] at its
        cases its
      · rw [from_it] at its
        cases its
        rw [(mem_opened.1 inside).2]
        exact Option.some_ne_none _
    have absorbed := kept.exits.absorbed _ inst found source (shifted source consumed) there
    cases phase : inst.phase with
    | live => exact known.2 inst found phase
    | exited => exact there (kept.exits.gone _ inst found phase source absorbed)
    | crashed =>
        cases info : entry.2.store.info with
        | none =>
            rw [empty info] at consumed
            cases consumed
        | some info' =>
            apply meets source its entry member inst found phase _ absorbed
            rw [info]
            rfl
  · intro entry member owner found crashed info only mark
    have known := (mem_opened.1 member).2
    have marks := kept.marks _ owner found
    rcases marks.flushed _ known (Option.isSome_iff_ne_none.1 info) with ⟨same, newest⟩
    have nothing : (collectMerge ((world.opened listing).map (·.2.store))).exit.2 = none := by
      rcases exits with ⟨-, nothing⟩ | ⟨other, inside, from_it, exit, held, -⟩
      · exact nothing
      · rcases only other inside with its | absorbed
        · have there := (mem_opened.1 inside).2
          rw [its, known] at there
          rcases kept.exits.written _ _ known with ⟨inst, found', -, -, quiet⟩
          rw [found] at found'
          cases found'
          rw [← Option.some.inj there, quiet (by rw [crashed]; exact fun same => by cases same)]
            at held
          cases held
        · exact absurd absorbed (meets other.1 from_it entry member owner found crashed info)
    refine (numbered_kept order nothing mark).trans ?_
    congr 1
    cases held : entry.2.store.row (.numbered mark) with
    | some row =>
        apply (row_collectMerge (untied_opened kept.rows) _ row).2
        constructor
        · exact ⟨_, List.mem_map.2 ⟨entry, member, rfl⟩, held⟩
        · intro store inside row' its
          rcases List.mem_map.1 inside with ⟨other, there, rfl⟩
          rcases only other there with same_id | absorbed
          · have equal := (mem_opened.1 there).2
            rw [same_id, known] at equal
            rw [← Option.some.inj equal, held] at its
            cases its
            exact Nat.le_refl _
          · exact newest _ absorbed _ (mem_opened.1 there).2 mark row row' held its
    | none =>
        by_contra merged
        rcases (merged_ne_none kept.rows _).1 merged with ⟨other, there, its⟩
        rcases only other there with same_id | absorbed
        · have equal := (mem_opened.1 there).2
          rw [same_id, known] at equal
          rw [← Option.some.inj equal] at its
          exact its held
        · apply marks.above _ absorbed _ (mem_opened.1 there).2 mark its
          rw [← same, held]
          rfl

theorem load_yields (kept : Kept world) (order : IterOrder) :
    Yields world.changes (world.opened listing)
      (loadInstance order (world.opened listing) : Instance π σ) := by
  intro entry member key settable row found
  have known := kept.rows.sourced _ _ (mem_opened.1 member).2 key settable row found
  refine ⟨known, ?_⟩
  have held : entry.2.store.row key ≠ none := by
    rw [found]
    exact Option.some_ne_none _
  rcases Option.ne_none_iff_exists'.1 (loaded_some (π := π) kept.rows order settable member held)
    with ⟨value, loaded⟩
  rcases loaded_value kept.rows order settable loaded with
    ⟨last, there, newest, its, rfl, origin, -⟩
  have source := kept.rows.sourced _ _ (mem_opened.1 there).2 key settable newest its
  have covers := loaded_covers kept.rows settable member held
  rw [origin] at covers
  rcases Nat.lt_or_eq_of_le covers with later | same
  · right
    exact ⟨_, newest.value, later, source, loaded⟩
  · left
    rw [← same, known] at source
    rw [loaded]
    exact (congrArg Prod.snd (Option.some.inj source)).symm

section

variable {id ts : Nat} {inst : Instance π σ} {file : File σ}

theorem flush_flushed (kept : Kept world) (found : world.instances id = some inst)
    (lives : inst.phase = .live) (exit : Option (Pos π)) :
    Flushed world.changes inst ts (file.flush ts inst exit) := by
  intro key value remembered
  rcases row_flush file ts exit remembered with ⟨row, origin⟩
  refine ⟨row, origin, ?_⟩
  intro settable
  exact (kept.holds id inst found lives).sourced key settable value remembered

variable {after : File σ}

/-- What a flush leaves covers the store it is written over, and those absorbed. -/
theorem flush_settable (file : File σ) (ts : Nat) (kept : Kept world)
    (found : world.instances id = some inst) (lives : inst.phase = .live) (exit : Option (Pos π))
    {other : Nat} (its : other = id ∨ other ∈ inst.absorbed)
    (there : world.files other = some after) {key : Key} (settable : key.settable = true)
    (held : after.store.row key ≠ none) : ((file.flush ts inst exit).store.row key ≠ none ∧
        after.origin key ≤ (file.flush ts inst exit).origin key) ∨
      ∃ later, after.origin key ≤ later ∧ world.changes[later]? = some (key, none) := by
  rcases (kept.holds id inst found lives).covered other its after there key settable held with
    ⟨earlier, removed⟩
  cases remembered : inst.memory.value key with
  | none =>
      right
      exact ⟨_, earlier, removed remembered⟩
  | some value =>
      left
      rcases row_flush file ts exit remembered with ⟨row, origin⟩
      rw [row, origin]
      exact ⟨Option.some_ne_none _, earlier⟩

theorem flush_covers (kept : Kept world) (found : world.instances id = some inst)
    (lives : inst.phase = .live) (later : world.clock < ts) (exit : Option (Pos π)) {other : Nat}
    (member : other ∈ inst.absorbed) (there : world.files other = some after) :
    Covers world.changes (file.flush ts inst exit) after := by
  constructor
  · intro key settable held
    exact flush_settable file ts kept found lives exit (.inr member) there settable held
  · intro mark row held
    have remembered := (kept.marks id inst found).above other member after there mark (by
      rw [held]
      exact Option.some_ne_none _)
    rcases Option.ne_none_iff_exists'.1 remembered with ⟨value, its⟩
    refine ⟨⟨value, ts⟩, ?_, ?_⟩
    · rw [numbered_flush, its]
      rfl
    · exact Nat.lt_of_le_of_lt (kept.rows.dated other after there _ row held).2 later

end

variable {next : World π σ} {key : Key} {serial : Nat}

theorem Durable.step (kept : Kept world) (settable : key.settable = true)
    (taken : step world event = some next) (durable : Durable world key serial) :
    Durable next key serial := by
  have removed_stays : ∀ changes, next.changes = world.changes ++ changes →
      (∃ later, serial ≤ later ∧ world.changes[later]? = some (key, none)) →
        Durable next key serial := by
    rintro changes grown ⟨later, after, its⟩
    right
    refine ⟨later, after, ?_⟩
    rw [grown, List.getElem?_append_left (List.getElem?_eq_some_iff.1 its).1]
    exact its
  have written_over : ∀ id inst file after ts exit, world.instances id = some inst →
      inst.phase = .live → after = File.flush file ts inst exit → next.files id = some after →
        next.changes = world.changes → ∀ other before, other = id ∨ other ∈ inst.absorbed →
          world.files other = some before → before.store.row key ≠ none →
            serial ≤ before.origin key → Durable next key serial := by
    rintro id inst file after ts exit found lives rfl now same other before its there held least
    rcases flush_settable file ts kept found lives exit its there settable held
      with ⟨row, covers⟩ | ⟨later, covers, removed⟩
    · left
      exact ⟨id, _, now, row, least.trans covers⟩
    · apply removed_stays []
      · rw [same, List.append_nil]
      · exact ⟨later, least.trans covers, removed⟩
  cases event with
  | load listing order =>
      simp only [Shada.step] at taken
      split at taken
      · cases taken
        rcases durable with ⟨id, file, there, held, least⟩ | removed
        · left
          refine ⟨id, file, ?_, held, least⟩
          rcases kept.exits.written id file there with ⟨inst, found, -⟩
          exact (if_neg (Nat.ne_of_lt (kept.minted id inst found))).trans there
        · exact removed_stays [] (List.append_nil _).symm removed
      · cases taken
  | change id change =>
      rcases live_taken taken with ⟨inst, file, -, -, -, rfl⟩
      rcases durable with ⟨other, file, there, rest⟩ | removed
      · left
        exact ⟨other, file, there, rest⟩
      · exact removed_stays _ rfl removed
  | edit id rest =>
      rcases live_taken taken with ⟨inst, file, -, -, -, rfl⟩
      exact durable
  | flush id ts =>
      rcases live_taken taken with ⟨inst, file, found, -, lives, rfl⟩
      rcases durable with ⟨other, before, there, held, least⟩ | removed
      · by_cases same : other = id
        · exact written_over id inst file _ ts none found lives rfl (if_pos rfl) rfl other before
            (.inl same) there held least
        · left
          exact ⟨other, before, (if_neg same).trans there, held, least⟩
      · exact removed_stays [] (List.append_nil _).symm removed
  | exit id ts cursor =>
      rcases live_taken taken with ⟨inst, file, found, -, lives, rfl⟩
      rcases durable with ⟨other, before, there, held, least⟩ | removed
      · by_cases its : other = id ∨ other ∈ inst.absorbed
        · refine written_over id inst file _ ts (some cursor) found lives rfl ?_ rfl other before
            its there held least
          exact (if_neg (fun member => kept.not_own found id member rfl)).trans (if_pos rfl)
        · rcases not_or.1 its with ⟨differs, stays⟩
          left
          refine ⟨other, before, ?_, held, least⟩
          exact (if_neg stays).trans ((if_neg differs).trans there)
      · exact removed_stays [] (List.append_nil _).symm removed
  | crash id =>
      rcases live_taken taken with ⟨inst, file, -, -, -, rfl⟩
      exact durable

theorem durable_run (kept : Kept world) (settable : key.settable = true)
    {events : List (Event π σ)} (along : Along Meets step world events)
    (reached : run step world events = some next) (durable : Durable world key serial) :
    Durable next key serial := by
  apply (run_along (fun world => Kept world ∧ Durable world key serial) _ ⟨kept, durable⟩ along
    reached).2
  rintro state event after ⟨kept, durable⟩ meets taken
  exact ⟨step_kept kept meets taken, durable.step kept settable taken⟩

/-- A flush, when the event is one: whose, and when. -/
def Event.flushes : Event π σ → Option (Nat × Nat)
  | .flush id ts => some (id, ts)
  | .exit id ts _ => some (id, ts)
  | _ => none

theorem step_flushed (kept : Kept world) {id ts : Nat} (flushes : event.flushes = some (id, ts))
    (taken : step world event = some next) :
    ∃ inst file, world.instances id = some inst ∧ next.files id = some file ∧
      next.changes = world.changes ∧ Flushed world.changes inst ts file := by
  cases event with
  | flush id' ts' =>
      cases flushes
      rcases live_taken taken with ⟨inst, file, found, -, lives, rfl⟩
      refine ⟨inst, file.flush ts inst none, found, if_pos rfl, rfl, ?_⟩
      exact flush_flushed kept found lives none
  | exit id' ts' cursor =>
      cases flushes
      rcases live_taken taken with ⟨inst, file, found, -, lives, rfl⟩
      refine ⟨inst, file.flush ts inst (some cursor), found, ?_, rfl, ?_⟩
      · exact (if_neg (fun member => kept.not_own found id member rfl)).trans (if_pos rfl)
      · exact flush_flushed kept found lives (some cursor)
  | load listing order => cases flushes
  | change id change => cases flushes
  | edit id rest => cases flushes
  | crash id => cases flushes

/-- A store goes at a clean exit only, and the exiting editor's covers it. -/
theorem step_deletes (kept : Kept world) (meets : Meets world event)
    (taken : step world event = some next) {other : Nat} {before : File σ}
    (there : world.files other = some before) (gone : next.files other = none) :
    ∃ id ts cursor inst file, event = .exit id ts cursor ∧ world.instances id = some inst ∧
      other ∈ inst.absorbed ∧ next.files id = some file ∧ Covers world.changes file before := by
  have stays : next.files other = world.files other → False := by
    intro same
    rw [same, there] at gone
    cases gone
  cases event with
  | load listing order =>
      simp only [step] at taken
      split at taken
      · cases taken
        rcases kept.exits.written other before there with ⟨inst, found, -⟩
        exact (stays (if_neg (Nat.ne_of_lt (kept.minted other inst found)))).elim
      · cases taken
  | change id change =>
      rcases live_taken taken with ⟨inst, file, -, -, -, rfl⟩
      exact (stays rfl).elim
  | edit id rest =>
      rcases live_taken taken with ⟨inst, file, -, -, -, rfl⟩
      exact (stays rfl).elim
  | flush id ts =>
      rcases live_taken taken with ⟨inst, file, -, -, -, rfl⟩
      by_cases same : other = id
      · have now : some (file.flush ts inst none) = none := (if_pos same).symm.trans gone
        cases now
      · exact (stays (if_neg same)).elim
  | exit id ts cursor =>
      rcases live_taken taken with ⟨inst, file, found, -, lives, rfl⟩
      by_cases member : other ∈ inst.absorbed
      · refine ⟨id, ts, cursor, inst, file.flush ts inst (some cursor), rfl, found, member, ?_, ?_⟩
        · exact (if_neg (fun member => kept.not_own found id member rfl)).trans (if_pos rfl)
        · exact flush_covers kept found lives meets.1 (some cursor) member there
      · by_cases same : other = id
        · have now : some (file.flush ts inst (some cursor)) = none :=
            (if_pos same).symm.trans ((if_neg member).symm.trans gone)
          cases now
        · exact (stays ((if_neg member).trans (if_neg same))).elim
  | crash id =>
      rcases live_taken taken with ⟨inst, file, -, -, -, rfl⟩
      exact (stays rfl).elim

end

/-- In every run that meets the condition, a load consumes no exit twice and yields the last value
that was set and flushed, and what was flushed stays until a newer value covers it. -/
theorem instances_agree {events : List (Event π σ)} {world : World π σ}
    (along : Along Meets step World.start events) (reached : run step World.start events = some world) :
    (∀ listing order next, Meets world (.load listing order : Event π σ) →
      step world (.load listing order) = some next →
        ∃ inst, next.instances world.minted = some inst ∧ inst.phase = .live ∧
          inst.absorbed = (world.opened listing).map (·.1) ∧
          ShiftsOnce world (world.opened listing) inst ∧
          Yields world.changes (world.opened listing) inst) ∧
    (∀ event next id ts, event.flushes = some (id, ts) → Meets world event →
      step world event = some next →
        ∃ inst file, world.instances id = some inst ∧ next.files id = some file ∧
          next.changes = world.changes ∧ Flushed world.changes inst ts file) ∧
    (∀ event next, Meets world event → step world event = some next →
      ∀ other before, world.files other = some before → next.files other = none →
        ∃ id ts cursor inst file, event = .exit id ts cursor ∧ world.instances id = some inst ∧
          other ∈ inst.absorbed ∧ next.files id = some file ∧
          Covers world.changes file before) ∧
    ∀ later final, Along Meets step world later → run step world later = some final →
      ∀ key serial, key.settable = true → Durable world key serial → Durable final key serial := by
  have kept : Kept world := run_along Kept (fun _ _ _ kept meets taken =>
    step_kept kept meets taken) kept_start along reached
  refine ⟨?_, ?_, ?_, ?_⟩
  · intro listing order next meets taken
    simp only [step] at taken
    split at taken
    · next all =>
        cases taken
        refine ⟨loadInstance order (world.opened listing), if_pos rfl, rfl, rfl, ?_, ?_⟩
        · exact load_shiftsOnce kept order all meets
        · exact load_yields kept order
    · cases taken
  · intro event next id ts flushes _ taken
    exact step_flushed kept flushes taken
  · intro event next meets taken other before there gone
    exact step_deletes kept meets taken there gone
  · intro later final along' reached' key serial settable durable
    exact durable_run kept settable along' reached' durable

/-! ### A crash before a flush, a crash behind one, and two editors at once -/

/-- Register `a` set to a text. -/
def yank (text : String) : Change String := .register 'a' (some ⟨text, false⟩)

def cursor : Pos String := ⟨"a.txt", 1, 2⟩

/-- An editor sets a register and exits; another loads that and crashes before it flushes. -/
def unflushed : List (Event String Unit) :=
  [.load [] .plain, .change 0 (yank "one"), .exit 0 1 cursor, .load [0] .plain, .crash 1]

theorem unflushed_meets : Along Meets step (World.start : World String Unit) unflushed := by
  refine ⟨?_, ?_⟩
  · intro source its
    cases its
  rintro next ⟨⟩
  refine ⟨trivial, ?_⟩
  rintro next ⟨⟩
  refine ⟨⟨Nat.zero_lt_one, ?_⟩, ?_⟩
  · intro inst _ key _ _ other file there _
    rcases get_update there with ⟨-, rfl⟩ | ⟨-, nothing⟩
    · exact Nat.zero_le _
    · cases nothing
  rintro next ⟨⟩
  refine ⟨?_, ?_⟩
  · intro source _ entry member inst found crashed
    cases List.mem_singleton.1 member
    cases found
    cases crashed
  rintro next ⟨⟩
  refine ⟨trivial, ?_⟩
  rintro next ⟨⟩
  exact trivial

theorem instances_agree_unflushed : ∃ (world next : World String Unit)
    (inst : Instance String Unit), run step World.start unflushed = some world ∧
      step world (.load [0, 1] .plain) = some next ∧ next.instances 2 = some inst ∧
      exitSource (world.opened [0, 1]) = some 0 ∧ ShiftsOnce world (world.opened [0, 1]) inst ∧
      Yields world.changes (world.opened [0, 1]) inst := by
  refine ⟨_, _, _, rfl, rfl, rfl, rfl, ?_⟩
  have agree := (instances_agree unflushed_meets rfl).1 [0, 1] .plain _ (by
    intro source _ entry member inst found crashed info
    rcases List.mem_cons.1 member with rfl | member
    · cases found
      cases crashed
    · cases List.mem_singleton.1 member
      cases info) rfl
  rcases agree with ⟨inst, found, -, -, once, yields⟩
  cases found
  exact ⟨once, yields⟩

/-- An editor exits; the next loads that, flushes and crashes; the next loads both. -/
def crashed : List (Event String Unit) :=
  [.load [] .plain, .exit 0 1 cursor, .load [0] .plain, .flush 1 2, .crash 1]

/-- An editor yanks and exits; of two that load that, one yanks, flushes and crashes, and the other
flushes later what it carries, and crashes. -/
def atOnce : List (Event String Unit) :=
  [.load [] .plain, .change 0 (yank "one"), .exit 0 1 cursor, .load [0] .plain, .load [0] .plain,
    .change 1 (yank "two"), .flush 1 2, .crash 1, .flush 2 3, .crash 2]

/-- What a load makes of a key after some events. -/
def loaded (events : List (Event String Unit)) (listing : List Nat) (key : Key) :
    Option (Option Value) :=
  (run step World.start (events ++ [.load listing .plain])).bind fun world =>
    (world.instances (world.minted - 1)).map fun inst => inst.memory.value key

def stored (events : List (Event String Unit)) (id : Nat) (key : Key) :
    Option (Option (Stamped Value)) :=
  (run step World.start events).map fun world => (world.files id).bind (·.store.row key)

/-- The exit that the crashed editor had consumed is consumed again, and a register that was yanked
and flushed has the text from before. -/
theorem crash_shifts_twice :
    stored crashed 1 (.numbered '0') = some (some ⟨.pos cursor, 2⟩) ∧
      stored crashed 1 (.numbered '1') = some none ∧
      loaded crashed [0, 1] (.numbered '1') = some (some (.pos cursor)) ∧
    stored atOnce 1 (.register 'a') = some (some ⟨.register ⟨"two", false⟩, 2⟩) ∧
      loaded atOnce [0, 1, 2] (.register 'a') = some (some (.register ⟨"one", false⟩)) := by
  refine ⟨rfl, rfl, rfl, rfl, rfl⟩

end Bemtvi.Shada
