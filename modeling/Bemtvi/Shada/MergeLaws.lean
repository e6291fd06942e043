/-
Module: Bemtvi.Shada.MergeLaws
Purpose: Reading several stores is a union: each key has the row with the latest stamp, each
  history the texts of the last flushes where they came last, the jumplist, the session and the
  option overlay are the newest store's, and the order of the reading does not matter.
Trusted boundary: none
Main exports: row_writeState, row_collectMerge, value_buildState, UnitedHistories, stores_union,
  early_register_stays
-/
import Bemtvi.Shada.Store

namespace Bemtvi.Shada

open Std (TreeMap TransOrd LawfulEqOrd)
open Bemtvi.Recency

variable {π σ : Type} [PathBuf π]

/-! ### The rows of a flush -/

section

variable {κ β : Type} [Ord κ] [TransOrd κ] [LawfulEqOrd κ] [DecidableEq κ] {wrap : β → Value}
  {key : κ}

theorem rowIn_writeRows (clear : Bool) (ts : Nat) (entries : List (κ × β)) (table : Table κ β) :
    rowIn wrap (writeRows clear ts entries table) key =
      (((lastOf key entries).map wrap).map fun value => ⟨value, ts⟩).or
        (if clear then none else rowIn wrap table key) := by
  unfold rowIn
  rw [get_writeRows]
  cases lastOf key entries with
  | some value => rfl
  | none =>
      cases clear with
      | true => rfl
      | false => rfl

end

/-- What a flush leaves of a key: the state's value, or for a register or a global mark the row
that was there. -/
theorem row_writeState (store : Store σ) (ts : Nat) (state : PersistState π σ) (key : Key) :
    (writeState store ts state).row key =
      ((state.value key).map fun value => ⟨value, ts⟩).or
        (if key.upserts then store.row key else none) := by
  cases key with
  | register name => exact rowIn_writeRows false ts state.registers store.registers
  | globalMark name => exact rowIn_writeRows false ts state.globalMarkRows store.marksGlobal
  | fileMark path name => exact rowIn_writeRows true ts state.fileMarkRows store.marksFile
  | numbered digit => exact rowIn_writeRows true ts state.numberedRows store.marksNumbered
  | changelist path => exact rowIn_writeRows true ts state.changelistRows store.changelistFile
  | folds path => exact rowIn_writeRows true ts state.foldRows store.foldsFile
  | plugin namespace_ key => exact rowIn_writeRows true ts state.pluginRows store.plugin

/-! ### The rows of a merge -/

/-- A merge's row, as a row of any table. -/
def MergedRaw.row (raw : MergedRaw σ) : Key → Option (Stamped Value)
  | .register name => rowIn .register raw.regs name
  | .globalMark name => rowIn .pos raw.globalMarks name
  | .fileMark path name => rowIn .place raw.fileMarks (path, name)
  | .numbered digit => rowIn .pos raw.numbered digit
  | .changelist path => rowIn .changes raw.changelist path
  | .folds path => rowIn .folds raw.folds path
  | .plugin namespace_ key => rowIn .text raw.plugin (namespace_, key)

/-- One store holds the row, and none holds a newer one of its key. -/
def NewestRow (stores : List (Store σ)) (key : Key) (row : Stamped Value) : Prop :=
  (∃ store ∈ stores, store.row key = some row) ∧
    ∀ store ∈ stores, ∀ other, store.row key = some other → other.ts ≤ row.ts

/-- No two stores hold different rows of a key with one stamp. -/
def UntiedRows (stores : List (Store σ)) : Prop :=
  ∀ one ∈ stores, ∀ two ∈ stores, ∀ key row row',
    one.row key = some row → two.row key = some row' → row.ts = row'.ts → row = row'

theorem collect_part {α : Type} (part : MergedRaw σ → α) (fold : α → Store σ → α)
    (turn : ∀ raw store, fold (part raw) store = part (raw.merge store))
    (stores : List (Store σ)) :
    part (collectMerge stores) = stores.foldl fold (part .empty) :=
  (List.foldl_hom part turn).symm

/-- The merge of one of the keyed tables. -/
theorem collect_table {κ β : Type} [Ord κ] (part : MergedRaw σ → Table κ β)
    (table : Store σ → Table κ β)
    (turn : ∀ raw store, mergeTable (part raw) (table store) = part (raw.merge store))
    (empty : part .empty = ∅) (stores : List (Store σ)) :
    part (collectMerge stores) = mergeTables (stores.map table) := by
  rw [collect_part part (fun best store => mergeTable best (table store)) turn, empty, mergeTables,
    List.foldl_map]

theorem collect_regs (stores : List (Store σ)) :
    (collectMerge stores).regs = mergeTables (stores.map (·.registers)) :=
  collect_table (·.regs) (·.registers) (fun _ _ => rfl) rfl stores

theorem collect_globalMarks (stores : List (Store σ)) :
    (collectMerge stores).globalMarks = mergeTables (stores.map (·.marksGlobal)) :=
  collect_table (·.globalMarks) (·.marksGlobal) (fun _ _ => rfl) rfl stores

theorem collect_fileMarks (stores : List (Store σ)) :
    (collectMerge stores).fileMarks = mergeTables (stores.map (·.marksFile)) :=
  collect_table (·.fileMarks) (·.marksFile) (fun _ _ => rfl) rfl stores

theorem collect_numbered (stores : List (Store σ)) :
    (collectMerge stores).numbered = mergeTables (stores.map (·.marksNumbered)) :=
  collect_table (·.numbered) (·.marksNumbered) (fun _ _ => rfl) rfl stores

theorem collect_changelist (stores : List (Store σ)) :
    (collectMerge stores).changelist = mergeTables (stores.map (·.changelistFile)) :=
  collect_table (·.changelist) (·.changelistFile) (fun _ _ => rfl) rfl stores

theorem collect_folds (stores : List (Store σ)) :
    (collectMerge stores).folds = mergeTables (stores.map (·.foldsFile)) :=
  collect_table (·.folds) (·.foldsFile) (fun _ _ => rfl) rfl stores

theorem collect_plugin (stores : List (Store σ)) :
    (collectMerge stores).plugin = mergeTables (stores.map (·.plugin)) :=
  collect_table (·.plugin) (·.plugin) (fun _ _ => rfl) rfl stores

section

variable {κ β : Type} [Ord κ] {wrap : β → Value} {stores : List (Store σ)}
  (table : Store σ → Table κ β) (name : κ → Key)

/-- The stores' tables of one kind are untied when their rows are. -/
theorem untied_tables (inj : Function.Injective wrap)
    (reads : ∀ (store : Store σ) key, store.row (name key) = rowIn wrap (table store) key)
    (untied : UntiedRows stores) : Untied (stores.map table) := by
  intro one member two member' key row row' its its' same
  rcases List.mem_map.1 member with ⟨store, there, rfl⟩
  rcases List.mem_map.1 member' with ⟨store', there', rfl⟩
  have wrapped : (⟨wrap row.value, row.ts⟩ : Stamped Value) = ⟨wrap row'.value, row'.ts⟩ := by
    apply untied store there store' there' (name key) _ _ _ _ same
    · rw [reads, rowIn, its]
      rfl
    · rw [reads, rowIn, its']
      rfl
  rcases row with ⟨value, ts⟩
  rcases row' with ⟨value', ts'⟩
  cases inj (congrArg Stamped.value wrapped)
  cases same
  rfl

theorem rowIn_mergeTables [TransOrd κ] [LawfulEqOrd κ] (inj : Function.Injective wrap)
    (reads : ∀ (store : Store σ) key, store.row (name key) = rowIn wrap (table store) key)
    (untied : UntiedRows stores) (key : κ) (row : Stamped Value) :
    rowIn wrap (mergeTables (stores.map table)) key = some row ↔
      NewestRow stores (name key) row := by
  have tables := untied_tables table name inj reads untied
  unfold rowIn
  rw [Option.map_eq_some_iff]
  simp only [get_mergeTables tables]
  constructor
  · rintro ⟨held, ⟨⟨one, member, its⟩, newest⟩, rfl⟩
    rcases List.mem_map.1 member with ⟨store, there, rfl⟩
    refine ⟨⟨store, there, ?_⟩, ?_⟩
    · rw [reads, rowIn, its]
      rfl
    · intro other_store there' other found
      rw [reads] at found
      rcases Option.map_eq_some_iff.1 found with ⟨inner, its', rfl⟩
      exact newest _ (List.mem_map.2 ⟨other_store, there', rfl⟩) inner its'
  · rintro ⟨⟨store, there, found⟩, newest⟩
    rw [reads] at found
    rcases Option.map_eq_some_iff.1 found with ⟨inner, its, rfl⟩
    refine ⟨inner, ⟨⟨table store, List.mem_map.2 ⟨store, there, rfl⟩, its⟩, ?_⟩, rfl⟩
    intro other_table member other found'
    rcases List.mem_map.1 member with ⟨other_store, there', rfl⟩
    apply newest other_store there' ⟨wrap other.value, other.ts⟩
    rw [reads, rowIn, found']
    rfl

end

theorem injective_register : Function.Injective Value.register := fun _ _ => Value.register.inj
theorem injective_pos : Function.Injective Value.pos := fun _ _ => Value.pos.inj
theorem injective_place : Function.Injective Value.place := fun _ _ => Value.place.inj
theorem injective_changes : Function.Injective Value.changes := fun _ _ => Value.changes.inj
theorem injective_folds : Function.Injective Value.folds := fun _ _ => Value.folds.inj
theorem injective_text : Function.Injective Value.text := fun _ _ => Value.text.inj

variable {stores stores' : List (Store σ)} {rows : List ((String × String) × Stamped String)}
  {one two : Table Char (Pos String)}

/-- A merge holds the newest row of every key. -/
theorem row_collectMerge (untied : UntiedRows stores) (key : Key) (row : Stamped Value) :
    (collectMerge stores).row key = some row ↔ NewestRow stores key row := by
  unfold MergedRaw.row
  cases key with
  | register name =>
      simp only [collect_regs]
      exact rowIn_mergeTables _ .register injective_register (fun _ _ => rfl) untied name row
  | globalMark name =>
      simp only [collect_globalMarks]
      exact rowIn_mergeTables _ .globalMark injective_pos (fun _ _ => rfl) untied name row
  | fileMark path name =>
      simp only [collect_fileMarks]
      exact rowIn_mergeTables _ (fun key => .fileMark key.1 key.2) injective_place
        (fun _ _ => rfl) untied (path, name) row
  | numbered digit =>
      simp only [collect_numbered]
      exact rowIn_mergeTables _ .numbered injective_pos (fun _ _ => rfl) untied digit row
  | changelist path =>
      simp only [collect_changelist]
      exact rowIn_mergeTables _ .changelist injective_changes (fun _ _ => rfl) untied path row
  | folds path =>
      simp only [collect_folds]
      exact rowIn_mergeTables _ .folds injective_folds (fun _ _ => rfl) untied path row
  | plugin namespace_ key =>
      simp only [collect_plugin]
      exact rowIn_mergeTables _ (fun key => .plugin key.1 key.2) injective_text
        (fun _ _ => rfl) untied (namespace_, key) row

/-! ### The values of the merged state -/

section

variable {κ β : Type} [DecidableEq κ] {key : κ}

variable [Ord κ] [TransOrd κ] [LawfulEqOrd κ] (order : IterOrder)

omit [DecidableEq κ] in
theorem mem_arrange (table : TreeMap κ β) (value : β) :
    (key, value) ∈ order.arrange table.toList ↔ table[key]? = some value := by
  rw [(order.perm table.toList).mem_iff, TreeMap.mem_toList_iff_getElem?_eq_some]

theorem lastOf_arrange (table : TreeMap κ β) :
    lastOf key (order.arrange table.toList) = table[key]? := by
  apply Option.ext
  intro value
  rw [← mem_arrange order]
  apply lastOf_iff
  intro one two member member'
  rw [mem_arrange] at member member'
  rw [member] at member'
  exact Option.some.inj member'

omit [DecidableEq κ] in
theorem mem_entriesOf (table : Table κ β) (value : β) :
    (key, value) ∈ entriesOf order table ↔ table[key]?.map (·.value) = some value := by
  unfold entriesOf
  rw [List.mem_map, Option.map_eq_some_iff]
  constructor
  · rintro ⟨⟨key', row⟩, member, same⟩
    cases same
    exact ⟨row, (mem_arrange order table row).1 member, rfl⟩
  · rintro ⟨row, found, rfl⟩
    exact ⟨(key, row), (mem_arrange order table row).2 found, rfl⟩

theorem lastOf_entriesOf (table : Table κ β) :
    lastOf key (entriesOf order table) = table[key]?.map (·.value) := by
  unfold entriesOf
  rw [lastOf_map (fun row : Stamped β => row.value), lastOf_arrange]

/-- A table's entries, as values of any table. -/
theorem lastOf_rowIn (wrap : β → Value) (table : Table κ β) :
    (lastOf key (entriesOf order table)).map wrap = (rowIn wrap table key).map (·.value) := by
  rw [lastOf_entriesOf, rowIn]
  cases table[key]? with
  | none => rfl
  | some row => rfl

end

@[simp] theorem lossy_restore (pos : Pos String) : (pos.restore : Pos π).lossy = pos := by
  unfold Pos.restore Pos.lossy
  rw [PathBuf.lossy_ofString]

section

variable (order : IterOrder) (raw : MergedRaw σ) (numberedMarks : List (Char × Pos π))

theorem globalMarkRows_buildState :
    (buildState order raw numberedMarks).globalMarkRows = entriesOf order raw.globalMarks := by
  unfold PersistState.globalMarkRows buildState
  simp only [List.map_map, Function.comp_def, lossy_restore, Prod.mk.eta, List.map_id']

theorem fileMarkRows_buildState :
    (buildState order raw numberedMarks).fileMarkRows = entriesOf order raw.fileMarks := by
  unfold PersistState.fileMarkRows buildState
  simp only [List.map_map, Function.comp_def, PathBuf.lossy_ofString, Prod.mk.eta, List.map_id']

theorem changelistRows_buildState :
    (buildState order raw numberedMarks).changelistRows = entriesOf order raw.changelist := by
  unfold PersistState.changelistRows buildState
  simp only [List.map_map, Function.comp_def, PathBuf.lossy_ofString, Prod.mk.eta, List.map_id']

theorem foldRows_buildState :
    (buildState order raw numberedMarks).foldRows = entriesOf order raw.folds := by
  unfold PersistState.foldRows buildState
  simp only [List.map_map, Function.comp_def, PathBuf.lossy_ofString, Prod.mk.eta, List.map_id']

theorem passthroughRows (marks : Table Char (Pos String)) :
    (numberedPassthrough order marks : List (Char × Pos π)).map
      (fun entry => (entry.1, entry.2.lossy)) = entriesOf order marks := by
  unfold numberedPassthrough
  simp only [List.map_map, Function.comp_def, lossy_restore, Prod.mk.eta, List.map_id']

end

/-! ### Plugins -/

/-- A namespace's part of the rows. -/
def share (ns : String) (rows : List ((String × String) × Stamped String)) :
    List (String × String) :=
  (rows.filter fun row => decide (row.1.1 = ns)).map fun row => (row.1.2, row.2.value)

/-- The groups of `group_plugin`, unsorted. -/
def pluginGroups (rows : List ((String × String) × Stamped String)) :
    TreeMap String (List (String × String)) :=
  rows.foldl (groupInto (·.1.1) (fun entries row => entries ++ [(row.1.2, row.2.value)]) []) ∅

theorem get_pluginGroups (rows : List ((String × String) × Stamped String)) (ns : String) :
    (pluginGroups rows)[ns]? = if share ns rows = [] then none else some (share ns rows) := by
  have gathered : ∀ its : List ((String × String) × Stamped String),
      its.foldl (fun entries row => entries ++ [(row.1.2, row.2.value)]) [] =
        its.map fun row => (row.1.2, row.2.value) := by
    intro its
    induction its using List.reverseRecOn with
    | nil => rfl
    | append_singleton its last ih =>
        rw [List.foldl_append, List.map_append, ih]
        rfl
  unfold pluginGroups share
  rw [get_foldl_groupInto, TreeMap.getElem?_emptyc, Option.getD_none, gathered]
  simp only [List.map_eq_nil_iff]

theorem mem_groupPlugin (rows : List ((String × String) × Stamped String)) (ns : String)
    (entries : List (String × String)) :
    (ns, entries) ∈ groupPlugin rows ↔
      share ns rows ≠ [] ∧ entries = sortBy Prod.fst (share ns rows) := by
  have groups := get_pluginGroups rows ns
  unfold groupPlugin
  rw [List.mem_map]
  constructor
  · rintro ⟨⟨ns', entries'⟩, member, same⟩
    cases same
    have found := TreeMap.mem_toList_iff_getElem?_eq_some.1 member
    change (pluginGroups rows)[ns']? = _ at found
    rw [groups] at found
    split at found
    · cases found
    · next some_left =>
        rw [← Option.some.inj found]
        exact ⟨some_left, rfl⟩
  · rintro ⟨some_left, rfl⟩
    refine ⟨(ns, share ns rows), ?_, rfl⟩
    apply TreeMap.mem_toList_iff_getElem?_eq_some.2
    change (pluginGroups rows)[ns]? = _
    rw [groups, if_neg some_left]

theorem mem_share (rows : List ((String × String) × Stamped String)) (ns key value : String) :
    (key, value) ∈ share ns rows ↔ ((ns, key), value) ∈ rows.map fun row => (row.1, row.2.value) := by
  unfold share
  simp only [List.mem_map, List.mem_filter, decide_eq_true_eq, Prod.mk.injEq]
  constructor
  · rintro ⟨⟨⟨ns', key'⟩, row⟩, ⟨member, rfl⟩, rfl, rfl⟩
    exact ⟨_, member, rfl, rfl⟩
  · rintro ⟨⟨⟨ns', key'⟩, row⟩, member, same, rfl⟩
    cases same
    exact ⟨_, ⟨member, rfl⟩, rfl, rfl⟩

/-- The plugins' entries are the rows, regrouped. -/
theorem mem_pluginRows (rows : List ((String × String) × Stamped String)) (ns key value : String) :
    ((ns, key), value) ∈ (groupPlugin rows).flatMap
        (fun plugin => plugin.2.map fun entry => ((plugin.1, entry.1), entry.2)) ↔
      ((ns, key), value) ∈ rows.map fun row => (row.1, row.2.value) := by
  rw [List.mem_flatMap, ← mem_share]
  constructor
  · rintro ⟨⟨ns', entries⟩, member, inside⟩
    rcases List.mem_map.1 inside with ⟨entry, its, same⟩
    cases same
    rcases (mem_groupPlugin rows ns' entries).1 member with ⟨-, rfl⟩
    exact (sortBy_perm Prod.fst _).mem_iff.1 its
  · intro its
    refine ⟨(ns, sortBy Prod.fst (share ns rows)), ?_, ?_⟩
    · apply (mem_groupPlugin rows ns _).2
      exact ⟨List.ne_nil_of_mem its, rfl⟩
    · exact List.mem_map.2 ⟨(key, value), (sortBy_perm Prod.fst _).mem_iff.2 its, rfl⟩

/-- A namespace's keys are distinct. -/
theorem share_keys (keys : (rows.map Prod.fst).Nodup) (ns : String) :
    ((share ns rows).map Prod.fst).Nodup := by
  have inside : ((rows.filter fun row => decide (row.1.1 = ns)).map Prod.fst).Nodup :=
    keys.sublist (List.filter_sublist.map Prod.fst)
  unfold share
  rw [List.map_map]
  apply List.pairwise_map.2
  apply (List.pairwise_map.1 inside).imp_of_mem
  intro one two member member' apart same
  have its := of_decide_eq_true (List.mem_filter.1 member).2
  have its' := of_decide_eq_true (List.mem_filter.1 member').2
  exact apart (Prod.ext (its.trans its'.symm) same)

/-- The order of the rows does not matter. -/
theorem groupPlugin_congr {rows' : List ((String × String) × Stamped String)}
    (perm : rows.Perm rows') (keys : (rows.map Prod.fst).Nodup) :
    groupPlugin rows = groupPlugin rows' := by
  have shares : ∀ ns, (share ns rows).Perm (share ns rows') := by
    intro ns
    exact (perm.filter _).map _
  have equal : ∀ ns : String,
      ((pluginGroups rows).map fun _ entries => sortBy Prod.fst entries)[ns]? =
        ((pluginGroups rows').map fun _ entries => sortBy Prod.fst entries)[ns]? := by
    intro ns
    rw [TreeMap.getElem?_map, TreeMap.getElem?_map, get_pluginGroups, get_pluginGroups]
    by_cases nothing : share ns rows = []
    · have nothing' : share ns rows' = [] := by
        have perm_nil := shares ns
        rw [nothing] at perm_nil
        exact perm_nil.nil_eq.symm
      rw [if_pos nothing, if_pos nothing']
    · have some_left : share ns rows' ≠ [] := by
        intro nothing'
        have perm_nil := shares ns
        rw [nothing'] at perm_nil
        exact nothing perm_nil.eq_nil
      rw [if_neg nothing, if_neg some_left, Option.map_some, Option.map_some,
        sortBy_congr Prod.fst (shares ns) (share_keys keys ns)]
  have lists := (TreeMap.Equiv.of_forall_constGet?_eq equal).toList_eq
  rw [TreeMap.toList_map, TreeMap.toList_map] at lists
  exact lists

section

variable (order : IterOrder) (raw : MergedRaw σ) (numberedMarks : List (Char × Pos π))

theorem lastOf_pluginRows (key : String × String) :
    lastOf key (buildState order raw numberedMarks).pluginRows =
      raw.plugin[key]?.map (·.value) := by
  have member : ∀ value, (key, value) ∈ (buildState order raw numberedMarks).pluginRows ↔
      raw.plugin[key]?.map (·.value) = some value := by
    intro value
    rcases key with ⟨ns, key⟩
    rw [← mem_entriesOf order]
    exact mem_pluginRows (order.arrange raw.plugin.toList) ns key value
  apply Option.ext
  intro value
  rw [← member]
  apply lastOf_iff
  intro one two held held'
  rw [member] at held held'
  rw [held] at held'
  exact Option.some.inj held'

/-- The merged state has the value of each row; the numbered marks are what it was given. -/
theorem value_buildState (key : Key) :
    (buildState order raw numberedMarks).value key =
      match key with
      | .numbered digit =>
          (lastOf digit (numberedMarks.map fun entry => (entry.1, entry.2.lossy))).map .pos
      | _ => (raw.row key).map (·.value) := by
  cases key with
  | register name => exact lastOf_rowIn order .register raw.regs
  | globalMark name =>
      unfold PersistState.value
      simp only [globalMarkRows_buildState]
      exact lastOf_rowIn order .pos raw.globalMarks
  | fileMark path name =>
      unfold PersistState.value
      simp only [fileMarkRows_buildState]
      exact lastOf_rowIn order .place raw.fileMarks
  | numbered digit => rfl
  | changelist path =>
      unfold PersistState.value
      simp only [changelistRows_buildState]
      exact lastOf_rowIn order .changes raw.changelist
  | folds path =>
      unfold PersistState.value
      simp only [foldRows_buildState]
      exact lastOf_rowIn order .folds raw.folds
  | plugin namespace_ key =>
      unfold PersistState.value MergedRaw.row rowIn
      simp only [lastOf_pluginRows]
      cases raw.plugin[(namespace_, key)]? with
      | none => rfl
      | some row => rfl

end

theorem value_reloadState (order : IterOrder) (stores : List (Store σ)) (key : Key) :
    (reloadState order stores : PersistState π σ).value key =
      ((collectMerge stores).row key).map (·.value) := by
  unfold reloadState
  rw [value_buildState]
  cases key with
  | numbered digit =>
      simp only [passthroughRows]
      exact lastOf_rowIn order .pos (collectMerge stores).numbered
  | _ => rfl

/-! ### The newest store's values -/

section

variable {α : Type}

theorem collect_newest (part : MergedRaw σ → Nat × α) (values : Store σ → List (Nat × α))
    (turn : ∀ raw store, (values store).foldl newer (part raw) = part (raw.merge store))
    (first : α) (start : part .empty = (0, first)) (stores : List (Store σ)) :
    part (collectMerge stores) = newestValue first (stores.flatMap values) := by
  rw [collect_part part (fun best store => (values store).foldl newer best) turn, start,
    newestValue, List.foldl_flatMap]

end

theorem collect_jumplist (stores : List (Store σ)) :
    (collectMerge stores).jumplist =
      newestValue [] (stores.flatMap fun store => store.dated (readJumplist store)) :=
  collect_newest (·.jumplist) _ (fun _ _ => rfl) [] rfl stores

theorem collect_session (stores : List (Store σ)) :
    (collectMerge stores).session =
      newestValue none (stores.flatMap fun store => store.dated store.session) :=
  collect_newest (·.session) _ (fun _ _ => rfl) none rfl stores

theorem collect_workspaceOptions (stores : List (Store σ)) :
    (collectMerge stores).workspaceOptions =
      newestValue [] (stores.flatMap fun store => store.dated (store.workspaceOptions.getD [])) :=
  collect_newest (·.workspaceOptions) _ (fun _ _ => rfl) [] rfl stores

theorem collect_exit (stores : List (Store σ)) :
    (collectMerge stores).exit = newestValue none (stores.flatMap Store.exits) :=
  collect_newest (·.exit) _ (fun _ _ => rfl) none rfl stores

/-! ### Histories -/

theorem collect_histSearch (stores : List (Store σ)) :
    (collectMerge stores).histSearch =
      observeAll (stores.flatMap fun store => store.histSearch.toList) := by
  rw [collect_part (·.histSearch) (fun merge store => mergeHistory merge store.histSearch)
    (fun _ _ => rfl), observeAll, List.foldl_flatMap]
  rfl

theorem collect_histEx (stores : List (Store σ)) :
    (collectMerge stores).histEx =
      observeAll (stores.flatMap fun store => store.histEx.toList) := by
  rw [collect_part (·.histEx) (fun merge store => mergeHistory merge store.histEx)
    (fun _ _ => rfl), observeAll, List.foldl_flatMap]
  rfl

/-- The rows of a namespace, as the rows of a history. -/
def ringRows (ns : String) (rows : List ((String × Nat) × String)) : List (Nat × String) :=
  (rows.filter fun row => decide (row.1.1 = ns)).map fun row => (row.1.2, row.2)

theorem collect_histInput (stores : List (Store σ)) (ns : String) :
    (collectMerge stores).histInput[ns]? =
      if ringRows ns (stores.flatMap fun store => store.histInput.toList) = [] then none
      else some (observeAll (ringRows ns (stores.flatMap fun store => store.histInput.toList))) := by
  rw [collect_part (·.histInput) (fun merge store => mergeInputHistory merge store.histInput)
    (fun _ _ => rfl)]
  unfold mergeInputHistory ringRows observeAll
  rw [← List.foldl_flatMap]
  simp only [List.map_eq_nil_iff]
  rw [List.foldl_map]
  have grouped := get_foldl_groupInto (·.1.1)
    (fun byText (row : (String × Nat) × String) => observe byText (row.1.2, row.2)) ∅
    (stores.flatMap fun store => store.histInput.toList) ∅ ns
  rw [TreeMap.getElem?_emptyc] at grouped
  exact grouped

/-- The rows of a history, oldest first: one range of sequence keys. -/
def historyRows (ts : Nat) (texts : List String) : List (Nat × String) :=
  texts.zipIdx.map fun entry => (ts * historyCap + entry.2, entry.1)

/-- The text of a key of the range. -/
def textAt (ts : Nat) (texts : List String) (key : Nat) : Option String :=
  if ts * historyCap ≤ key then texts[key - ts * historyCap]? else none

theorem mem_historyRows (ts : Nat) (texts : List String) (key : Nat) (text : String) :
    (key, text) ∈ historyRows ts texts ↔ textAt ts texts key = some text := by
  unfold historyRows textAt
  rw [List.mem_map]
  constructor
  · rintro ⟨⟨text', index⟩, member, same⟩
    cases same
    rw [if_pos (Nat.le_add_right ..), Nat.add_sub_cancel_left]
    exact List.mem_zipIdx_iff_getElem?.1 member
  · intro its
    split at its
    · next inside =>
        refine ⟨(text, key - ts * historyCap), List.mem_zipIdx_iff_getElem?.2 its, ?_⟩
        rw [Nat.add_sub_cancel' inside]
    · cases its

theorem historyRows_texts (ts : Nat) (texts : List String) :
    (historyRows ts texts).map Prod.snd = texts := by
  unfold historyRows
  rw [List.map_map]
  exact List.zipIdx_map_fst ..

theorem lastOf_historyRows (ts : Nat) (texts : List String) (key : Nat) :
    lastOf key (historyRows ts texts) = textAt ts texts key := by
  apply Option.ext
  intro text
  rw [← mem_historyRows]
  apply lastOf_iff
  intro one two member member'
  rw [mem_historyRows] at member member'
  rw [member] at member'
  exact Option.some.inj member'

/-- The range does not leave `u64`. -/
def KeysFit (ts : Nat) (texts : List String) : Prop := ts * historyCap + texts.length ≤ 2 ^ 64

theorem sequenceKey_eq {ts : Nat} {texts : List String} (fits : KeysFit ts texts) {index : Nat}
    (inside : index < texts.length) : sequenceKey ts index = ts * historyCap + index := by
  unfold KeysFit at fits
  unfold sequenceKey sequenceBase
  rw [Nat.min_eq_left (by omega), Nat.mod_eq_of_lt (by omega)]

/-- The written rows of a history. -/
theorem written_rows {ν : Type} (name : Nat → ν) {ts : Nat} {texts : List String}
    (fits : KeysFit ts texts) :
    texts.zipIdx.map (fun entry => (name (sequenceKey ts entry.2), entry.1)) =
      (historyRows ts texts).map fun row => (name row.1, row.2) := by
  unfold historyRows
  rw [List.map_map]
  apply List.map_congr_left
  rintro ⟨text, index⟩ member
  have inside := List.getElem?_eq_some_iff.1 (List.mem_zipIdx_iff_getElem?.1 member)
  rw [sequenceKey_eq fits inside.1]
  rfl

theorem get_writeHistory {ts : Nat} {texts : List String} (fits : KeysFit ts texts) (key : Nat) :
    (writeHistory ts texts)[key]? = textAt ts texts key := by
  unfold writeHistory
  rw [get_insertAll, TreeMap.getElem?_emptyc, Option.or_none, written_rows (fun key => key) fits,
    ← lastOf_historyRows]
  exact congrArg _ (List.map_id _)

/-- A namespace's texts: an entry that comes again overwrites from the start. -/
def namespaceTexts (ns : String) (input : List (String × List String)) : List String :=
  (input.filter fun ring => decide (ring.1 = ns)).foldl
    (fun texts ring => ring.2 ++ texts.drop ring.2.length) []

theorem namespaceTexts_concat (ns : String) (input : List (String × List String))
    (ring : String × List String) :
    namespaceTexts ns (input ++ [ring]) =
      if ring.1 = ns then ring.2 ++ (namespaceTexts ns input).drop ring.2.length
      else namespaceTexts ns input := by
  unfold namespaceTexts
  rw [List.filter_append]
  split
  · next its =>
      rw [List.filter_cons_of_pos (by simpa using its), List.foldl_append]
      rfl
  · next other =>
      rw [List.filter_cons_of_neg (by simpa using other), List.filter_nil, List.append_nil]

theorem textAt_overwrite (ts : Nat) (texts before : List String) (key : Nat) :
    textAt ts (texts ++ before.drop texts.length) key =
      (textAt ts texts key).or (textAt ts before key) := by
  unfold textAt
  split
  · by_cases inside : key - ts * historyCap < texts.length
    · rw [List.getElem?_append_left inside, List.getElem?_eq_getElem inside]
      rfl
    · have past := Nat.le_of_not_lt inside
      rw [List.getElem?_append_right past, List.getElem?_eq_none past, List.getElem?_drop,
        Nat.add_sub_cancel' past]
      rfl
  · rfl

theorem get_writeInputHistory {ts : Nat} {input : List (String × List String)}
    (fits : ∀ ring ∈ input, KeysFit ts ring.2) (ns : String) (key : Nat) :
    (writeInputHistory ts input)[(ns, key)]? = textAt ts (namespaceTexts ns input) key := by
  induction input using List.reverseRecOn with
  | nil =>
      unfold writeInputHistory namespaceTexts textAt
      rw [List.foldl_nil, TreeMap.getElem?_emptyc]
      simp
  | append_singleton input ring ih =>
      have unfolded : writeInputHistory ts (input ++ [ring]) =
          insertAll (ring.2.zipIdx.map fun entry => ((ring.1, sequenceKey ts entry.2), entry.1))
            (writeInputHistory ts input) := by
        unfold writeInputHistory
        rw [List.foldl_append]
        rfl
      have before := ih fun other member => fits other (List.mem_append_left _ member)
      have fit := fits ring (List.mem_append_right _ (List.mem_singleton.2 rfl))
      rw [unfolded, get_insertAll, before, written_rows (fun key => (ring.1, key)) fit,
        namespaceTexts_concat]
      split
      · next its =>
          subst its
          rw [textAt_overwrite, ← lastOf_historyRows ts ring.2]
          congr 1
          generalize historyRows ts ring.2 = rows
          induction rows with
          | nil => rfl
          | cons row rest ih => simp [lastOf, ih]
      · next other =>
          rw [Option.or_eq_right_of_none]
          cases found : lastOf (ns, key)
              ((historyRows ts ring.2).map fun row => ((ring.1, row.1), row.2)) with
          | none => rfl
          | some text =>
              rcases List.mem_map.1 (lastOf_mem found) with ⟨row, -, same⟩
              exact absurd (congrArg (·.1.1) same) other

/-! ### Written stores -/

/-- A flush of a state. -/
structure Write (π σ : Type) where
  ts : Nat
  state : PersistState π σ

/-- The store left by some flushes, the first one first. -/
def storeOf (log : List (Write π σ)) : Store σ :=
  log.foldl (fun store write => writeState store write.ts write.state) .empty

/-- The flushes leave this row at the key. -/
def LeavesRow (log : List (Write π σ)) (key : Key) (row : Stamped Value) : Prop :=
  Leaves (!key.upserts) (log.map fun write => (write.ts, write.state.value key)) row

theorem storeOf_concat (log : List (Write π σ)) (write : Write π σ) :
    storeOf (log ++ [write]) = writeState (storeOf log) write.ts write.state := by
  unfold storeOf
  rw [List.foldl_append]
  rfl

theorem row_empty (key : Key) : (Store.empty : Store σ).row key = none := by
  cases key <;> rfl

theorem row_storeOf (log : List (Write π σ)) (key : Key) :
    (storeOf log).row key =
      (log.map fun write => (write.ts, write.state.value key)).foldl (leave (!key.upserts)) none := by
  induction log using List.reverseRecOn with
  | nil => exact row_empty key
  | append_singleton log write ih =>
      rw [storeOf_concat, row_writeState, List.map_append, List.foldl_append, ← ih]
      unfold leave
      cases key.upserts <;> rfl

theorem row_storeOf_iff (log : List (Write π σ)) (key : Key) (row : Stamped Value) :
    (storeOf log).row key = some row ↔ LeavesRow log key row := by
  rw [row_storeOf]
  exact foldl_leave _ _

theorem LeavesRow.written {log : List (Write π σ)} {key : Key} {row : Stamped Value}
    (leaves : LeavesRow log key row) : ∃ write ∈ log, write.ts = row.ts := by
  rcases leaves with ⟨before, after, split, -⟩
  have member : (row.ts, some row.value) ∈
      log.map fun write => (write.ts, write.state.value key) := by
    rw [split]
    exact List.mem_append_right _ (List.mem_cons_self ..)
  rcases List.mem_map.1 member with ⟨write, its, same⟩
  exact ⟨write, its, congrArg Prod.fst same⟩

/-- No flush of one store has the time of a flush of another. -/
def DistinctFlushes (logs : List (List (Write π σ))) : Prop :=
  logs.Pairwise fun one two => ∀ write ∈ one, ∀ write' ∈ two, write.ts ≠ write'.ts

omit [PathBuf π] in
theorem DistinctFlushes.same {logs : List (List (Write π σ))} (distinct : DistinctFlushes logs)
    {one two : List (Write π σ)} (member : one ∈ logs) (member' : two ∈ logs)
    {write write' : Write π σ} (its : write ∈ one) (its' : write' ∈ two)
    (tied : write.ts = write'.ts) : one = two := by
  by_contra apart
  have symmetric : Std.Symm fun one two : List (Write π σ) =>
      ∀ write ∈ one, ∀ write' ∈ two, write.ts ≠ write'.ts := by
    constructor
    intro one two differ write its write' its' same
    exact differ write' its' write its same.symm
  exact distinct.forall member member' apart write its write' its' tied

theorem untied_storeOf {logs : List (List (Write π σ))} (distinct : DistinctFlushes logs) :
    UntiedRows (logs.map storeOf) := by
  intro one member two member' key row row' found found' tied
  rcases List.mem_map.1 member with ⟨log, there, rfl⟩
  rcases List.mem_map.1 member' with ⟨log', there', rfl⟩
  rcases ((row_storeOf_iff log key row).1 found).written with ⟨write, its, dated⟩
  rcases ((row_storeOf_iff log' key row').1 found').written with ⟨write', its', dated'⟩
  have same := distinct.same there there' its its' (dated.trans (tied.trans dated'.symm))
  rw [same, found'] at found
  exact (Option.some.inj found).symm

/-- The last flush of each store. -/
def lasts (logs : List (List (Write π σ))) : List (Write π σ) := logs.filterMap List.getLast?

omit [PathBuf π] in
theorem mem_lasts {logs : List (List (Write π σ))} {write : Write π σ} :
    write ∈ lasts logs ↔ ∃ log, log ++ [write] ∈ logs := by
  unfold lasts
  rw [List.mem_filterMap]
  constructor
  · rintro ⟨log, member, last⟩
    rcases List.eq_nil_or_concat log with rfl | ⟨before, final, rfl⟩
    · cases last
    · rw [List.concat_eq_append] at last member
      rw [List.getLast?_concat] at last
      cases last
      exact ⟨before, member⟩
  · rintro ⟨before, member⟩
    exact ⟨before ++ [write], member, List.getLast?_concat ..⟩

/-- A part of the stores that each flush writes anew comes from their last flushes. -/
theorem flatMap_lasts {α : Type} (logs : List (List (Write π σ))) (part : Store σ → List α)
    (written : Write π σ → List α) (nothing : part .empty = [])
    (anew : ∀ store write, part (writeState store write.ts write.state) = written write) :
    (logs.map storeOf).flatMap part = (lasts logs).flatMap written := by
  induction logs with
  | nil => rfl
  | cons log rest ih =>
      unfold lasts at ih ⊢
      rw [List.map_cons, List.flatMap_cons, ih]
      rcases List.eq_nil_or_concat log with rfl | ⟨before, last, rfl⟩
      · rw [List.filterMap_cons_none rfl]
        exact congrArg (· ++ _) nothing
      · rw [List.concat_eq_append, List.filterMap_cons_some (List.getLast?_concat ..),
          List.flatMap_cons, storeOf_concat, anew]

theorem dated_lasts {α : Type} (logs : List (List (Write π σ))) (value : Store σ → α)
    (written : Write π σ → α)
    (anew : ∀ store write, value (writeState store write.ts write.state) = written write) :
    (logs.map storeOf).flatMap (fun store => store.dated (value store)) =
      (lasts logs).map fun write => (write.ts, written write) := by
  have singles : (lasts logs).map (fun write => (write.ts, written write)) =
      (lasts logs).flatMap fun write => [(write.ts, written write)] := List.map_eq_flatMap
  rw [singles]
  apply flatMap_lasts logs _ _ rfl
  intro store write
  exact congrArg (fun value => [(write.ts, value)]) (anew store write)

omit [PathBuf π] in
/-- Last flushes of one time are the last flush of one store. -/
theorem lasts_distinct {logs : List (List (Write π σ))} (distinct : DistinctFlushes logs)
    {one two : Write π σ} (member : one ∈ lasts logs) (member' : two ∈ lasts logs)
    (tied : one.ts = two.ts) : one = two := by
  rcases mem_lasts.1 member with ⟨log, there⟩
  rcases mem_lasts.1 member' with ⟨log', there'⟩
  have its : one ∈ log ++ [one] := List.mem_append_right _ (List.mem_singleton.2 rfl)
  have its' : two ∈ log' ++ [two] := List.mem_append_right _ (List.mem_singleton.2 rfl)
  have same := distinct.same there there' its its' tied
  exact List.head_eq_of_cons_eq (List.append_inj' same rfl).2

/-! ### The union of histories -/

/-- The newest of the texts, each where it came last. -/
def historyUnion (texts : List String) : List String :=
  texts.dedup.drop (texts.dedup.length - historyCap)

/-- Every history of a state. -/
def PersistState.rings (state : PersistState π σ) : List (List String) :=
  state.searchHistory :: state.exHistory :: state.inputHistory.map Prod.snd

/-- The sequence keys of the flush stay below the bound. -/
def Write.Below (write : Write π σ) (bound : Nat) : Prop :=
  ∀ ring ∈ write.state.rings, write.ts * historyCap + ring.length ≤ bound

/-- The flushes' ranges of sequence keys lie apart, and within `u64`. -/
def RangesApart (writes : List (Write π σ)) : Prop :=
  ∀ write ∈ writes, write.Below (2 ^ 64) ∧
    ∀ other ∈ writes, write.ts < other.ts → write.Below (other.ts * historyCap)

theorem historyRows_rising (ts : Nat) (texts : List String) :
    (historyRows ts texts).Pairwise fun one two => one.1 < two.1 := by
  have indexes : (texts.zipIdx.map Prod.snd).Pairwise (· < ·) := by
    rw [List.zipIdx_map_snd]
    exact List.pairwise_lt_range'
  unfold historyRows
  apply List.pairwise_map.2
  apply (List.pairwise_map.1 indexes).imp
  intro one two less
  exact Nat.add_lt_add_left less _

theorem historyRows_below {ts : Nat} {texts : List String} {row : Nat × String}
    (member : row ∈ historyRows ts texts) :
    ts * historyCap ≤ row.1 ∧ row.1 < ts * historyCap + texts.length := by
  rcases List.mem_map.1 member with ⟨entry, its, rfl⟩
  have inside := List.getElem?_eq_some_iff.1 (List.mem_zipIdx_iff_getElem?.1 its)
  exact ⟨Nat.le_add_right .., Nat.add_lt_add_left inside.1 _⟩

section

variable {writes byTime : List (Write π σ)} {texts : Write π σ → List String}
  {entries : List (Nat × String)}

omit [PathBuf π] in
theorem rows_rising
    (apart : ∀ write ∈ writes, ∀ other ∈ writes, write.ts < other.ts →
      write.ts * historyCap + (texts write).length ≤ other.ts * historyCap)
    (perm : byTime.Perm writes) (sorted : byTime.Pairwise fun one two => one.ts < two.ts) :
    (byTime.flatMap fun write => historyRows write.ts (texts write)).Pairwise
      fun one two => one.1 < two.1 := by
  apply List.pairwise_flatMap.2
  constructor
  · intro write member
    exact historyRows_rising write.ts (texts write)
  · apply sorted.imp_of_mem
    intro one two member member' earlier row its row' its'
    have bound := apart one (perm.mem_iff.1 member) two (perm.mem_iff.1 member') earlier
    exact (historyRows_below its).2.trans_le (bound.trans (historyRows_below its').1)

omit [PathBuf π] in
/-- **The union of the flushes' histories.** -/
theorem finishHistory_eq (order : IterOrder)
    (apart : ∀ write ∈ writes, ∀ other ∈ writes, write.ts < other.ts →
      write.ts * historyCap + (texts write).length ≤ other.ts * historyCap)
    (perm : byTime.Perm writes) (sorted : byTime.Pairwise fun one two => one.ts < two.ts)
    (observed : ∀ entry, entry ∈ entries ↔
      ∃ write ∈ writes, entry ∈ historyRows write.ts (texts write)) :
    finishHistory order (observeAll entries) = historyUnion (byTime.flatMap texts) := by
  have same : ∀ entry, entry ∈ entries ↔
      entry ∈ byTime.flatMap fun write => historyRows write.ts (texts write) := by
    intro entry
    rw [observed, List.mem_flatMap]
    simp only [perm.mem_iff]
  have texts_eq : (byTime.flatMap fun write => historyRows write.ts (texts write)).map Prod.snd =
      byTime.flatMap texts := by
    rw [List.map_flatMap]
    simp only [historyRows_texts]
  unfold finishHistory historyUnion
  rw [ring_eq historyCap (rows_rising apart perm sorted) same (order.perm _), texts_eq]

end

/-! ### The histories of written stores -/

section

variable {logs : List (List (Write π σ))}

variable {writes : List (Write π σ)}

omit [PathBuf π] in
theorem RangesApart.fits (apart : RangesApart writes) {write : Write π σ}
    (member : write ∈ writes) {ring : List String} (its : ring ∈ write.state.rings) :
    KeysFit write.ts ring :=
  (apart write member).1 ring its

theorem observed_history (part : Store σ → TreeMap Nat String)
    (texts : Write π σ → List String) (nothing : part .empty = ∅)
    (anew : ∀ store write, part (writeState store write.ts write.state) =
      writeHistory write.ts (texts write))
    (inside : ∀ write, texts write ∈ write.state.rings) (apart : RangesApart (lasts logs))
    (entry : Nat × String) :
    entry ∈ (logs.map storeOf).flatMap (fun store => (part store).toList) ↔
      ∃ write ∈ lasts logs, entry ∈ historyRows write.ts (texts write) := by
  have written := flatMap_lasts logs (fun store => (part store).toList)
    (fun write => (writeHistory write.ts (texts write)).toList) (by rw [nothing]; rfl)
    (fun store write => by rw [anew])
  rw [written, List.mem_flatMap]
  apply exists_congr
  intro write
  apply and_congr_right
  intro member
  rcases entry with ⟨key, text⟩
  rw [TreeMap.mem_toList_iff_getElem?_eq_some, get_writeHistory (apart.fits member (inside write)),
    mem_historyRows]

theorem observed_input (ns : String) (apart : RangesApart (lasts logs)) (entry : Nat × String) :
    entry ∈ ringRows ns ((logs.map storeOf).flatMap fun store => store.histInput.toList) ↔
      ∃ write ∈ lasts logs,
        entry ∈ historyRows write.ts (namespaceTexts ns write.state.inputHistory) := by
  have written := flatMap_lasts logs (fun store => store.histInput.toList)
    (fun write => (writeInputHistory write.ts write.state.inputHistory).toList) rfl
    (fun _ _ => rfl)
  rcases entry with ⟨key, text⟩
  have regrouped : (key, text) ∈ ringRows ns
      ((logs.map storeOf).flatMap fun store => store.histInput.toList) ↔
      ((ns, key), text) ∈ (logs.map storeOf).flatMap fun store => store.histInput.toList := by
    unfold ringRows
    simp only [List.mem_map, List.mem_filter, decide_eq_true_eq, Prod.mk.injEq]
    constructor
    · rintro ⟨⟨⟨ns', key'⟩, text'⟩, ⟨member, rfl⟩, rfl, rfl⟩
      exact member
    · intro member
      exact ⟨_, ⟨member, rfl⟩, rfl, rfl⟩
  rw [regrouped, written, List.mem_flatMap]
  apply exists_congr
  intro write
  apply and_congr_right
  intro member
  have fits : ∀ ring ∈ write.state.inputHistory, KeysFit write.ts ring.2 := by
    intro ring its
    apply apart.fits member
    exact List.mem_cons_of_mem _ (List.mem_cons_of_mem _ (List.mem_map.2 ⟨ring, its, rfl⟩))
  rw [TreeMap.mem_toList_iff_getElem?_eq_some, get_writeInputHistory fits, mem_historyRows]

/-- No namespace's texts are more than the longest of its entries. -/
theorem namespaceTexts_length (ns : String) {input : List (String × List String)} {bound : Nat}
    (short : ∀ ring ∈ input, ring.2.length ≤ bound) :
    (namespaceTexts ns input).length ≤ bound := by
  induction input using List.reverseRecOn with
  | nil => exact Nat.zero_le _
  | append_singleton input ring ih =>
      have before := ih fun other member => short other (List.mem_append_left _ member)
      have its := short ring (List.mem_append_right _ (List.mem_singleton.2 rfl))
      rw [namespaceTexts_concat]
      split
      · rw [List.length_append, List.length_drop]
        omega
      · exact before

omit [PathBuf π] in
theorem RangesApart.ring (apart : RangesApart writes) (texts : Write π σ → List String)
    (inside : ∀ write, texts write ∈ write.state.rings) :
    ∀ write ∈ writes, ∀ other ∈ writes, write.ts < other.ts →
      write.ts * historyCap + (texts write).length ≤ other.ts * historyCap := by
  intro write member other member' earlier
  exact (apart write member).2 other member' earlier _ (inside write)

omit [PathBuf π] in
theorem RangesApart.input (apart : RangesApart writes) (ns : String) :
    ∀ write ∈ writes, ∀ other ∈ writes, write.ts < other.ts →
      write.ts * historyCap + (namespaceTexts ns write.state.inputHistory).length ≤
        other.ts * historyCap := by
  intro write member other member' earlier
  have below := (apart write member).2 other member' earlier
  have start := below write.state.searchHistory (List.mem_cons_self ..)
  have short : (namespaceTexts ns write.state.inputHistory).length ≤
      other.ts * historyCap - write.ts * historyCap := by
    apply namespaceTexts_length
    intro ring its
    have bound := below ring.2
      (List.mem_cons_of_mem _ (List.mem_cons_of_mem _ (List.mem_map.2 ⟨ring, its, rfl⟩)))
    omega
  omega

end

/-- The texts of the input rings, by namespace. -/
theorem mem_groupInputHistory (order : IterOrder) (merge : TreeMap String (TreeMap String Nat))
    (ns : String) (texts : List String) :
    (ns, texts) ∈ groupInputHistory order merge ↔
      merge[ns]?.map (finishHistory order) = some texts ∧ texts ≠ [] := by
  unfold groupInputHistory
  rw [List.mem_filter, TreeMap.mem_toList_iff_getElem?_eq_some, get_insertAll,
    TreeMap.getElem?_emptyc, Option.or_none, lastOf_map (finishHistory order), lastOf_arrange]
  simp

/-- The history that some flushes leave, the earliest first. -/
structure HistoryOf (byTime : List (Write π σ)) (texts : Write π σ → List String)
    (ring : List String) : Prop where
  /-- The newest of all texts, each where it came last. -/
  union : ring = historyUnion (byTime.flatMap texts)
  once : ring.Nodup
  kept : List.Sublist ring (byTime.flatMap texts)
  /-- What later flushes have stands behind what only earlier ones have. -/
  later : ∀ before after, byTime = before ++ after → ∃ front back, ring = front ++ back ∧
    (∀ text ∈ front, text ∉ after.flatMap texts) ∧ ∀ text ∈ back, text ∈ after.flatMap texts

omit [PathBuf π] in
theorem historyOf_union (byTime : List (Write π σ)) (texts : Write π σ → List String) :
    HistoryOf byTime texts (historyUnion (byTime.flatMap texts)) := by
  constructor
  · rfl
  · exact (List.nodup_dedup _).sublist (List.drop_sublist _ _)
  · exact (List.drop_sublist _ _).trans (List.dedup_sublist _)
  · rintro before after rfl
    unfold historyUnion
    rw [List.flatMap_append, List.dedup_append]
    rcases List.sublist_suffix_of_union (before.flatMap texts) (after.flatMap texts).dedup with
      ⟨front, -, whole⟩
    have once : (front ++ (after.flatMap texts).dedup).Nodup := by
      rw [whole, ← List.dedup_append]
      exact List.nodup_dedup _
    rw [← whole, List.drop_append]
    refine ⟨_, _, rfl, ?_, ?_⟩
    · intro text member behind
      exact List.disjoint_of_nodup_append once (List.mem_of_mem_drop member)
        (List.mem_dedup.2 behind)
    · intro text member
      exact List.mem_dedup.1 (List.mem_of_mem_drop member)

/-! ### The union of stores -/

/-- The states hold the same, in any order where they come from a map. -/
structure SameParts (one two : PersistState π σ) : Prop where
  registers : one.registers.Perm two.registers
  globalMarks : one.globalMarks.Perm two.globalMarks
  fileMarks : one.fileMarks.Perm two.fileMarks
  numberedMarks : one.numberedMarks.Perm two.numberedMarks
  fileChangelists : one.fileChangelists.Perm two.fileChangelists
  fileFolds : one.fileFolds.Perm two.fileFolds
  jumplist : one.jumplist = two.jumplist
  exitCursor : one.exitCursor = two.exitCursor
  session : one.session = two.session
  pluginData : one.pluginData = two.pluginData
  workspaceOptions : one.workspaceOptions = two.workspaceOptions

structure SameHistories (one two : PersistState π σ) : Prop where
  search : one.searchHistory = two.searchHistory
  ex : one.exHistory = two.exHistory
  input : one.inputHistory = two.inputHistory

/-- No key has two entries. -/
structure OneEach (state : PersistState π σ) : Prop where
  registers : (state.registers.map Prod.fst).Nodup
  globalMarks : (state.globalMarkRows.map Prod.fst).Nodup
  fileMarks : (state.fileMarkRows.map Prod.fst).Nodup
  numberedMarks : (state.numberedRows.map Prod.fst).Nodup
  fileChangelists : (state.changelistRows.map Prod.fst).Nodup
  fileFolds : (state.foldRows.map Prod.fst).Nodup
  pluginData : (state.pluginRows.map Prod.fst).Nodup

section

variable {κ β : Type} [Ord κ] (order order' : IterOrder)

theorem entriesOf_perm {table table' : Table κ β} (same : table.toList = table'.toList) :
    (entriesOf order table).Perm (entriesOf order' table') := by
  unfold entriesOf
  apply List.Perm.map
  rw [same]
  exact (order.perm _).trans (order'.perm _).symm

theorem entriesOf_keys [TransOrd κ] [LawfulEqOrd κ] (table : Table κ β) :
    ((entriesOf order table).map Prod.fst).Nodup := by
  unfold entriesOf
  rw [List.map_map]
  exact ((order.perm table.toList).map Prod.fst).nodup_iff.2 ((rising_toList table).keys)

end

/-- The tables of stores read in another order merge to the same. -/
theorem mergeTables_reordered {κ β : Type} [Ord κ] [TransOrd κ] [LawfulEqOrd κ] {wrap : β → Value}
    (table : Store σ → Table κ β) (name : κ → Key) (inj : Function.Injective wrap)
    (reads : ∀ (store : Store σ) key, store.row (name key) = rowIn wrap (table store) key)
    (untied : UntiedRows stores) (perm : stores.Perm stores') :
    (mergeTables (stores.map table)).toList = (mergeTables (stores'.map table)).toList := by
  apply mergeTables_congr (untied_tables table name inj reads untied)
  intro other
  exact (perm.map table).mem_iff

/-- The merges agree on every table. -/
structure SameTables (one two : MergedRaw σ) : Prop where
  regs : one.regs.toList = two.regs.toList
  globalMarks : one.globalMarks.toList = two.globalMarks.toList
  fileMarks : one.fileMarks.toList = two.fileMarks.toList
  numbered : one.numbered.toList = two.numbered.toList
  changelist : one.changelist.toList = two.changelist.toList
  folds : one.folds.toList = two.folds.toList
  plugin : one.plugin.toList = two.plugin.toList

theorem sameTables_reordered (untied : UntiedRows stores) (perm : stores.Perm stores') :
    SameTables (collectMerge stores) (collectMerge stores') := by
  constructor
  · rw [collect_regs, collect_regs]
    exact mergeTables_reordered _ .register injective_register (fun _ _ => rfl) untied perm
  · rw [collect_globalMarks, collect_globalMarks]
    exact mergeTables_reordered _ .globalMark injective_pos (fun _ _ => rfl) untied perm
  · rw [collect_fileMarks, collect_fileMarks]
    exact mergeTables_reordered _ (fun key => .fileMark key.1 key.2) injective_place
      (fun _ _ => rfl) untied perm
  · rw [collect_numbered, collect_numbered]
    exact mergeTables_reordered _ .numbered injective_pos (fun _ _ => rfl) untied perm
  · rw [collect_changelist, collect_changelist]
    exact mergeTables_reordered _ .changelist injective_changes (fun _ _ => rfl) untied perm
  · rw [collect_folds, collect_folds]
    exact mergeTables_reordered _ .folds injective_folds (fun _ _ => rfl) untied perm
  · rw [collect_plugin, collect_plugin]
    exact mergeTables_reordered _ (fun key => .plugin key.1 key.2) injective_text
      (fun _ _ => rfl) untied perm

/-- The merges agree on the newest store's values. -/
structure SameValues (one two : MergedRaw σ) : Prop where
  jumplist : one.jumplist = two.jumplist
  session : one.session = two.session
  workspaceOptions : one.workspaceOptions = two.workspaceOptions
  exit : one.exit = two.exit

omit [PathBuf π] in
theorem distinct_dated {α : Type} {logs : List (List (Write π σ))}
    (distinct : DistinctFlushes logs) (written : Write π σ → α) :
    DistinctTimes ((lasts logs).map fun write => (write.ts, written write)) := by
  intro one member two member' tied
  rcases List.mem_map.1 member with ⟨write, its, rfl⟩
  rcases List.mem_map.1 member' with ⟨write', its', rfl⟩
  rw [lasts_distinct distinct its its' tied]

theorem newest_dated {α : Type} {logs logs' : List (List (Write π σ))}
    (distinct : DistinctFlushes logs) (perm : logs.Perm logs') (first : α)
    (value : Store σ → α) (written : Write π σ → α)
    (anew : ∀ store write, value (writeState store write.ts write.state) = written write) :
    newestValue first ((logs.map storeOf).flatMap fun store => store.dated (value store)) =
      newestValue first ((logs'.map storeOf).flatMap fun store => store.dated (value store)) := by
  rw [dated_lasts logs value written anew, dated_lasts logs' value written anew]
  apply newestValue_congr (distinct_dated distinct written)
  intro other
  exact ((perm.filterMap List.getLast?).map _).mem_iff

/-- The clean exit of a flush, if it was one. -/
def Write.exits (write : Write π σ) : List (Nat × Option (Pos String)) :=
  write.state.exitCursor.toList.map fun exit => (write.ts, some exit.lossy)

theorem exits_lasts (logs : List (List (Write π σ))) :
    (logs.map storeOf).flatMap Store.exits = (lasts logs).flatMap Write.exits := by
  apply flatMap_lasts logs _ _ rfl
  intro store write
  unfold Store.exits Write.exits writeState
  cases write.state.exitCursor with
  | none => rfl
  | some exit => rfl

theorem sameValues_reordered {logs logs' : List (List (Write π σ))}
    (distinct : DistinctFlushes logs) (perm : logs.Perm logs') :
    SameValues (collectMerge (logs.map storeOf)) (collectMerge (logs'.map storeOf)) := by
  constructor
  · rw [collect_jumplist, collect_jumplist]
    exact newest_dated distinct perm [] readJumplist
      (fun write => (writeJumplist write.state.jumplist).toList.map Prod.snd) fun _ _ => rfl
  · rw [collect_session, collect_session]
    exact newest_dated distinct perm none (·.session) (·.state.session) fun _ _ => rfl
  · rw [collect_workspaceOptions, collect_workspaceOptions]
    apply newest_dated distinct perm [] (·.workspaceOptions.getD []) (·.state.workspaceOptions)
    intro store write
    unfold writeState
    cases write.state.workspaceOptions with
    | nil => rfl
    | cons first rest => rfl
  · rw [collect_exit, collect_exit, exits_lasts, exits_lasts]
    apply newestValue_congr
    · intro one member two member' tied
      rcases List.mem_flatMap.1 member with ⟨write, its, exits⟩
      rcases List.mem_flatMap.1 member' with ⟨write', its', exits'⟩
      rcases List.mem_map.1 exits with ⟨exit, left, rfl⟩
      rcases List.mem_map.1 exits' with ⟨exit', left', rfl⟩
      cases lasts_distinct distinct its its' tied
      rw [Option.mem_toList] at left left'
      rw [left] at left'
      cases left'
      rfl
    · intro other
      exact ((perm.filterMap List.getLast?).flatMap_right _).mem_iff

theorem sameParts_buildState {one two : MergedRaw σ} (order order' : IterOrder)
    (tables : SameTables one two) (values : SameValues one two)
    {marks marks' : List (Char × Pos π)} (numbered : marks.Perm marks') :
    SameParts (buildState order one marks) (buildState order' two marks') := by
  constructor
  · exact entriesOf_perm order order' tables.regs
  · exact (entriesOf_perm order order' tables.globalMarks).map _
  · exact (entriesOf_perm order order' tables.fileMarks).map _
  · exact numbered
  · exact (entriesOf_perm order order' tables.changelist).map _
  · exact (entriesOf_perm order order' tables.folds).map _
  · unfold buildState
    rw [values.jumplist]
  · rfl
  · exact congrArg Prod.snd values.session
  · apply groupPlugin_congr
    · rw [tables.plugin]
      exact (order.perm _).trans (order'.perm _).symm
    · exact ((order.perm _).map Prod.fst).nodup_iff.2 (rising_toList _).keys
  · exact congrArg Prod.snd values.workspaceOptions

theorem passthrough_perm (order order' : IterOrder) (same : one.toList = two.toList) :
    (numberedPassthrough order one : List (Char × Pos π)).Perm (numberedPassthrough order' two) :=
  (entriesOf_perm order order' same).map _

theorem shift_perm (order order' : IterOrder) (same : one.toList = two.toList)
    (exit : Option (Pos String)) : (shiftNumberedMarks order one exit : List (Char × Pos π)).Perm
      (shiftNumberedMarks order' two exit) := by
  cases exit with
  | none => exact passthrough_perm order order' same
  | some exit =>
      have equal : ∀ mark : Char, one[mark]? = two[mark]? := by
        intro mark
        apply Option.ext
        intro row
        rw [← TreeMap.mem_toList_iff_getElem?_eq_some, same,
          TreeMap.mem_toList_iff_getElem?_eq_some]
      unfold shiftNumberedMarks
      simp only [equal]
      exact List.Perm.refl _

omit [PathBuf π] in
/-- The last flushes have an order by time. -/
theorem exists_byTime {logs : List (List (Write π σ))} (distinct : DistinctFlushes logs) :
    ∃ byTime : List (Write π σ), byTime.Perm (lasts logs) ∧
      byTime.Pairwise fun one two => one.ts < two.ts := by
  have apart : ((lasts logs).map (·.ts)).Nodup := by
    apply List.pairwise_map.2
    apply List.Pairwise.filterMap List.getLast? _ distinct
    intro one two differ write its write' its'
    exact differ write (List.mem_of_getLast? its) write' (List.mem_of_getLast? its')
  exact ⟨sortBy (·.ts) (lasts logs), sortBy_perm _ _, sortBy_rising _ apart⟩

/-- Each history is the union of the last flushes' texts. -/
structure UnitedHistories (byTime : List (Write π σ)) (state : PersistState π σ) : Prop where
  search : HistoryOf byTime (·.state.searchHistory) state.searchHistory
  ex : HistoryOf byTime (·.state.exHistory) state.exHistory
  input : ∀ ns texts, (ns, texts) ∈ state.inputHistory ↔
    texts ≠ [] ∧ texts = historyUnion (byTime.flatMap fun write =>
      namespaceTexts ns write.state.inputHistory)
  sorted : Rising state.inputHistory

theorem groupInputHistory_sorted (order : IterOrder)
    (merge : TreeMap String (TreeMap String Nat)) :
    Rising (groupInputHistory order merge) :=
  List.Pairwise.sublist List.filter_sublist (rising_toList _)

theorem ring_nil (order : IterOrder) : finishHistory order ∅ = [] := by
  have nothing := (order.perm (∅ : TreeMap String Nat).toList).eq_nil
  unfold finishHistory ring sortBy
  rw [nothing]
  simp

theorem search_reloadState (order : IterOrder) (stores : List (Store σ)) :
    (reloadState order stores : PersistState π σ).searchHistory =
      finishHistory order (collectMerge stores).histSearch := by
  unfold reloadState buildState
  simp only

theorem ex_reloadState (order : IterOrder) (stores : List (Store σ)) :
    (reloadState order stores : PersistState π σ).exHistory =
      finishHistory order (collectMerge stores).histEx := by
  unfold reloadState buildState
  simp only

theorem input_reloadState (order : IterOrder) (stores : List (Store σ)) :
    (reloadState order stores : PersistState π σ).inputHistory =
      groupInputHistory order (collectMerge stores).histInput := rfl

theorem histories_united {logs : List (List (Write π σ))} {byTime : List (Write π σ)}
    (apart : RangesApart (lasts logs)) (perm : byTime.Perm (lasts logs))
    (sorted : byTime.Pairwise fun one two => one.ts < two.ts) (order : IterOrder) :
    UnitedHistories byTime (reloadState order (logs.map storeOf)) := by
  have search_in : ∀ write : Write π σ, write.state.searchHistory ∈ write.state.rings :=
    fun write => List.mem_cons_self ..
  have ex_in : ∀ write : Write π σ, write.state.exHistory ∈ write.state.rings :=
    fun write => List.mem_cons_of_mem _ (List.mem_cons_self ..)
  constructor
  · have ring : finishHistory order (collectMerge (logs.map storeOf)).histSearch =
        historyUnion (byTime.flatMap (·.state.searchHistory)) := by
      rw [collect_histSearch]
      exact finishHistory_eq order (apart.ring _ search_in) perm sorted
        (observed_history (·.histSearch) (·.state.searchHistory) rfl (fun _ _ => rfl) search_in
          apart)
    rw [search_reloadState, ring]
    exact historyOf_union byTime (·.state.searchHistory)
  · have ring : finishHistory order (collectMerge (logs.map storeOf)).histEx =
        historyUnion (byTime.flatMap (·.state.exHistory)) := by
      rw [collect_histEx]
      exact finishHistory_eq order (apart.ring _ ex_in) perm sorted
        (observed_history (·.histEx) (·.state.exHistory) rfl (fun _ _ => rfl) ex_in apart)
    rw [ex_reloadState, ring]
    exact historyOf_union byTime (·.state.exHistory)
  · intro ns texts
    have ring := finishHistory_eq order (apart.input ns) perm sorted (observed_input ns apart)
    rw [input_reloadState, mem_groupInputHistory, collect_histInput, and_comm]
    apply and_congr_right
    intro some_text
    split
    · next nothing =>
        -- Without a row of the namespace the union is empty too.
        rw [nothing] at ring
        rw [← ring]
        constructor
        · intro none_left
          cases none_left
        · intro its
          rw [its] at some_text
          exact absurd (ring_nil order) some_text
    · rw [Option.map_some, Option.some_inj, ring, eq_comm]
  · exact groupInputHistory_sorted order _

theorem sameHistories_reordered {logs logs' : List (List (Write π σ))}
    (distinct : DistinctFlushes logs) (perm : logs.Perm logs')
    (apart : RangesApart (lasts logs)) (order order' : IterOrder) :
    SameHistories (reloadState order (logs.map storeOf) : PersistState π σ)
      (reloadState order' (logs'.map storeOf)) := by
  rcases exists_byTime distinct with ⟨byTime, listed, sorted⟩
  have listed' : byTime.Perm (lasts logs') := listed.trans (perm.filterMap List.getLast?)
  have apart' : RangesApart (lasts logs') := by
    intro write member
    have its := (perm.filterMap List.getLast?).mem_iff.2 member
    refine ⟨(apart write its).1, ?_⟩
    intro other member'
    exact (apart write its).2 other ((perm.filterMap List.getLast?).mem_iff.2 member')
  have one := histories_united apart listed sorted order
  have two := histories_united apart' listed' sorted order'
  constructor
  · rw [one.search.union, two.search.union]
  · rw [one.ex.union, two.ex.union]
  · apply one.sorted.ext two.sorted
    rintro ⟨ns, texts⟩
    rw [one.input, two.input]

/-- A key has the row with the latest stamp. -/
theorem value_union {logs : List (List (Write π σ))} (distinct : DistinctFlushes logs)
    (order : IterOrder) (key : Key) (value : Value) :
    (reloadState order (logs.map storeOf) : PersistState π σ).value key = some value ↔
      ∃ log ∈ logs, ∃ ts, LeavesRow log key ⟨value, ts⟩ ∧
        ∀ other ∈ logs, ∀ row, LeavesRow other key row → row.ts ≤ ts := by
  rw [value_reloadState, Option.map_eq_some_iff]
  simp only [row_collectMerge (untied_storeOf distinct)]
  constructor
  · rintro ⟨⟨value, ts⟩, ⟨⟨store, member, found⟩, newest⟩, rfl⟩
    rcases List.mem_map.1 member with ⟨log, there, rfl⟩
    refine ⟨log, there, ts, (row_storeOf_iff log key _).1 found, ?_⟩
    intro other member' row leaves
    exact newest _ (List.mem_map.2 ⟨other, member', rfl⟩) row ((row_storeOf_iff other key row).2 leaves)
  · rintro ⟨log, there, ts, leaves, newest⟩
    refine ⟨⟨value, ts⟩, ⟨⟨storeOf log, List.mem_map.2 ⟨log, there, rfl⟩, ?_⟩, ?_⟩, rfl⟩
    · exact (row_storeOf_iff log key _).2 leaves
    · intro store member row found
      rcases List.mem_map.1 member with ⟨other, member', rfl⟩
      exact newest other member' row ((row_storeOf_iff other key row).1 found)

theorem readJumplist_written (store : Store σ) (write : Write π σ) :
    readJumplist (writeState store write.ts write.state) =
      write.state.jumplist.map Pos.lossy := by
  have rising : Rising (write.state.jumplist.zipIdx.map fun entry =>
      (entry.2, entry.1.lossy)) := by
    have indexes : (write.state.jumplist.zipIdx.map Prod.snd).Pairwise (· < ·) := by
      rw [List.zipIdx_map_snd]
      exact List.pairwise_lt_range'
    apply List.pairwise_map.2
    apply (List.pairwise_map.1 indexes).imp
    intro one two less
    exact Nat.compare_eq_lt.2 less
  unfold readJumplist writeState writeJumplist
  simp only
  rw [toList_insertAll rising, List.map_map]
  have entries := congrArg (List.map Pos.lossy) (List.zipIdx_map_fst 0 write.state.jumplist)
  rw [List.map_map] at entries
  exact entries

/-- The whole values of the newest store are the merge's. -/
structure NewestValues (write : Write π σ) (state : PersistState π σ) : Prop where
  jumplist : state.jumplist = write.state.jumplist.map fun pos => pos.lossy.restore
  session : state.session = write.state.session
  workspaceOptions : state.workspaceOptions = write.state.workspaceOptions

theorem newest_values {logs : List (List (Write π σ))} (distinct : DistinctFlushes logs)
    (order : IterOrder) {write : Write π σ} (member : write ∈ lasts logs)
    (positive : 0 < write.ts) (newest : ∀ other ∈ lasts logs, other.ts ≤ write.ts) :
    NewestValues write (reloadState order (logs.map storeOf)) := by
  have taken : ∀ {α : Type} (first : α) (value : Store σ → α) (written : Write π σ → α),
      (∀ store write, value (writeState store write.ts write.state) = written write) →
      newestValue first ((logs.map storeOf).flatMap fun store => store.dated (value store)) =
        (write.ts, written write) := by
    intro α first value written anew
    rw [dated_lasts logs value written anew]
    apply newestValue_eq (distinct_dated distinct written)
    · exact List.mem_map.2 ⟨write, member, rfl⟩
    · exact positive
    · intro other its
      rcases List.mem_map.1 its with ⟨other, there, rfl⟩
      exact newest other there
  unfold reloadState buildState
  constructor
  · simp only [collect_jumplist]
    rw [taken [] readJumplist (·.state.jumplist.map Pos.lossy) readJumplist_written, List.map_map]
    rfl
  · simp only [collect_session]
    rw [taken none (·.session) (·.state.session) fun _ _ => rfl]
  · simp only [collect_workspaceOptions]
    rw [taken [] (·.workspaceOptions.getD []) (·.state.workspaceOptions)]
    intro store write
    unfold writeState
    cases write.state.workspaceOptions with
    | nil => rfl
    | cons first rest => rfl

theorem pluginRows_keys (rows : List ((String × String) × Stamped String))
    (keys : (rows.map Prod.fst).Nodup) :
    (((groupPlugin rows).flatMap fun plugin =>
      plugin.2.map fun entry => ((plugin.1, entry.1), entry.2)).map Prod.fst).Nodup := by
  have names : (groupPlugin rows).Pairwise fun one two => one.1 ≠ two.1 := by
    apply List.pairwise_map.1
    have sorted := (rising_toList (pluginGroups rows)).keys
    unfold groupPlugin
    rw [List.map_map]
    exact sorted
  rw [List.map_flatMap]
  apply List.pairwise_flatMap.2
  constructor
  · rintro ⟨ns, entries⟩ member
    rcases (mem_groupPlugin rows ns entries).1 member with ⟨-, rfl⟩
    rw [List.map_map]
    have inside := ((sortBy_perm Prod.fst (share ns rows)).map Prod.fst).nodup_iff.2
      (share_keys keys ns)
    have paired := inside.map (Prod.mk_right_injective ns)
    rw [List.map_map] at paired
    exact paired
  · apply names.imp
    intro one two apart key member key' member' same
    rcases List.mem_map.1 member with ⟨entry, its, rfl⟩
    rcases List.mem_map.1 member' with ⟨entry', its', rfl⟩
    rcases List.mem_map.1 its with ⟨inner, -, rfl⟩
    rcases List.mem_map.1 its' with ⟨inner', -, rfl⟩
    exact apart (Prod.mk.inj same).1

theorem oneEach_reloadState (order : IterOrder) (stores : List (Store σ)) :
    OneEach (reloadState order stores : PersistState π σ) := by
  constructor
  · exact entriesOf_keys order (collectMerge stores).regs
  · unfold reloadState
    rw [globalMarkRows_buildState]
    exact entriesOf_keys order _
  · unfold reloadState
    rw [fileMarkRows_buildState]
    exact entriesOf_keys order _
  · unfold reloadState PersistState.numberedRows buildState
    simp only [passthroughRows]
    exact entriesOf_keys order _
  · unfold reloadState
    rw [changelistRows_buildState]
    exact entriesOf_keys order _
  · unfold reloadState
    rw [foldRows_buildState]
    exact entriesOf_keys order _
  · apply pluginRows_keys
    exact ((order.perm _).map Prod.fst).nodup_iff.2 (rising_toList _).keys

/-! ### One store -/

omit [PathBuf π] in
theorem lasts_single (log : List (Write π σ)) (write : Write π σ) :
    lasts [log ++ [write]] = [write] := by
  unfold lasts
  rw [List.filterMap_cons_some (List.getLast?_concat ..)]
  rfl

/-- A register or a global mark of a store: what the last flush that had one wrote. -/
theorem row_upserted (log : List (Write π σ)) {key : Key} (upserts : key.upserts = true) :
    ((storeOf log).row key).map (·.value) =
      log.reverse.findSome? fun write => write.state.value key := by
  induction log using List.reverseRecOn with
  | nil =>
      rw [row_storeOf]
      rfl
  | append_singleton log write ih =>
      rw [storeOf_concat, row_writeState, if_pos upserts, List.reverse_append,
        List.reverse_singleton, List.singleton_append, List.findSome?_cons, ← ih]
      cases write.state.value key with
      | some value => rfl
      | none => rfl

theorem row_single {logs : List (List (Write π σ))} (log : List (Write π σ))
    (only : logs = [log]) (key : Key) :
    (collectMerge (logs.map storeOf)).row key = (storeOf log).row key := by
  subst only
  have distinct : DistinctFlushes [log] := List.pairwise_singleton _ _
  apply Option.ext
  intro row
  rw [row_collectMerge (untied_storeOf distinct)]
  constructor
  · rintro ⟨⟨store, member, found⟩, -⟩
    rw [List.mem_singleton.1 member] at found
    exact found
  · intro found
    refine ⟨⟨storeOf log, List.mem_singleton.2 rfl, found⟩, ?_⟩
    intro store member other found'
    rw [List.mem_singleton.1 member, found] at found'
    cases found'
    exact Nat.le_refl _

/-- What one store gives: the last flush's values; for a register or a global mark, that of the
last flush that had one. -/
structure LastWritten (log : List (Write π σ)) (write : Write π σ) (state : PersistState π σ) :
    Prop where
  value : ∀ key, state.value key =
    if key.upserts then (log ++ [write]).reverse.findSome? fun write => write.state.value key
    else write.state.value key
  whole : 0 < write.ts → NewestValues write state
  search : write.Below (2 ^ 64) → state.searchHistory = historyUnion write.state.searchHistory
  ex : write.Below (2 ^ 64) → state.exHistory = historyUnion write.state.exHistory
  input : write.Below (2 ^ 64) → ∀ ns texts, (ns, texts) ∈ state.inputHistory ↔
    texts ≠ [] ∧ texts = historyUnion (namespaceTexts ns write.state.inputHistory)

theorem lastWritten_single {logs : List (List (Write π σ))} (order : IterOrder)
    (log : List (Write π σ)) (write : Write π σ) (only : logs = [log ++ [write]]) :
    LastWritten log write (reloadState order (logs.map storeOf)) := by
  have last : lasts logs = [write] := by
    rw [only]
    exact lasts_single log write
  have distinct : DistinctFlushes logs := by
    rw [only]
    exact List.pairwise_singleton _ _
  have apart : write.Below (2 ^ 64) → RangesApart (lasts logs) := by
    intro below other member
    rw [last] at member ⊢
    cases List.mem_singleton.1 member
    refine ⟨below, ?_⟩
    intro other member' earlier
    cases List.mem_singleton.1 member'
    exact absurd earlier (Nat.lt_irrefl _)
  have united : write.Below (2 ^ 64) →
      UnitedHistories [write] (reloadState order (logs.map storeOf) : PersistState π σ) := by
    intro below
    apply histories_united (apart below)
    · rw [last]
    · exact List.pairwise_singleton _ _
  constructor
  · intro key
    rw [value_reloadState, row_single _ only]
    split
    · next upserts => exact row_upserted _ upserts
    · next anew =>
        rw [storeOf_concat, row_writeState, if_neg anew, Option.or_none, Option.map_map]
        exact Option.map_id_apply
  · intro positive
    apply newest_values distinct order _ positive
    · intro other member
      rw [last] at member
      rw [List.mem_singleton.1 member]
    · rw [last]
      exact List.mem_singleton.2 rfl
  · intro below
    rw [(united below).search.union, List.flatMap_singleton]
  · intro below
    rw [(united below).ex.union, List.flatMap_singleton]
  · intro below ns texts
    rw [(united below).input, List.flatMap_singleton]

/-- **Merging stores is a union.**  For stores of distinct flush times: the order in which they are
read, and that in which maps are iterated, changes nothing; each key has one entry at most, with
the value that carries the latest stamp; the histories, when the flushes' key ranges lie apart,
are the unions of the last flushes' texts; the whole values are those of the newest store; and one
store alone gives what it was last written. -/
theorem stores_union {logs : List (List (Write π σ))} (distinct : DistinctFlushes logs) :
    (∀ (order order' : IterOrder) logs', logs.Perm logs' →
      SameParts (reloadState order (logs.map storeOf) : PersistState π σ)
        (reloadState order' (logs'.map storeOf)) ∧
      SameParts (loadState order (logs.map storeOf) : PersistState π σ)
        (loadState order' (logs'.map storeOf)) ∧
      (RangesApart (lasts logs) →
        SameHistories (reloadState order (logs.map storeOf) : PersistState π σ)
          (reloadState order' (logs'.map storeOf)))) ∧
    ∀ (order : IterOrder) (state : PersistState π σ),
      state = reloadState order (logs.map storeOf) →
        OneEach state ∧
        (∀ key value, state.value key = some value ↔
          ∃ log ∈ logs, ∃ ts, LeavesRow log key ⟨value, ts⟩ ∧
            ∀ other ∈ logs, ∀ row, LeavesRow other key row → row.ts ≤ ts) ∧
        (∀ byTime : List (Write π σ), byTime.Perm (lasts logs) →
          byTime.Pairwise (fun one two => one.ts < two.ts) → RangesApart (lasts logs) →
            UnitedHistories byTime state) ∧
        (∀ write ∈ lasts logs, 0 < write.ts → (∀ other ∈ lasts logs, other.ts ≤ write.ts) →
          NewestValues write state) ∧
        ∀ log write, logs = [log ++ [write]] → LastWritten log write state := by
  constructor
  · intro order order' logs' perm
    have tables := sameTables_reordered (untied_storeOf distinct) (perm.map storeOf)
    have values := sameValues_reordered distinct perm
    refine ⟨?_, ?_, fun apart => sameHistories_reordered distinct perm apart order order'⟩
    · apply sameParts_buildState order order' tables values
      exact passthrough_perm order order' tables.numbered
    · apply sameParts_buildState order order' tables values
      rw [values.exit]
      exact shift_perm order order' tables.numbered _
  · rintro order state rfl
    refine ⟨oneEach_reloadState order _, value_union distinct order, ?_, ?_, ?_⟩
    · intro byTime perm sorted apart
      exact histories_united apart perm sorted order
    · intro write member positive newest
      exact newest_values distinct order member positive newest
    · intro log write only
      exact lastWritten_single order log write only

/-! ### Stores of one and of two flushes -/

/-- A state with nothing in it. -/
def PersistState.empty : PersistState π σ where
  registers := []
  globalMarks := []
  fileMarks := []
  searchHistory := []
  exHistory := []
  inputHistory := []
  numberedMarks := []
  fileChangelists := []
  fileFolds := []
  jumplist := []
  exitCursor := none
  session := none
  pluginData := []
  workspaceOptions := []

def IterOrder.plain : IterOrder where
  arrange := id
  perm := List.Perm.refl

/-- Register `a` holds this text. -/
def yanked (text : String) : PersistState String Unit :=
  { PersistState.empty with registers := [('a', ⟨text, false⟩)] }

theorem stores_union_yanks : ∃ row : Stamped Value,
    LeavesRow [Write.mk 2 (yanked "two")] (.register 'a') row ∧
      (reloadState .plain ([[Write.mk 1 (yanked "one")], [Write.mk 2 (yanked "two")]].map storeOf) :
        PersistState String Unit).value (.register 'a') = some row.value := by
  have distinct : DistinctFlushes [[Write.mk 1 (yanked "one")], [Write.mk 2 (yanked "two")]] := by
    unfold DistinctFlushes
    simp
  have held : LeavesRow [Write.mk 2 (yanked "two")] (.register 'a')
      ⟨.register ⟨"two", false⟩, 2⟩ := (row_storeOf_iff _ _ _).1 rfl
  refine ⟨_, held, ?_⟩
  apply (((stores_union distinct).2 .plain _ rfl).2.1 _ _).2
  refine ⟨_, List.mem_cons_of_mem _ (List.mem_cons_self ..), 2, held, ?_⟩
  intro other member row leaves
  rcases leaves.written with ⟨write, its, dated⟩
  rw [← dated]
  rcases List.mem_cons.1 member with rfl | member
  · rw [List.mem_singleton.1 its]
    exact Nat.le_succ _
  · rw [List.mem_singleton.1 member] at its
    rw [List.mem_singleton.1 its]

/-- A jumplist and a search history. -/
def searched (texts : List String) : PersistState String Unit :=
  { PersistState.empty with searchHistory := texts, jumplist := [⟨"a.txt", 1, 2⟩] }

/-- A register stays from an early flush, in the face of the last one and of a store that is flushed
later; a flush at time zero has no jumplist; a time past `u64` turns a history round. -/
theorem early_register_stays :
    (reloadState .plain ([[⟨1, yanked "one"⟩, ⟨2, PersistState.empty⟩]].map storeOf) :
      PersistState String Unit).value (.register 'a') = some (.register ⟨"one", false⟩) ∧
    (storeOf [⟨1, yanked "one"⟩, ⟨3, PersistState.empty⟩]).row (.register 'a') =
      some ⟨.register ⟨"one", false⟩, 1⟩ ∧
    (reloadState .plain ([[⟨1, yanked "one"⟩, ⟨3, PersistState.empty⟩],
        [⟨2, yanked "two"⟩]].map storeOf) :
      PersistState String Unit).value (.register 'a') = some (.register ⟨"two", false⟩) ∧
    (reloadState .plain ([[⟨0, searched []⟩]].map storeOf) : PersistState String Unit).jumplist =
      [] ∧
    (reloadState .plain ([[⟨2 ^ 60, searched ["x", "y"]⟩]].map storeOf) :
      PersistState String Unit).searchHistory = ["y", "x"] := by
  refine ⟨rfl, rfl, rfl, rfl, ?_⟩
  have byText : (collectMerge ([[Write.mk (2 ^ 60) (searched ["x", "y"])]].map
      storeOf)).histSearch.toList = [("x", 2 ^ 64 - 1), ("y", 0)] := by
    decide +kernel
  have sorted : sortBy Prod.fst ((IterOrder.plain.arrange [("x", 2 ^ 64 - 1), ("y", 0)]).map
      Prod.swap) = [(0, "y"), (2 ^ 64 - 1, "x")] := by
    apply sortBy_eq Prod.fst (List.Perm.swap ..)
    simp
  rw [search_reloadState, finishHistory, byText, ring, sorted]
  simp [historyCap]

end Bemtvi.Shada
