/-
Module: Bemtvi.Lib.Recency
Purpose: Tables of rows that carry the time they were written, and what is read from several of
  them: the newest row of each key, the newest table's value, and the union of their histories.
Trusted boundary: none
Main exports: Stamped, Table, writeRows, get_writeRows, Leaves, foldl_leave, mergeTables,
  get_mergeTables, groupInto, sortBy, newestValue, observeAll, ring, ring_eq
-/
import Mathlib

namespace Bemtvi.Recency

open Std (TreeMap TransOrd LawfulEqOrd)

/-- Keys in pairs are ordered by the first, then the second. -/
instance pairOrd {α β : Type} [Ord α] [Ord β] : Ord (α × β) := lexOrd

/-- A value with the time of its write. -/
structure Stamped (β : Type) where
  value : β
  ts : Nat
deriving DecidableEq

abbrev Table (κ β : Type) [Ord κ] := TreeMap κ (Stamped β)

variable {κ β γ τ : Type} [Ord κ] [TransOrd κ] [LawfulEqOrd κ] {key : κ} {row : Stamped β}

/-! ### Writing -/

/-- Insert the entries, the first one first. -/
def insertAll (entries : List (κ × γ)) (table : TreeMap κ γ) : TreeMap κ γ :=
  entries.foldl (fun table entry => table.insert entry.1 entry.2) table

/-- Write the entries over the rows there are, or over none. -/
def writeRows (clear : Bool) (ts : Nat) (entries : List (κ × β)) (table : Table κ β) : Table κ β :=
  insertAll (entries.map fun entry => (entry.1, ⟨entry.2, ts⟩)) (if clear then ∅ else table)

/-- The value of the last entry with this key. -/
@[grind =]
def lastOf [DecidableEq κ] (key : κ) : List (κ × γ) → Option γ
  | [] => none
  | entry :: rest => (lastOf key rest).or (if entry.1 = key then some entry.2 else none)

section

variable [DecidableEq κ]

omit [Ord κ] [TransOrd κ] [LawfulEqOrd κ] in
theorem lastOf_append (one two : List (κ × γ)) :
    lastOf key (one ++ two) = (lastOf key two).or (lastOf key one) := by
  induction one with
  | nil => exact (Option.or_none ..).symm
  | cons entry rest ih => rw [List.cons_append, lastOf, ih, lastOf, Option.or_assoc]

omit [Ord κ] [TransOrd κ] [LawfulEqOrd κ] in
theorem lastOf_map (f : β → γ) (entries : List (κ × β)) :
    lastOf key (entries.map fun entry => (entry.1, f entry.2)) = (lastOf key entries).map f := by
  induction entries with
  | nil => rfl
  | cons entry rest ih =>
      rw [List.map_cons, lastOf, ih, lastOf]
      cases lastOf key rest with
      | some value => rfl
      | none => split <;> rfl

variable {entries : List (κ × γ)}

omit [Ord κ] [TransOrd κ] [LawfulEqOrd κ] in
theorem lastOf_mem {value : γ} (found : lastOf key entries = some value) :
    (key, value) ∈ entries := by
  induction entries with
  | nil => cases found
  | cons entry rest ih =>
      rw [lastOf, Option.or_eq_some_iff] at found
      rcases found with later | ⟨-, here⟩
      · exact List.mem_cons_of_mem _ (ih later)
      · split at here
        · next same =>
            cases here
            rw [← same]
            exact List.mem_cons_self ..
        · cases here

omit [Ord κ] [TransOrd κ] [LawfulEqOrd κ] in
theorem lastOf_none (nothing : lastOf key entries = none) (value : γ) :
    (key, value) ∉ entries := by
  induction entries with
  | nil =>
      intro member
      cases member
  | cons entry rest ih =>
      rw [lastOf, Option.or_eq_none_iff] at nothing
      rintro member
      rcases List.mem_cons.1 member with rfl | later
      · simp at nothing
      · exact ih nothing.1 later

omit [Ord κ] [TransOrd κ] [LawfulEqOrd κ] in
/-- Where a key has one value at most, that is its last. -/
theorem lastOf_iff {value : γ}
    (single : ∀ one two, (key, one) ∈ entries → (key, two) ∈ entries → one = two) :
    lastOf key entries = some value ↔ (key, value) ∈ entries := by
  constructor
  · exact lastOf_mem
  · intro member
    cases found : lastOf key entries with
    | none => exact absurd member (lastOf_none found value)
    | some other => rw [single other value (lastOf_mem found) member]

theorem get_insertAll (entries : List (κ × γ)) (table : TreeMap κ γ) :
    (insertAll entries table)[key]? = (lastOf key entries).or table[key]? := by
  unfold insertAll
  induction entries generalizing table with
  | nil => rfl
  | cons entry rest ih =>
      rw [List.foldl_cons, ih, TreeMap.getElem?_insert, lastOf]
      simp only [Std.LawfulEqCmp.compare_eq_iff_eq]
      cases lastOf key rest with
      | some value => rfl
      | none =>
          split
          · rfl
          · rfl

/-- Entries in the order of their keys. -/
def Rising (entries : List (κ × γ)) : Prop :=
  entries.Pairwise fun one two => compare one.1 two.1 = .lt

omit [LawfulEqOrd κ] [DecidableEq κ] in
theorem Rising.keys (rising : Rising entries) : (entries.map Prod.fst).Nodup := by
  apply List.pairwise_map.2
  apply List.Pairwise.imp _ rising
  intro one two less same
  have itself : compare two.1 two.1 = .eq := Std.ReflCmp.compare_self
  rw [same, itself] at less
  cases less

omit [LawfulEqOrd κ] [DecidableEq κ] in
/-- The members alone make such a list. -/
theorem Rising.ext {one two : List (κ × γ)} (rising : Rising one) (rising' : Rising two)
    (same : ∀ entry, entry ∈ one ↔ entry ∈ two) : one = two := by
  apply List.Perm.eq_of_pairwise _ rising rising'
  · exact (List.perm_ext_iff_of_nodup (.of_map _ rising.keys) (.of_map _ rising'.keys)).2 same
  · intro entry entry' _ _ less less'
    have swapped : compare entry.1 entry'.1 = (compare entry'.1 entry.1).swap :=
      Std.OrientedCmp.eq_swap
    rw [swapped, less'] at less
    cases less

omit [LawfulEqOrd κ] [DecidableEq κ] in
theorem rising_toList (table : TreeMap κ γ) : Rising table.toList := TreeMap.ordered_keys_toList

/-- Entries inserted in the order of their keys are read back so. -/
theorem toList_insertAll (rising : Rising entries) : (insertAll entries ∅).toList = entries := by
  apply (rising_toList _).ext rising
  rintro ⟨key, value⟩
  rw [TreeMap.mem_toList_iff_getElem?_eq_some, get_insertAll, TreeMap.getElem?_emptyc,
    Option.or_none]
  apply lastOf_iff
  intro one two member member'
  exact congrArg Prod.snd (List.inj_on_of_nodup_map rising.keys member member' rfl)

/-- What a write leaves of a key: its last entry, or the row before unless that was cleared. -/
theorem get_writeRows (clear : Bool) (ts : Nat) (entries : List (κ × β)) (table : Table κ β) :
    (writeRows clear ts entries table)[key]? =
      ((lastOf key entries).map fun value => ⟨value, ts⟩).or
        (if clear then none else table[key]?) := by
  unfold writeRows
  rw [get_insertAll, lastOf_map (fun value => (⟨value, ts⟩ : Stamped β))]
  cases clear with
  | true => rw [if_pos rfl, if_pos rfl, TreeMap.getElem?_emptyc]
  | false => rfl

end

/-- What a write of a key, or of other keys only, makes of its row. -/
def leave (clear : Bool) (row : Option (Stamped β)) (write : Nat × Option β) :
    Option (Stamped β) :=
  (write.2.map fun value => ⟨value, write.1⟩).or (if clear then none else row)

/-- The writes leave this row: one of them wrote it, and none after it wrote the key or cleared
the table. -/
def Leaves (clear : Bool) (writes : List (Nat × Option β)) (row : Stamped β) : Prop :=
  ∃ before after, writes = before ++ (row.ts, some row.value) :: after ∧
    (∀ write ∈ after, write.2 = none) ∧ (clear = true → after = [])

theorem leaves_concat (clear : Bool) (writes : List (Nat × Option β)) (write : Nat × Option β) :
    Leaves clear (writes ++ [write]) row ↔
      write = (row.ts, some row.value) ∨
      (write.2 = none ∧ clear = false ∧ Leaves clear writes row) := by
  constructor
  · rintro ⟨before, after, split, untouched, cleared⟩
    rcases List.eq_nil_or_concat after with rfl | ⟨after, last, rfl⟩
    · left
      rcases List.append_inj' split rfl with ⟨-, same⟩
      exact List.head_eq_of_cons_eq same
    · right
      rw [List.concat_eq_append, ← List.cons_append, ← List.append_assoc] at split
      rcases List.append_inj' split rfl with ⟨rfl, same⟩
      cases same
      rw [List.concat_eq_append] at untouched cleared
      have kept : clear = false := by
        cases clear with
        | false => rfl
        | true => simp at cleared
      refine ⟨untouched write (by simp), kept, before, after, rfl, ?_, ?_⟩
      · intro other member
        exact untouched other (List.mem_append_left _ member)
      · intro clears
        rw [kept] at clears
        cases clears
  · rintro (rfl | ⟨untouched, kept, before, after, rfl, later, -⟩)
    · exact ⟨writes, [], rfl, by simp, fun _ => rfl⟩
    · refine ⟨before, after ++ [write], by simp, ?_, ?_⟩
      · intro other member
        rcases List.mem_append.1 member with earlier | last
        · exact later other earlier
        · rw [List.mem_singleton.1 last]
          exact untouched
      · intro clears
        rw [kept] at clears
        cases clears

theorem foldl_leave (clear : Bool) (writes : List (Nat × Option β)) :
    writes.foldl (leave clear) none = some row ↔ Leaves clear writes row := by
  induction writes using List.reverseRecOn with
  | nil =>
      constructor
      · intro nothing
        cases nothing
      · rintro ⟨before, after, split, -⟩
        cases before with
        | nil => cases split
        | cons first rest => cases split
  | append_singleton writes write ih =>
      rw [List.foldl_append, List.foldl_cons, List.foldl_nil, leaves_concat, ← ih]
      rcases row with ⟨value, stamp⟩
      rcases write with ⟨ts, _ | value'⟩
      · cases clear <;> simp [leave]
      · simp [leave, and_comm]

/-! ### Merging -/

/-- Fold a row into the best rows so far. -/
def keepNewer (best : Table κ β) (entry : κ × Stamped β) : Table κ β :=
  match best[entry.1]? with
  | some existing => if entry.2.ts ≤ existing.ts then best else best.insert entry.1 entry.2
  | none => best.insert entry.1 entry.2

/-- A table folded into the best rows so far. -/
def mergeTable (best table : Table κ β) : Table κ β := table.toList.foldl keepNewer best

def mergeTables (tables : List (Table κ β)) : Table κ β := tables.foldl mergeTable ∅

/-- The row is one of the key's, and none of them is newer. -/
def Newest (rows : List (κ × Stamped β)) (key : κ) (row : Stamped β) : Prop :=
  (key, row) ∈ rows ∧ ∀ other, (key, other) ∈ rows → other.ts ≤ row.ts

/-- The best rows of some. -/
def Best (rows : List (κ × Stamped β)) (best : Table κ β) : Prop :=
  ∀ key, (∀ row, best[key]? = some row → Newest rows key row) ∧
    (best[key]? = none → ∀ row, (key, row) ∉ rows)

omit [LawfulEqOrd κ] in
theorem best_nil : Best [] (∅ : Table κ β) := by
  intro key
  constructor
  · intro row found
    rw [TreeMap.getElem?_emptyc] at found
    cases found
  · intro _ row member
    cases member

variable {entry : κ × Stamped β} {rows : List (κ × Stamped β)} {best : Table κ β}
  {tables : List (Table κ β)} {values : List (Nat × γ)}

omit [Ord κ] [TransOrd κ] [LawfulEqOrd κ] in
theorem Newest.concat (newest : Newest rows key row) (older : entry.1 = key → entry.2.ts ≤ row.ts) :
    Newest (rows ++ [entry]) key row := by
  constructor
  · exact List.mem_append_left _ newest.1
  · intro other member
    rcases List.mem_append.1 member with before | last
    · exact newest.2 other before
    · cases List.mem_singleton.1 last
      exact older rfl

omit [Ord κ] [TransOrd κ] [LawfulEqOrd κ] in
theorem newest_last (newer : ∀ other, (entry.1, other) ∈ rows → other.ts ≤ entry.2.ts) :
    Newest (rows ++ [entry]) entry.1 entry.2 := by
  constructor
  · exact List.mem_append_right _ (List.mem_singleton.2 rfl)
  · intro other member
    rcases List.mem_append.1 member with before | last
    · exact newer other before
    · rw [← List.mem_singleton.1 last]

/-- The last row is taken: it is newer than what there was of its key. -/
theorem Best.take (is_best : Best rows best) (entry : κ × Stamped β)
    (newer : ∀ other, (entry.1, other) ∈ rows → other.ts ≤ entry.2.ts) :
    Best (rows ++ [entry]) (best.insert entry.1 entry.2) := by
  intro key
  by_cases same : entry.1 = key
  · subst same
    rw [TreeMap.getElem?_insert_self]
    constructor
    · rintro row ⟨⟩
      exact newest_last newer
    · rintro ⟨⟩
  · rw [TreeMap.getElem?_insert, if_neg (by rwa [Std.LawfulEqCmp.compare_eq_iff_eq])]
    constructor
    · intro row found
      apply ((is_best key).1 row found).concat
      intro its
      exact absurd its same
    · intro nothing row member
      rcases List.mem_append.1 member with before | last
      · exact (is_best key).2 nothing row before
      · cases List.mem_singleton.1 last
        exact same rfl

theorem Best.keepNewer (is_best : Best rows best) (entry : κ × Stamped β) :
    Best (rows ++ [entry]) (keepNewer best entry) := by
  unfold Recency.keepNewer
  cases found : best[entry.1]? with
  | none =>
      apply is_best.take
      intro other member
      exact absurd member ((is_best entry.1).2 found other)
  | some existing =>
      have newest := (is_best entry.1).1 existing found
      by_cases older : entry.2.ts ≤ existing.ts
      · simp only [if_pos older]
        intro key
        constructor
        · intro row its
          apply ((is_best key).1 row its).concat
          intro same
          subst same
          rw [found] at its
          cases its
          exact older
        · intro nothing row member
          rcases List.mem_append.1 member with before | last
          · exact (is_best key).2 nothing row before
          · cases List.mem_singleton.1 last
            rw [found] at nothing
            cases nothing
      · simp only [if_neg older]
        apply is_best.take
        intro other member
        exact (newest.2 other member).trans (Nat.le_of_lt (Nat.lt_of_not_le older))

theorem Best.foldl (is_best : Best rows best) (entries : List (κ × Stamped β)) :
    Best (rows ++ entries) (entries.foldl Recency.keepNewer best) := by
  induction entries generalizing rows best with
  | nil =>
      rw [List.append_nil]
      exact is_best
  | cons entry rest ih =>
      rw [List.append_cons]
      exact ih (is_best.keepNewer entry)

theorem best_mergeTables (tables : List (Table κ β)) :
    Best (tables.flatMap fun table => table.toList) (mergeTables tables) := by
  induction tables using List.reverseRecOn with
  | nil => exact best_nil
  | append_singleton tables table ih =>
      have unfolded : mergeTables (tables ++ [table]) = mergeTable (mergeTables tables) table := by
        unfold mergeTables
        rw [List.foldl_append]
        rfl
      rw [unfolded, List.flatMap_append, List.flatMap_cons, List.flatMap_nil, List.append_nil]
      exact ih.foldl table.toList

/-- One table holds the row, and none holds a newer one of its key. -/
def NewestIn (tables : List (Table κ β)) (key : κ) (row : Stamped β) : Prop :=
  (∃ table ∈ tables, table[key]? = some row) ∧
    ∀ table ∈ tables, ∀ other, table[key]? = some other → other.ts ≤ row.ts

theorem newest_tables :
    Newest (tables.flatMap fun table => table.toList) key row ↔ NewestIn tables key row := by
  have held : ∀ row, (key, row) ∈ tables.flatMap (fun table => table.toList) ↔
      ∃ table ∈ tables, table[key]? = some row := by
    intro row
    simp only [List.mem_flatMap, TreeMap.mem_toList_iff_getElem?_eq_some]
  unfold Newest NewestIn
  rw [held]
  apply and_congr_right
  intro _
  constructor
  · intro newest table member other its
    exact newest other ((held other).2 ⟨table, member, its⟩)
  · intro newest other its
    rcases (held other).1 its with ⟨table, member, found⟩
    exact newest table member other found

/-- No two tables hold different rows of a key with one stamp. -/
def Untied (tables : List (Table κ β)) : Prop :=
  ∀ one ∈ tables, ∀ two ∈ tables, ∀ (key : κ) (row row' : Stamped β),
    one[key]? = some row → two[key]? = some row' → row.ts = row'.ts → row = row'

/-- A merge holds the newest row of every key. -/
theorem get_mergeTables (untied : Untied tables) :
    (mergeTables tables)[key]? = some row ↔ NewestIn tables key row := by
  have is_best := best_mergeTables tables key
  constructor
  · intro found
    exact newest_tables.1 (is_best.1 row found)
  · intro newest
    cases found : (mergeTables tables)[key]? with
    | none => exact absurd (newest_tables.2 newest).1 (is_best.2 found row)
    | some other =>
        have newest' := newest_tables.1 (is_best.1 other found)
        rcases newest.1 with ⟨one, member, its⟩
        rcases newest'.1 with ⟨two, member', its'⟩
        have same_time : row.ts = other.ts :=
          Nat.le_antisymm (newest'.2 one member row its) (newest.2 two member' other its')
        rw [untied one member two member' key row other its its' same_time]

/-- Neither the order nor the number of times the tables are merged matters. -/
theorem mergeTables_congr {tables' : List (Table κ β)} (untied : Untied tables)
    (same : ∀ table, table ∈ tables ↔ table ∈ tables') :
    (mergeTables tables).toList = (mergeTables tables').toList := by
  have untied' : Untied tables' := by
    intro one member two member'
    exact untied one ((same one).2 member) two ((same two).2 member')
  have equal : ∀ key : κ, (mergeTables tables)[key]? = (mergeTables tables')[key]? := by
    intro key
    apply Option.ext
    intro row
    rw [get_mergeTables untied, get_mergeTables untied']
    unfold NewestIn
    simp only [same]
  exact (TreeMap.Equiv.of_forall_constGet?_eq equal).toList_eq

/-! ### Grouping -/

section

variable {ρ ν α : Type} [Ord ν]

/-- Add an item to its group. -/
def groupInto (name : ρ → ν) (add : α → ρ → α) (empty : α) (groups : TreeMap ν α) (item : ρ) :
    TreeMap ν α :=
  groups.insert (name item) (add (groups[name item]?.getD empty) item)

/-- A group holds what its own items make, in their order. -/
theorem get_foldl_groupInto [TransOrd ν] [LawfulEqOrd ν] [DecidableEq ν] (name : ρ → ν)
    (add : α → ρ → α) (empty : α) (items : List ρ) (groups : TreeMap ν α) (key : ν) :
    (items.foldl (groupInto name add empty) groups)[key]? =
      if items.filter (fun item => decide (name item = key)) = [] then groups[key]?
      else some ((items.filter fun item => decide (name item = key)).foldl add
        (groups[key]?.getD empty)) := by
  induction items generalizing groups with
  | nil => rfl
  | cons item rest ih =>
      rw [List.foldl_cons, ih]
      unfold groupInto
      rw [TreeMap.getElem?_insert]
      simp only [Std.LawfulEqCmp.compare_eq_iff_eq]
      by_cases its : name item = key
      · subst its
        rw [List.filter_cons_of_pos (by simp), if_pos rfl, if_neg (List.cons_ne_nil _ _)]
        split
        · next last => rw [last]; rfl
        · rfl
      · rw [List.filter_cons_of_neg (by simpa using its), if_neg its]

end

/-! ### Sorting by distinct keys -/

section

variable {α ν : Type} [LinearOrder ν] (rank : α → ν)

def sortBy (items : List α) : List α := items.mergeSort fun one two => decide (rank one ≤ rank two)

theorem sortBy_perm (items : List α) : (sortBy rank items).Perm items := List.mergeSort_perm ..

theorem sortBy_pairwise (items : List α) :
    (sortBy rank items).Pairwise fun one two => rank one ≤ rank two := by
  apply (List.pairwise_mergeSort _ _ items).imp
  · intro one two less
    exact of_decide_eq_true less
  · intro one two three less less'
    exact decide_eq_true ((of_decide_eq_true less).trans (of_decide_eq_true less'))
  · intro one two
    rcases le_total (rank one) (rank two) with less | less <;> simp [less]

variable {items : List α}

/-- There is one order of items with distinct keys. -/
theorem sortBy_eq {sorted : List α} (perm : items.Perm sorted)
    (rising : sorted.Pairwise fun one two => rank one < rank two) : sortBy rank items = sorted := by
  have keys : (sorted.map rank).Nodup := by
    apply List.pairwise_map.2
    exact rising.imp ne_of_lt
  have listed := (sortBy_perm rank items).trans perm
  apply List.Perm.eq_of_pairwise _ (sortBy_pairwise rank items) (rising.imp le_of_lt) listed
  intro one two member member' less less'
  exact List.inj_on_of_nodup_map keys (listed.mem_iff.1 member) member' (le_antisymm less less')

theorem sortBy_rising (keys : (items.map rank).Nodup) :
    (sortBy rank items).Pairwise fun one two => rank one < rank two := by
  have keys' : ((sortBy rank items).map rank).Nodup :=
    ((sortBy_perm rank items).map rank).nodup_iff.2 keys
  apply (sortBy_pairwise rank items).imp₂ _ (List.pairwise_map.1 keys')
  intro one two less distinct
  exact lt_of_le_of_ne less distinct

theorem sortBy_congr {items' : List α} (perm : items.Perm items') (keys : (items.map rank).Nodup) :
    sortBy rank items = sortBy rank items' := by
  apply sortBy_eq rank (perm.trans (sortBy_perm rank items').symm)
  exact sortBy_rising rank ((perm.map rank).nodup_iff.1 keys)

end

/-! ### The newest table's value -/

/-- The newer of two values, the first if neither is. -/
def newer (best value : Nat × γ) : Nat × γ := if best.1 < value.1 then value else best

/-- The value behind the greatest time, if that is positive. -/
def newestValue (first : γ) (values : List (Nat × γ)) : Nat × γ := values.foldl newer (0, first)

theorem newestValue_cases (first : γ) (values : List (Nat × γ)) :
    (newestValue first values = (0, first) ∨
        newestValue first values ∈ values ∧ 0 < (newestValue first values).1) ∧
      ∀ value ∈ values, value.1 ≤ (newestValue first values).1 := by
  induction values using List.reverseRecOn with
  | nil =>
      constructor
      · left
        rfl
      · intro value member
        cases member
  | append_singleton values last ih =>
      have unfolded : newestValue first (values ++ [last]) =
          if (newestValue first values).1 < last.1 then last else newestValue first values := by
        unfold newestValue
        rw [List.foldl_append]
        rfl
      rcases ih with ⟨known, greatest⟩
      rw [unfolded]
      split
      · next newer =>
          constructor
          · right
            exact ⟨List.mem_append_right _ (List.mem_singleton.2 rfl), Nat.zero_lt_of_lt newer⟩
          · intro value member
            rcases List.mem_append.1 member with before | its
            · exact (greatest value before).trans (Nat.le_of_lt newer)
            · rw [List.mem_singleton.1 its]
      · next older =>
          constructor
          · rcases known with none | ⟨member, positive⟩
            · left
              exact none
            · right
              exact ⟨List.mem_append_left _ member, positive⟩
          · intro value member
            rcases List.mem_append.1 member with before | its
            · exact greatest value before
            · rw [List.mem_singleton.1 its]
              exact Nat.le_of_not_lt older

/-- What is read off the newest of some values is the newest of what is read off them. -/
theorem newestValue_map {δ : Type} (f : γ → δ) (first : γ) (values : List (Nat × γ)) :
    newestValue (f first) (values.map fun value => (value.1, f value.2)) =
      ((newestValue first values).1, f (newestValue first values).2) := by
  unfold newestValue
  rw [List.foldl_map]
  have folded : ∀ best : Nat × γ,
      values.foldl (fun best value => newer best (value.1, f value.2)) (best.1, f best.2) =
        ((values.foldl newer best).1, f (values.foldl newer best).2) := by
    induction values with
    | nil =>
        intro best
        rfl
    | cons value rest ih =>
        intro best
        have turn : newer (best.1, f best.2) (value.1, f value.2) =
            ((newer best value).1, f (newer best value).2) := by
          unfold newer
          split <;> rfl
        rw [List.foldl_cons, List.foldl_cons, turn, ih]
  exact folded (0, first)

/-- No two values of one time. -/
def DistinctTimes (values : List (Nat × γ)) : Prop :=
  ∀ one ∈ values, ∀ two ∈ values, one.1 = two.1 → one = two

/-- The value with the greatest time is the newest, when that is positive. -/
theorem newestValue_eq {first : γ} {value : Nat × γ} (distinct : DistinctTimes values)
    (member : value ∈ values) (positive : 0 < value.1)
    (greatest : ∀ other ∈ values, other.1 ≤ value.1) : newestValue first values = value := by
  rcases newestValue_cases first values with ⟨none | ⟨its, -⟩, above⟩
  · have reaches := above value member
    rw [none] at reaches
    exact absurd reaches (Nat.not_le.2 positive)
  · exact distinct _ its value member (Nat.le_antisymm (greatest _ its) (above value member))

/-- Neither the order nor the number of the values matters. -/
theorem newestValue_congr {first : γ} {values' : List (Nat × γ)} (distinct : DistinctTimes values)
    (same : ∀ value, value ∈ values ↔ value ∈ values') :
    newestValue first values = newestValue first values' := by
  rcases newestValue_cases first values with ⟨none | ⟨member, positive⟩, above⟩
  · rcases newestValue_cases first values' with ⟨none' | ⟨member', positive'⟩, above'⟩
    · rw [none, none']
    · have reaches := above _ ((same _).2 member')
      rw [none] at reaches
      exact absurd reaches (Nat.not_le.2 positive')
  · apply Eq.symm
    apply newestValue_eq _ ((same _).1 member) positive
    · intro other its
      exact above other ((same other).2 its)
    · intro one its two its'
      exact distinct one ((same one).2 its) two ((same two).2 its')

/-! ### Histories -/

section

variable [Ord τ] [TransOrd τ] [LawfulEqOrd τ]

/-- Record a text under a sequence key, keeping its greatest. -/
def observe (byText : TreeMap τ Nat) (entry : Nat × τ) : TreeMap τ Nat :=
  byText.insert entry.2 (max (byText[entry.2]?.getD entry.1) entry.1)

def observeAll (entries : List (Nat × τ)) : TreeMap τ Nat := entries.foldl observe ∅

/-- The texts in the order of their keys, the newest `cap` of them. -/
def ring (cap : Nat) (byText : List (τ × Nat)) : List τ :=
  let sorted := sortBy Prod.fst (byText.map Prod.swap)
  (sorted.drop (sorted.length - cap)).map Prod.snd

/-- The greatest key of a text. -/
def Latest (entries : List (Nat × τ)) (text : τ) (key : Nat) : Prop :=
  (key, text) ∈ entries ∧ ∀ other, (other, text) ∈ entries → other ≤ key

/-- An observed text, as a row that its key stamps. -/
def asRow (entry : Nat × τ) : τ × Stamped Unit := (entry.2, ⟨(), entry.1⟩)

theorem get_observe {byText : TreeMap τ Nat} {best : Table τ Unit}
    (same : ∀ text : τ, byText[text]? = best[text]?.map fun row => row.ts) (entry : Nat × τ)
    (text : τ) :
    (observe byText entry)[text]? = (keepNewer best (asRow entry))[text]?.map fun row => row.ts := by
  unfold observe keepNewer asRow
  rw [same]
  by_cases its : entry.2 = text
  · subst its
    rw [TreeMap.getElem?_insert_self]
    cases found : best[entry.2]? with
    | none =>
        simp only [TreeMap.getElem?_insert_self]
        simp
    | some existing =>
        by_cases older : entry.1 ≤ existing.ts
        · simp only [if_pos older]
          simp [found, older]
        · simp only [if_neg older]
          simp only [TreeMap.getElem?_insert_self]
          simp [Nat.le_of_not_le older]
  · have other : compare entry.2 text ≠ .eq := by
      rwa [ne_eq, Std.LawfulEqCmp.compare_eq_iff_eq]
    rw [TreeMap.getElem?_insert, if_neg other, same]
    split
    · split
      · rfl
      · rw [TreeMap.getElem?_insert, if_neg other]
    · rw [TreeMap.getElem?_insert, if_neg other]

theorem get_foldl_observe (entries : List (Nat × τ)) (byText : TreeMap τ Nat)
    (best : Table τ Unit) (same : ∀ text : τ, byText[text]? = best[text]?.map fun row => row.ts)
    (text : τ) :
    (entries.foldl observe byText)[text]? =
      ((entries.map asRow).foldl keepNewer best)[text]?.map fun row => row.ts := by
  induction entries generalizing byText best with
  | nil => exact same text
  | cons entry rest ih => exact ih _ _ (get_observe same entry)

theorem get_observeAll {entries : List (Nat × τ)} {text : τ} {key : Nat} :
    (observeAll entries)[text]? = some key ↔ Latest entries text key := by
  have held : ∀ other, (text, (⟨(), other⟩ : Stamped Unit)) ∈ entries.map asRow ↔
      (other, text) ∈ entries := by
    intro other
    unfold asRow
    simp
  have is_best := best_nil.foldl (entries.map asRow) text
  rw [List.nil_append] at is_best
  have same := get_foldl_observe entries ∅ ∅ (by simp) text
  unfold observeAll
  rw [same]
  constructor
  · intro found
    rcases Option.map_eq_some_iff.1 found with ⟨row, its, rfl⟩
    have newest := is_best.1 row its
    exact ⟨(held _).1 newest.1, fun other member => newest.2 ⟨(), other⟩ ((held other).2 member)⟩
  · rintro ⟨member, greatest⟩
    cases found : ((entries.map asRow).foldl keepNewer (∅ : Table τ Unit))[text]? with
    | none => exact absurd ((held key).2 member) (is_best.2 found _)
    | some row =>
        have newest := is_best.1 row found
        rw [Option.map_some, Option.some_inj]
        exact Nat.le_antisymm (greatest row.ts ((held row.ts).1 newest.1))
          (newest.2 _ ((held key).2 member))

end

/-! ### A history in the order of its keys -/

section

variable [DecidableEq τ]

/-- The rows whose text does not come again. -/
def lastRows : List (Nat × τ) → List (Nat × τ)
  | [] => []
  | row :: rest => if row.2 ∈ rest.map Prod.snd then lastRows rest else row :: lastRows rest

theorem lastRows_sublist (rows : List (Nat × τ)) : List.Sublist (lastRows rows) rows := by
  induction rows with
  | nil => exact List.Sublist.slnil
  | cons row rest ih =>
      unfold lastRows
      split
      · exact ih.cons row
      · exact ih.cons_cons row

theorem lastRows_texts (rows : List (Nat × τ)) :
    (lastRows rows).map Prod.snd = (rows.map Prod.snd).dedup := by
  induction rows with
  | nil => rfl
  | cons row rest ih =>
      rw [lastRows, List.map_cons]
      split
      · next again => rw [List.dedup_cons_of_mem again, ih]
      · next new => rw [List.dedup_cons_of_notMem new, List.map_cons, ih]

variable {rows : List (Nat × τ)}

/-- Keys in order: the last row of a text has its greatest key. -/
theorem mem_lastRows (ordered : rows.Pairwise fun one two => one.1 < two.1) {key : Nat} {text : τ} :
    (key, text) ∈ lastRows rows ↔ Latest rows text key := by
  induction rows with
  | nil =>
      constructor
      · intro member
        cases member
      · rintro ⟨member, -⟩
        cases member
  | cons row rest ih =>
      rcases List.pairwise_cons.1 ordered with ⟨before, later⟩
      unfold lastRows
      by_cases again : row.2 ∈ rest.map Prod.snd
      · -- The row is not the last of its text, and a later one has a greater key.
        rw [if_pos again, ih later]
        rcases List.mem_map.1 again with ⟨⟨key', text'⟩, member', same⟩
        constructor
        · intro latest
          refine ⟨List.mem_cons_of_mem row latest.1, ?_⟩
          intro other member
          rcases List.mem_cons.1 member with rfl | after
          · exact (Nat.le_of_lt (before _ latest.1))
          · exact latest.2 other after
        · intro latest
          refine ⟨?_, fun other member => latest.2 other (List.mem_cons_of_mem row member)⟩
          rcases List.mem_cons.1 latest.1 with rfl | after
          · cases same
            have greater := before _ member'
            have bound := latest.2 key' (List.mem_cons_of_mem _ member')
            exact absurd greater (Nat.not_lt.2 bound)
          · exact after
      · rw [if_neg again, List.mem_cons, ih later]
        constructor
        · rintro (rfl | latest)
          · refine ⟨List.mem_cons_self .., ?_⟩
            intro other member
            rcases List.mem_cons.1 member with same | after
            · cases same
              exact Nat.le_refl _
            · exact absurd (List.mem_map.2 ⟨_, after, rfl⟩) again
          · refine ⟨List.mem_cons_of_mem row latest.1, ?_⟩
            intro other member
            rcases List.mem_cons.1 member with rfl | after
            · exact (Nat.le_of_lt (before _ latest.1))
            · exact latest.2 other after
        · intro latest
          rcases List.mem_cons.1 latest.1 with same | after
          · left
            exact same
          · right
            exact ⟨after, fun other member => latest.2 other (List.mem_cons_of_mem row member)⟩

/-- **A union of histories.**  When the keys of the rows run in order, whatever the order and number
in which they are observed and the order in which the texts are iterated, the ring is the newest
`cap` of the texts, each where it came last. -/
theorem ring_eq [Ord τ] [TransOrd τ] [LawfulEqOrd τ] (cap : Nat) {entries : List (Nat × τ)}
    {byText : List (τ × Nat)} (ordered : rows.Pairwise fun one two => one.1 < two.1)
    (same : ∀ entry, entry ∈ entries ↔ entry ∈ rows)
    (shuffled : byText.Perm (observeAll entries).toList) :
    ring cap byText = ((rows.map Prod.snd).dedup).drop ((rows.map Prod.snd).dedup.length - cap) := by
  have rows_last : List.Sublist (lastRows rows) rows := lastRows_sublist rows
  have latest_same : ∀ text key, Latest entries text key ↔ Latest rows text key := by
    intro text key
    unfold Latest
    simp only [same]
  have rising : (lastRows rows).Pairwise fun one two => one.1 < two.1 := ordered.sublist rows_last
  have once : (lastRows rows).Nodup := rising.imp fun less same => by
    rw [same] at less
    exact Nat.lt_irrefl _ less
  have listed : ((observeAll entries).toList.map Prod.swap).Perm (lastRows rows) := by
    rw [List.perm_ext_iff_of_nodup _ once]
    · rintro ⟨key, text⟩
      rw [mem_lastRows ordered, ← latest_same, ← get_observeAll,
        ← TreeMap.mem_toList_iff_getElem?_eq_some]
      constructor
      · intro member
        rcases List.mem_map.1 member with ⟨⟨text', key'⟩, its, ⟨⟩⟩
        exact its
      · intro its
        exact List.mem_map.2 ⟨(text, key), its, rfl⟩
    · exact List.Nodup.map Prod.swap_injective (.of_map _ (rising_toList _).keys)
  have sorted_eq : sortBy Prod.fst (byText.map Prod.swap) = lastRows rows :=
    sortBy_eq Prod.fst ((shuffled.map Prod.swap).trans listed) rising
  unfold ring
  simp only [sorted_eq]
  rw [List.map_drop, lastRows_texts, ← lastRows_texts, List.length_map]

end

end Bemtvi.Recency
