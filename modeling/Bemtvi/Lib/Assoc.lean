/-
Module: Bemtvi.Lib.Assoc
Purpose: Finite maps as entries with distinct keys, in an order that nothing depends on.
Trusted boundary: human-reviewed spec
Main exports: Assoc, get?, insert, erase, retain, mapVal, mem_entries, get?_insert, get?_erase,
  get?_retain, get?_mapVal, entries_perm
-/
import Mathlib

namespace Bemtvi

structure Assoc (K V : Type) where
  entries : List (K × V)
  distinct : (entries.map Prod.fst).Nodup

namespace Assoc

variable {K V : Type} [DecidableEq K]

def empty : Assoc K V := ⟨[], List.nodup_nil⟩

def get? (map : Assoc K V) (key : K) : Option V :=
  (map.entries.find? fun entry => entry.1 = key).map Prod.snd

/-- Keep the entries that pass a test. -/
def retain (map : Assoc K V) (keep : K → V → Bool) : Assoc K V where
  entries := map.entries.filter fun entry => keep entry.1 entry.2
  distinct := map.distinct.sublist (List.Sublist.map Prod.fst List.filter_sublist)

def erase (map : Assoc K V) (key : K) : Assoc K V := map.retain fun other _ => other ≠ key

theorem not_mem_erase (map : Assoc K V) (key : K) :
    key ∉ (map.erase key).entries.map Prod.fst := by
  intro member
  obtain ⟨entry, here, same⟩ := List.mem_map.1 member
  have other := (List.mem_filter.1 here).2
  simp [same] at other

/-- Put a value under a key, in place of what was there. -/
def insert (map : Assoc K V) (key : K) (value : V) : Assoc K V where
  entries := (key, value) :: (map.erase key).entries
  distinct := List.nodup_cons.2 ⟨not_mem_erase map key, (map.erase key).distinct⟩

/-- Change each value by its key. -/
def mapVal (map : Assoc K V) (f : K → V → V) : Assoc K V where
  entries := map.entries.map fun entry => (entry.1, f entry.1 entry.2)
  distinct := by
    rw [List.map_map]
    exact map.distinct

def values (map : Assoc K V) : List V := map.entries.map Prod.snd

/-! ### Lookups -/

variable {key : K} {map : Assoc K V} {value : V}

/-- An entry is what its key gives. -/
theorem mem_entries : (key, value) ∈ map.entries ↔ map.get? key = some value := by
  obtain ⟨entries, distinct⟩ := map
  simp only [get?]
  induction entries with
  | nil => simp
  | cons entry entries ih =>
      obtain ⟨fresh, others⟩ := List.nodup_cons.1 distinct
      obtain ⟨other, value'⟩ := entry
      by_cases same : other = key
      · subst same
        rw [List.find?_cons_of_pos (by simp)]
        constructor
        · intro member
          rcases List.mem_cons.1 member with same | later
          · cases same
            rfl
          · exact absurd (List.mem_map_of_mem later) fresh
        · intro found
          cases found
          exact List.mem_cons_self
      · rw [List.find?_cons_of_neg (by simpa using same), ← ih others]
        constructor
        · intro member
          rcases List.mem_cons.1 member with here | later
          · cases here
            exact absurd rfl same
          · exact later
        · exact List.mem_cons_of_mem _

theorem get?_retain (map : Assoc K V) (keep : K → V → Bool) (key : K) :
    (map.retain keep).get? key = (map.get? key).filter (keep key) := by
  apply Option.ext
  intro value
  rw [← mem_entries, retain, List.mem_filter, mem_entries, Option.filter_eq_some_iff]

theorem get?_erase (map : Assoc K V) (key other : K) :
    (map.erase key).get? other = if other = key then none else map.get? other := by
  rw [erase, get?_retain]
  split <;> rename_i same <;> cases map.get? other <;> simp [same]

theorem get?_insert (map : Assoc K V) (key other : K) (value : V) :
    (map.insert key value).get? other = if other = key then some value else map.get? other := by
  by_cases same : other = key
  · rw [if_pos same, ← mem_entries, same]
    exact List.mem_cons_self
  · rw [if_neg same]
    have later := get?_erase map key other
    rw [if_neg same] at later
    rw [← later, get?, get?, insert, List.find?_cons_of_neg (by simpa using Ne.symm same)]

theorem get?_insert_eq_some {other : K} {value' : V} :
    (map.insert key value).get? other = some value' ↔
      (other = key ∧ value' = value) ∨ (other ≠ key ∧ map.get? other = some value') := by
  rw [get?_insert]
  by_cases same : other = key
  · simp [same, eq_comm]
  · simp [same]

theorem get?_mapVal (map : Assoc K V) (f : K → V → V) (key : K) :
    (map.mapVal f).get? key = (map.get? key).map (f key) := by
  apply Option.ext
  intro value
  rw [← mem_entries, mapVal, List.mem_map, Option.map_eq_some_iff]
  constructor
  · rintro ⟨⟨other, old⟩, member, same⟩
    cases same
    exact ⟨old, mem_entries.1 member, rfl⟩
  · rintro ⟨old, found, rfl⟩
    exact ⟨(key, old), mem_entries.2 found, rfl⟩

/-! ### The entries around a key -/

omit [DecidableEq K] in
theorem nodup_entries (map : Assoc K V) : map.entries.Nodup := List.Nodup.of_map _ map.distinct

/-- An entry stands at some place among the others. -/
theorem entries_perm (here : map.get? key = some value) :
    map.entries.Perm ((key, value) :: (map.erase key).entries) := by
  refine (List.perm_ext_iff_of_nodup map.nodup_entries (map.insert key value).nodup_entries).2 ?_
  rintro ⟨other, value'⟩
  rw [mem_entries, mem_entries, get?_insert_eq_some]
  by_cases same : other = key
  · subst same
    rw [here]
    simp [eq_comm]
  · simp [same]

theorem erase_of_none (absent : map.get? key = none) : (map.erase key).entries = map.entries := by
  refine List.filter_eq_self.2 ?_
  rintro ⟨other, value⟩ member
  have other_key : other ≠ key := by
    rintro rfl
    rw [mem_entries, absent] at member
    cases member
  simpa using other_key

end Assoc

end Bemtvi
