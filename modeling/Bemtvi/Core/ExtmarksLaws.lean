/-
Module: Bemtvi.Core.ExtmarksLaws
Purpose: The position index agrees with the marks: the order of its entries, an edit that sorts one
  window again, what each operation keeps, and both range queries against a filter and a sort of all
  the marks, for every store that calls reach.
Trusted boundary: none
Main exports: Positions.shift_entries, ExtmarkStore.Sound, Stores.step_sound, Stores.reached_sound,
  Stores.queries_exact
-/
import Bemtvi.Core.Extmarks

namespace Bemtvi.Core.Extmarks

open Sorted (partitionPoint)

variable {P : Type}

/-! ### The order of the entries -/

instance : Std.Total PosEntry.keyLe where
  total a b := by
    simp only [PosEntry.keyLe]
    omega

instance : IsTrans PosEntry PosEntry.keyLe where
  trans a b c first second := by
    simp only [PosEntry.keyLe] at first second ⊢
    omega

variable {a b : PosEntry} {oldEnd start newEnd ns : Nat} {m : Extmark P}

theorem keyLe_start (ordered : a.keyLe b) : a.start ≤ b.start := by
  rcases ordered with before | ⟨same, -⟩
  · exact before.le
  · exact same.le

theorem keyLe_place (first : a.keyLe b) (second : b.keyLe a) : a.ns = b.ns ∧ a.id = b.id := by
  simp only [PosEntry.keyLe] at first second
  omega

theorem lower_start_lt (bound : Nat) :
    Sorted.Lower PosEntry.keyLe fun e => decide (e.start < bound) := by
  intro a b ordered below
  rw [decide_eq_true_eq] at below ⊢
  exact Nat.lt_of_le_of_lt (keyLe_start ordered) below

theorem lower_start_le (bound : Nat) :
    Sorted.Lower PosEntry.keyLe fun e => decide (e.start ≤ bound) := by
  intro a b ordered below
  rw [decide_eq_true_eq] at below ⊢
  exact Nat.le_trans (keyLe_start ordered) below

/-- No two entries of a list name the same mark. -/
def Placed (entries : List PosEntry) : Prop :=
  ∀ a ∈ entries, ∀ b ∈ entries, a.ns = b.ns → a.id = b.id → a = b

theorem Placed.distinct {entries : List PosEntry} (placed : Placed entries) :
    Sorted.Distinct PosEntry.keyLe entries := by
  intro a left b right first second
  obtain ⟨ns, id⟩ := keyLe_place first second
  exact placed a left b right ns id

theorem sortByKey_pairwise (entries : List PosEntry) :
    (sortByKey entries).Pairwise PosEntry.keyLe :=
  List.pairwise_insertionSort _ entries

theorem sortByKey_perm (entries : List PosEntry) : (sortByKey entries).Perm entries :=
  List.perm_insertionSort _ entries

/-! ### An edit -/

/-- Where an edit leaves an anchor: in place before it, on one of its two ends, or moved along
behind it. -/
theorem shiftAnchor_cases (forward : start ≤ oldEnd) (newEnd : Nat) (right : Bool) (p : Nat) :
    (p < start ∧ shiftAnchor right p start oldEnd newEnd = p) ∨
    (start ≤ p ∧ p ≤ oldEnd ∧ (shiftAnchor right p start oldEnd newEnd = start ∨
      shiftAnchor right p start oldEnd newEnd = newEnd)) ∨
    (start < p ∧ oldEnd ≤ p ∧ shiftAnchor right p start oldEnd newEnd = p + newEnd - oldEnd) := by
  cases right
  · simp only [shiftAnchor, shiftLeftGravity, Bool.false_eq_true, if_false]
    split_ifs <;> omega
  · simp only [shiftAnchor, shiftRightGravity, if_true]
    split_ifs <;> omega

theorem shift_start (start oldEnd newEnd : Nat) (e : PosEntry) :
    (e.shift start oldEnd newEnd).start =
      shiftAnchor e.rightGravity e.start start oldEnd newEnd := rfl

/-- Entries in order stay so, but for those that share the edited region. -/
theorem keyLe_shift (forward : start ≤ oldEnd) (forward' : start ≤ newEnd) (ordered : a.keyLe b) :
    (a.shift start oldEnd newEnd).keyLe (b.shift start oldEnd newEnd) ∨
      (start ≤ (a.shift start oldEnd newEnd).start ∧
        (a.shift start oldEnd newEnd).start ≤ newEnd ∧
        start ≤ (b.shift start oldEnd newEnd).start ∧
        (b.shift start oldEnd newEnd).start ≤ newEnd) := by
  have first := shiftAnchor_cases forward newEnd a.rightGravity a.start
  have second := shiftAnchor_cases forward newEnd b.rightGravity b.start
  have names : (a.shift start oldEnd newEnd).ns = a.ns ∧ (a.shift start oldEnd newEnd).id = a.id ∧
      (b.shift start oldEnd newEnd).ns = b.ns ∧ (b.shift start oldEnd newEnd).id = b.id :=
    ⟨rfl, rfl, rfl, rfl⟩
  rw [← shift_start] at first second
  simp only [PosEntry.keyLe] at ordered ⊢
  omega

theorem near_shift (forward : start ≤ oldEnd) (forward' : start ≤ newEnd)
    {entries : List PosEntry} (sorted : entries.Pairwise PosEntry.keyLe) :
    Sorted.Near PosEntry.keyLe (fun e => decide (e.start < start))
      (fun e => decide (e.start ≤ newEnd)) (entries.map (PosEntry.shift start oldEnd newEnd)) := by
  rw [Sorted.Near, List.pairwise_map]
  refine sorted.imp ?_
  intro a b ordered
  rcases keyLe_shift forward forward' ordered with kept | ⟨a_from, a_to, b_from, b_to⟩
  · exact Or.inl kept
  · right
    simp [a_from, a_to, b_from, b_to]

theorem Placed.shift {entries : List PosEntry} (placed : Placed entries)
    (start oldEnd newEnd : Nat) :
    Placed (entries.map (PosEntry.shift start oldEnd newEnd)) := by
  intro a left b right ns id
  obtain ⟨a', here, rfl⟩ := List.mem_map.1 left
  obtain ⟨b', there, rfl⟩ := List.mem_map.1 right
  rw [placed a' here b' there ns id]

/-- **Sorting the edited window again sorts all the entries.** -/
theorem Positions.shift_entries (forward : start ≤ oldEnd) (forward' : start ≤ newEnd)
    {positions : Positions} {entries : List PosEntry} (placed : Placed entries)
    (current : positions.entries = sortByKey entries) :
    (positions.shift start oldEnd newEnd).entries =
      sortByKey (entries.map (PosEntry.shift start oldEnd newEnd)) := by
  have within : ∀ e : PosEntry, decide (e.start < start) = true →
      decide (e.start ≤ newEnd) = true := by
    intro e below
    rw [decide_eq_true_eq] at below ⊢
    omega
  have sorted : positions.entries.Pairwise PosEntry.keyLe := by
    rw [current]
    exact sortByKey_pairwise entries
  have near : Sorted.Near PosEntry.keyLe (fun e => decide (e.start < start))
      (fun e => decide (e.start ≤ newEnd))
      (positions.entries.map (PosEntry.shift start oldEnd newEnd)) :=
    near_shift forward forward' sorted
  have window : (positions.shift start oldEnd newEnd).entries =
      Sorted.resorted PosEntry.keyLe (fun e => decide (e.start < start))
        (fun e => decide (e.start ≤ newEnd))
        (positions.entries.map (PosEntry.shift start oldEnd newEnd)) :=
    Sorted.resorted_eq within (near.parted_lower (lower_start_lt start))
      (near.parted_upper (lower_start_le newEnd)) rfl rfl
  rw [window]
  apply Sorted.eq_insertionSort (placed.shift start oldEnd newEnd).distinct
  · exact Sorted.resort_pairwise within near (lower_start_lt start) (lower_start_le newEnd)
  · apply (Sorted.resort_perm within).trans
    rw [current]
    exact (sortByKey_perm entries).map _

/-! ### The marks and their entries -/

/-- The index entry of a mark. -/
def entryOf (mark : Nat × Extmark P) : PosEntry := mark.2.entry mark.1

theorem entry_shift (start oldEnd newEnd ns : Nat) (m : Extmark P) :
    (m.shift start oldEnd newEnd).entry ns = (m.entry ns).shift start oldEnd newEnd := by
  obtain ⟨id, first, stop, payload, right, endRight, serial⟩ := m
  cases stop <;> rfl

theorem keyLe_entryOf (a b : Nat × Extmark P) :
    ExtmarkStore.markLe a b ↔ (entryOf a).keyLe (entryOf b) := Iff.rfl

/-- A slot keeps each mark under its own id, and its run lists the marks there are. -/
structure NsMarks.Sound (ns : Nat) (slot : NsMarks P) : Prop where
  own : ∀ id m, slot.marks.get? id = some m → m.id = id
  current : ∀ ix, slot.index = some ix →
    ix.entries = sortByKey (slot.marks.values.map (Extmark.entry ns))

theorem NsMarks.sound_default (ns : Nat) : (NsMarks.default : NsMarks P).Sound ns := by
  constructor
  · intro id m found
    cases found
  · intro ix built
    cases built

/-- A slot whose run was dropped. -/
theorem NsMarks.sound_of_none {slot : NsMarks P} (dropped : slot.index = none)
    (own : ∀ id m, slot.marks.get? id = some m → m.id = id) : slot.Sound ns := by
  constructor
  · exact own
  · intro ix built
    rw [dropped] at built
    cases built

/-- The run of a slot, built or kept. -/
theorem NsMarks.Sound.run_eq {slot : NsMarks P} (sound : slot.Sound ns) :
    slot.run ns = sortByKey (slot.marks.values.map (Extmark.entry ns)) := by
  rw [NsMarks.run]
  cases built : slot.index with
  | none => rfl
  | some ix => exact sound.current ix built

theorem mem_values {marks : Assoc Nat (Extmark P)} :
    m ∈ marks.values ↔ ∃ id, marks.get? id = some m := by
  rw [Assoc.values, List.mem_map]
  constructor
  · rintro ⟨⟨id, m'⟩, member, rfl⟩
    exact ⟨id, Assoc.mem_entries.1 member⟩
  · rintro ⟨id, found⟩
    exact ⟨(id, m), Assoc.mem_entries.2 found, rfl⟩

theorem NsMarks.Sound.mem_values {slot : NsMarks P} (sound : slot.Sound ns) :
    m ∈ slot.marks.values ↔ slot.marks.get? m.id = some m := by
  rw [Extmarks.mem_values]
  constructor
  · rintro ⟨id, found⟩
    rw [sound.own id m found]
    exact found
  · intro found
    exact ⟨m.id, found⟩

theorem NsMarks.Sound.placed {slot : NsMarks P} (sound : slot.Sound ns) :
    Placed (slot.marks.values.map (Extmark.entry ns)) := by
  intro a left b right _ id
  obtain ⟨m, here, rfl⟩ := List.mem_map.1 left
  obtain ⟨m', there, rfl⟩ := List.mem_map.1 right
  have same : m.id = m'.id := id
  have found := sound.mem_values.1 here
  rw [same, sound.mem_values.1 there] at found
  cases found
  rfl

theorem values_mapVal (marks : Assoc Nat (Extmark P)) (f : Nat → Extmark P → Extmark P)
    (g : Extmark P → Extmark P) (same : ∀ id m, f id m = g m) :
    (marks.mapVal f).values = marks.values.map g := by
  rw [Assoc.values, Assoc.mapVal, Assoc.values, List.map_map, List.map_map]
  apply List.map_congr_left
  intro entry _
  exact same entry.1 entry.2

/-- An edit moves a slot's marks and its run alike. -/
theorem NsMarks.Sound.shift {slot : NsMarks P} (sound : slot.Sound ns) (forward : start ≤ oldEnd)
    (forward' : start ≤ newEnd) : NsMarks.Sound ns { slot with
      marks := slot.marks.mapVal fun _ m => m.shift start oldEnd newEnd
      index := slot.index.map (Positions.shift start oldEnd newEnd) } := by
  constructor
  · intro id m found
    rw [Assoc.get?_mapVal, Option.map_eq_some_iff] at found
    obtain ⟨m', found, rfl⟩ := found
    exact sound.own id m' found
  · intro ix built
    obtain ⟨ix', before, rfl⟩ := Option.map_eq_some_iff.1 built
    rw [Positions.shift_entries forward forward' sound.placed (sound.current ix' before),
      values_mapVal slot.marks _ (Extmark.shift start oldEnd newEnd) fun _ _ => rfl, List.map_map,
      List.map_map]
    congr 1
    apply List.map_congr_left
    intro m _
    exact (entry_shift start oldEnd newEnd ns m).symm

namespace ExtmarkStore

/-! ### The index of a store -/

/-- **The invariant.**  The slots are sound, and the index, where it is built, lists all the marks
in order, with the tree of their ends. -/
structure Sound (store : ExtmarkStore P) : Prop where
  slots : ∀ ns slot, store.byNs.get? ns = some slot → slot.Sound ns
  current : ∀ ix, store.index = some ix → ix.entries = sortByKey (store.allMarks.map entryOf)
  tree : ∀ ix tree, store.index = some ix → ix.tree = some tree →
    tree = MaxTree.build (ix.entries.map PosEntry.stop)

variable {store : ExtmarkStore P} {m : Extmark P} {ns id start id' ns' stamps : Nat}
  {ix : Positions} {skip : List Nat}

theorem sound_of_none (dropped : store.index = none)
    (slots : ∀ ns slot, store.byNs.get? ns = some slot → slot.Sound ns) : store.Sound := by
  constructor
  · exact slots
  · intro ix built
    rw [dropped] at built
    cases built
  · intro ix tree built
    rw [dropped] at built
    cases built

theorem sound_default : (default : ExtmarkStore P).Sound :=
  sound_of_none rfl fun _ _ found => nomatch found

theorem mem_allMarks_slot :
    (ns, m) ∈ store.allMarks ↔ ∃ slot, store.byNs.get? ns = some slot ∧ m ∈ slot.marks.values := by
  rw [allMarks, List.mem_flatMap]
  constructor
  · rintro ⟨⟨ns', slot⟩, member, here⟩
    obtain ⟨m', held, same⟩ := List.mem_map.1 here
    cases same
    exact ⟨slot, Assoc.mem_entries.1 member, held⟩
  · rintro ⟨slot, found, held⟩
    exact ⟨(ns, slot), Assoc.mem_entries.2 found, List.mem_map_of_mem held⟩

/-- All the marks are those that their names give. -/
theorem Sound.mem_allMarks (sound : store.Sound) :
    (ns, m) ∈ store.allMarks ↔ store.get ns m.id = some m := by
  rw [mem_allMarks_slot, get, Option.bind_eq_some_iff]
  apply exists_congr
  intro slot
  constructor
  · rintro ⟨found, held⟩
    exact ⟨found, (sound.slots ns slot found).mem_values.1 held⟩
  · rintro ⟨found, named⟩
    exact ⟨found, (sound.slots ns slot found).mem_values.2 named⟩

theorem Sound.placed (sound : store.Sound) : Placed (store.allMarks.map entryOf) := by
  intro a left b right ns id
  obtain ⟨⟨n, m⟩, here, rfl⟩ := List.mem_map.1 left
  obtain ⟨⟨n', m'⟩, there, rfl⟩ := List.mem_map.1 right
  have same_ns : n = n' := ns
  have same_id : m.id = m'.id := id
  have found := sound.mem_allMarks.1 here
  rw [same_ns, same_id, sound.mem_allMarks.1 there] at found
  cases found
  rw [same_ns]

/-- The marks of a store whose slots were changed one by one. -/
theorem allMarks_mapVal {index : Option Positions} (f : Nat → NsMarks P → NsMarks P)
    (g : Extmark P → Extmark P)
    (same : ∀ ns slot, (f ns slot).marks.values = slot.marks.values.map g) :
    ({ store with byNs := store.byNs.mapVal f, index := index } : ExtmarkStore P).allMarks =
      store.allMarks.map fun mark => (mark.1, g mark.2) := by
  simp only [allMarks, Assoc.mapVal, List.flatMap_map, List.map_flatMap, List.map_map, same]
  rfl

/-- The runs of the namespaces hold the entries of all the marks. -/
theorem runs_perm {entries : List (Nat × NsMarks P)}
    (sound : ∀ entry ∈ entries, entry.2.Sound entry.1) :
    ((entries.filterMap fun (ns, slot) =>
        if slot.marks.entries.isEmpty then none else some (slot.run ns)).flatten).Perm
      ((entries.flatMap fun (ns, slot) => slot.marks.values.map fun m => (ns, m)).map entryOf) := by
  induction entries with
  | nil => exact List.Perm.refl _
  | cons entry entries ih =>
      obtain ⟨ns, slot⟩ := entry
      have rest := ih fun entry member => sound entry (List.mem_cons_of_mem _ member)
      have own := sound (ns, slot) List.mem_cons_self
      rw [List.flatMap_cons, List.map_append, List.map_map]
      by_cases nothing : slot.marks.entries.isEmpty = true
      · simp only [List.filterMap_cons, Assoc.values, List.isEmpty_iff.1 nothing]
        exact rest
      · simp only [List.filterMap_cons, if_neg nothing, List.flatten_cons, own.run_eq]
        exact (sortByKey_perm _).append rest

/-- A query's index is all the marks in order, and builds nothing else of the store. -/
theorem Sound.withIndex (sound : store.Sound) :
    (store.withIndex.1.entries = sortByKey (store.allMarks.map entryOf)) ∧
      store.withIndex.2.Sound ∧ store.withIndex.2.index = some store.withIndex.1 ∧
      store.withIndex.2.allMarks = store.allMarks := by
  rw [ExtmarkStore.withIndex]
  cases built : store.index with
  | some ix => exact ⟨sound.current ix built, sound, built, rfl⟩
  | none =>
      have merged := Sorted.insertionSort_perm sound.placed.distinct
        (runs_perm fun entry member => sound.slots entry.1 entry.2 (Assoc.mem_entries.1 member))
      have kept : ∀ index : Option Positions,
          ({ store with
            byNs := store.byNs.mapVal fun ns slot =>
              if slot.marks.entries.isEmpty then slot else slot.withIndex ns
            index := index } : ExtmarkStore P).allMarks = store.allMarks := by
        intro index
        rw [allMarks_mapVal _ id]
        · exact List.map_id _
        · intro ns slot
          rw [List.map_id]
          split <;> rfl
      refine ⟨merged, ⟨?_, ?_, ?_⟩, rfl, kept _⟩
      · intro ns slot found
        rw [Assoc.get?_mapVal, Option.map_eq_some_iff] at found
        obtain ⟨before, held, rfl⟩ := found
        have own := sound.slots ns before held
        split
        · exact own
        · exact ⟨own.own, fun ix same => by cases same; exact own.run_eq⟩
      · intro ix same
        cases same
        rw [kept]
        exact merged
      · intro ix tree same built
        cases same
        cases built

/-- The entries of some marks name those marks. -/
theorem Sound.marksOf (sound : store.Sound) {marks : List (Nat × Extmark P)}
    (held : ∀ mark ∈ marks, mark ∈ store.allMarks) :
    store.marksOf (marks.map entryOf) = some marks := by
  induction marks with
  | nil => rfl
  | cons mark marks ih =>
      have rest := ih fun mark member => held mark (List.mem_cons_of_mem _ member)
      have first := sound.mem_allMarks.1 (held mark List.mem_cons_self)
      rw [ExtmarkStore.marksOf, List.map_cons, List.mapM_cons]
      rw [ExtmarkStore.marksOf] at rest
      rw [rest]
      have named : store.get (entryOf mark).ns (entryOf mark).id = some mark.2 := first
      rw [named]
      rfl

/-- The marks that pass a test, in order, by way of the entries. -/
theorem Sound.sortedMarks (sound : store.Sound) (test : Extmark P → Bool)
    (test' : PosEntry → Bool)
    (same : ∀ mark : Nat × Extmark P, test' (entryOf mark) = test mark.2) :
    store.marksOf ((sortByKey (store.allMarks.map entryOf)).filter test') =
      some (store.sortedMarks test) := by
  have entries : (sortByKey (store.allMarks.map entryOf)).filter test' =
      (store.sortedMarks test).map entryOf := by
    rw [sortByKey, Sorted.filter_insertionSort sound.placed.distinct, List.filter_map,
      ExtmarkStore.sortedMarks, List.map_insertionSort (r := markLe) (s := PosEntry.keyLe)]
    · congr 2
      apply List.filter_congr
      intro mark _
      exact same mark
    · intro a _ b _
      exact keyLe_entryOf a b
  rw [entries]
  apply sound.marksOf
  intro mark member
  exact (List.mem_filter.1 ((List.mem_insertionSort markLe).1 member)).1

/-! ### The queries -/

theorem Sound.startingIn (sound : store.Sound) (lo hi : Nat) : (store.startingIn lo hi).1 =
        some (store.sortedMarks fun m => lo ≤ m.start ∧ m.start < hi) ∧
      (store.startingIn lo hi).2.Sound := by
  obtain ⟨entries, sound', -, same⟩ := sound.withIndex
  have sorted := sortByKey_pairwise (store.allMarks.map entryOf)
  have nested : (∀ e : PosEntry, decide (e.start < lo) = true → decide (e.start < hi) = true) ∨
      ∀ e : PosEntry, decide (e.start < hi) = true → decide (e.start < lo) = true := by
    simp only [decide_eq_true_eq]
    rcases Nat.le_total lo hi with wide | empty
    · exact Or.inl fun e below => Nat.lt_of_lt_of_le below wide
    · exact Or.inr fun e below => Nat.lt_of_lt_of_le below empty
  have window := Sorted.window_max nested (Sorted.parted_of_sorted sorted (lower_start_lt lo))
    (Sorted.parted_of_sorted sorted (lower_start_lt hi))
  refine ⟨?_, sound'⟩
  have asked := sound'.sortedMarks (fun m => decide (lo ≤ m.start ∧ m.start < hi))
    (fun e => ! decide (e.start < lo) && decide (e.start < hi)) (by
      intro mark
      rw [← decide_not, ← Bool.decide_and]
      exact decide_eq_decide.2 (and_congr_left' Nat.not_lt))
  rw [same, ← window] at asked
  simp only [ExtmarkStore.startingIn, entries]
  rw [asked, ExtmarkStore.sortedMarks, same]
  rfl

theorem Positions.withTree_eq
    (built : ∀ tree, ix.tree = some tree → tree = MaxTree.build (ix.entries.map PosEntry.stop)) :
    ix.withTree = (MaxTree.build (ix.entries.map PosEntry.stop),
      { ix with tree := some (MaxTree.build (ix.entries.map PosEntry.stop)) }) := by
  rw [Positions.withTree]
  obtain ⟨entries, tree⟩ := ix
  cases tree with
  | none => rfl
  | some tree =>
      have same := built tree rfl
      simp only at same
      rw [same]

/-- What the tree finds among the first entries, and that only the tree is built. -/
theorem Positions.reaching_spec
    (built : ∀ tree, ix.tree = some tree → tree = MaxTree.build (ix.entries.map PosEntry.stop))
    {upto : Nat} (within : upto ≤ ix.entries.length) (lo : Nat) :
    ((ix.reaching upto lo).1.bind fun hits => hits.mapM fun i => ix.entries[i]?) =
        some ((ix.entries.take upto).filter fun e => lo ≤ e.stop) ∧
      (ix.reaching upto lo).2.entries = ix.entries ∧
      ∀ tree, (ix.reaching upto lo).2.tree = some tree →
        tree = MaxTree.build (ix.entries.map PosEntry.stop) := by
  rw [Positions.reaching]
  by_cases nothing : upto = 0
  · rw [if_pos nothing, nothing]
    exact ⟨rfl, rfl, built⟩
  · rw [if_neg nothing, Positions.withTree_eq built]
    refine ⟨MaxTree.search_entries ix.entries PosEntry.stop within lo, rfl, ?_⟩
    intro tree same
    cases same
    rfl

/-- The tree of the index may be built at any time. -/
theorem Sound.putIndex (sound : store.Sound) {ix' : Positions} (held : store.index = some ix)
    (kept : ix'.entries = ix.entries)
    (built : ∀ tree, ix'.tree = some tree → tree = MaxTree.build (ix.entries.map PosEntry.stop)) :
    ({ store with index := some ix' } : ExtmarkStore P).Sound := by
  constructor
  · exact sound.slots
  · intro ix'' same
    obtain rfl := Option.some.inj same
    rw [kept]
    exact sound.current ix held
  · intro ix'' tree same at_tree
    obtain rfl := Option.some.inj same
    rw [kept]
    exact built tree at_tree

theorem Sound.reaching (sound : store.Sound) (lo hi : Nat) : (store.reaching lo hi).1 =
        some (store.sortedMarks fun m => m.start < hi ∧ lo ≤ m.stop.getD m.start) ∧
      (store.reaching lo hi).2.Sound := by
  obtain ⟨entries, sound', held, same⟩ := sound.withIndex
  have sorted := sortByKey_pairwise (store.allMarks.map entryOf)
  have parted := Sorted.parted_of_sorted sorted (lower_start_lt hi)
  have within : partitionPoint store.withIndex.1.entries (fun e => decide (e.start < hi)) ≤
      store.withIndex.1.entries.length := (List.takeWhile_sublist _).length_le
  obtain ⟨hits, kept, tree⟩ := Positions.reaching_spec
    (fun tree built => sound'.tree store.withIndex.1 tree held built) within lo
  have asked := sound'.sortedMarks (fun m => decide (m.start < hi ∧ lo ≤ m.stop.getD m.start))
    (fun e => decide (lo ≤ e.stop) && decide (e.start < hi)) (by
      intro mark
      rw [Bool.and_comm, ← Bool.decide_and]
      rfl)
  rw [← List.filter_filter, same, ← parted.takeWhile_eq, ← Sorted.take_partitionPoint,
    ← entries] at asked
  rw [ExtmarkStore.reaching]
  refine ⟨?_, sound'.putIndex held kept tree⟩
  simp only [kept]
  rw [← Option.bind_assoc, hits, Option.bind_some]
  exact asked.trans (by rw [ExtmarkStore.sortedMarks, same]; rfl)

/-! ### What the operations keep -/

theorem slots_insert (sound : store.Sound) {slot : NsMarks P} (own : slot.Sound ns) :
    ∀ ns' slot', (store.byNs.insert ns slot).get? ns' = some slot' → slot'.Sound ns' := by
  intro ns' slot' found
  rw [Assoc.get?_insert] at found
  split at found
  · rename_i same
    cases found
    rw [same]
    exact own
  · exact sound.slots ns' slot' found

theorem slots_erase (sound : store.Sound) (ns : Nat) :
    ∀ ns' slot', (store.byNs.erase ns).get? ns' = some slot' → slot'.Sound ns' := by
  intro ns' slot' found
  rw [Assoc.get?_erase] at found
  split at found
  · cases found
  · exact sound.slots ns' slot' found

theorem slots_mapVal (sound : store.Sound) {f : Nat → NsMarks P → NsMarks P}
    (own : ∀ ns slot, slot.Sound ns → (f ns slot).Sound ns) :
    ∀ ns' slot', (store.byNs.mapVal f).get? ns' = some slot' → slot'.Sound ns' := by
  intro ns' slot' found
  rw [Assoc.get?_mapVal, Option.map_eq_some_iff] at found
  obtain ⟨slot, found, rfl⟩ := found
  exact own ns' slot (sound.slots ns' slot found)

theorem own_insert {marks : Assoc Nat (Extmark P)}
    (own : ∀ id m, marks.get? id = some m → m.id = id) (named : m.id = id) :
    ∀ id' m', (marks.insert id m).get? id' = some m' → m'.id = id' := by
  intro id' m' found
  rw [Assoc.get?_insert] at found
  split at found
  · rename_i same
    cases found
    rw [named, same]
  · exact own id' m' found

theorem Sound.slot (sound : store.Sound) (ns : Nat) :
    ((store.byNs.get? ns).getD .default).Sound ns := by
  cases found : store.byNs.get? ns with
  | none => exact NsMarks.sound_default ns
  | some slot => exact sound.slots ns slot found

theorem Sound.touchStructure (sound : store.Sound) (stamps : Nat) :
    (store.touchStructure stamps).1.Sound :=
  sound_of_none rfl sound.slots

theorem Sound.setWithGravity (sound : store.Sound) (stamps ns : Nat) (id : Option Nat)
    (start : Nat) (stop : Option Nat) (payload : P) (right endRight : Bool) :
    (store.setWithGravity stamps ns id start stop payload right endRight).1.Sound := by
  refine sound_of_none rfl (slots_insert sound (NsMarks.sound_of_none rfl ?_))
  exact own_insert (sound.slot ns).own rfl

theorem Sound.del (sound : store.Sound) (stamps ns id : Nat) :
    (store.del stamps ns id).1.Sound := by
  simp only [ExtmarkStore.del]
  split
  · exact sound.touchStructure stamps
  · rename_i slot found
    split
    · exact sound.touchStructure stamps
    · refine sound_of_none rfl (slots_insert sound (NsMarks.sound_of_none rfl ?_))
      intro id' m held
      simp only [NsMarks.touch, Assoc.get?_erase] at held
      split at held
      · cases held
      · exact (sound.slots ns slot found).own id' m held

theorem Sound.clear (sound : store.Sound) (stamps ns : Nat) (range : Option (Nat × Nat)) :
    (store.clear stamps ns range).1.Sound := by
  simp only [ExtmarkStore.clear]
  split
  · exact sound.touchStructure stamps
  · rename_i slot found
    refine sound_of_none rfl (slots_insert sound (NsMarks.sound_of_none rfl ?_))
    intro id' m held
    cases range with
    | none => cases held
    | some range =>
        simp only [NsMarks.touch, Assoc.get?_retain] at held
        exact (sound.slots ns slot found).own id' m (Option.filter_eq_some_iff.1 held).1

theorem Sound.clearAll (store : ExtmarkStore P) (stamps : Nat) :
    (store.clearAll stamps).1.Sound :=
  sound_of_none rfl fun _ _ found => nomatch found

theorem Sound.moveNamespaceInto {dst : ExtmarkStore P} (sound : store.Sound) (sound' : dst.Sound)
    (stamps ns : Nat) : (store.moveNamespaceInto stamps ns dst).1.Sound ∧
      (store.moveNamespaceInto stamps ns dst).2.1.Sound := by
  simp only [ExtmarkStore.moveNamespaceInto]
  split
  · rename_i slot found
    exact ⟨sound_of_none rfl (slots_erase sound ns),
      sound_of_none rfl (slots_insert sound' (sound.slots ns slot found))⟩
  · exact ⟨sound.touchStructure stamps, sound_of_none rfl (slots_erase sound' ns)⟩

theorem Sound.adoptPositionsFrom (sound : store.Sound) (stamps : Nat) (snap : ExtmarkStore P)
    (textLen : Nat) (skip : List Nat) :
    (store.adoptPositionsFrom stamps snap textLen skip).1.Sound := by
  refine sound_of_none rfl (slots_mapVal sound ?_)
  intro ns slot own
  split
  · exact own
  · refine NsMarks.sound_of_none rfl ?_
    intro id m found
    rw [Assoc.get?_mapVal, Option.map_eq_some_iff] at found
    obtain ⟨m', found, rfl⟩ := found
    rw [adoptMark]
    split <;> exact own.own id m' found

theorem Sound.clone (sound : store.Sound) : store.clone.Sound :=
  sound_of_none rfl (slots_mapVal sound fun _ _ own => NsMarks.sound_of_none rfl own.own)

theorem Sound.shift (sound : store.Sound) {oldEnd newEnd : Nat} (forward : start ≤ oldEnd)
    (forward' : start ≤ newEnd) : (store.shift start oldEnd newEnd).Sound := by
  rw [ExtmarkStore.shift]
  split
  · exact sound
  have moved : ∀ index : Option Positions,
      ({ store with
        byNs := store.byNs.mapVal fun _ slot => { slot with
          marks := slot.marks.mapVal fun _ m => m.shift start oldEnd newEnd
          index := slot.index.map (Positions.shift start oldEnd newEnd) }
        index := index } : ExtmarkStore P).allMarks.map entryOf =
      (store.allMarks.map entryOf).map (PosEntry.shift start oldEnd newEnd) := by
    intro index
    rw [allMarks_mapVal _ (Extmark.shift start oldEnd newEnd), List.map_map, List.map_map]
    · apply List.map_congr_left
      intro mark _
      exact entry_shift start oldEnd newEnd mark.1 mark.2
    · intro ns slot
      exact values_mapVal slot.marks _ _ fun _ _ => rfl
  constructor
  · exact slots_mapVal sound fun ns slot own => own.shift forward forward'
  · intro ix built
    obtain ⟨before, held, rfl⟩ := Option.map_eq_some_iff.1 built
    rw [moved]
    exact Positions.shift_entries forward forward' sound.placed (sound.current before held)
  · intro ix tree built at_tree
    obtain ⟨before, held, rfl⟩ := Option.map_eq_some_iff.1 built
    cases at_tree

/-! ### One mark under the operations -/

theorem get_shift {oldEnd newEnd : Nat}
    (found : (store.shift start oldEnd newEnd).get ns id = some m) :
    ∃ before, store.get ns id = some before ∧
      (m = before.shift start oldEnd newEnd ∨ (m = before ∧ oldEnd = start ∧ newEnd = start)) := by
  rw [ExtmarkStore.shift] at found
  split at found
  · rename_i nothing
    exact ⟨m, found, Or.inr ⟨rfl, nothing⟩⟩
  · obtain ⟨slot, at_ns, at_id⟩ := Option.bind_eq_some_iff.1 found
    rw [Assoc.get?_mapVal, Option.map_eq_some_iff] at at_ns
    obtain ⟨slot', held, rfl⟩ := at_ns
    rw [Assoc.get?_mapVal, Option.map_eq_some_iff] at at_id
    obtain ⟨before, named, rfl⟩ := at_id
    exact ⟨before, Option.bind_eq_some_iff.2 ⟨slot', held, named⟩, Or.inl rfl⟩

theorem get_of_slot (held : ((store.byNs.get? ns).getD .default).marks.get? id = some m) :
    store.get ns id = some m := by
  rw [ExtmarkStore.get]
  cases found : store.byNs.get? ns with
  | none =>
      rw [found] at held
      cases held
  | some slot =>
      rw [found] at held
      exact held

/-- A set places one mark, with the next serial, and leaves the others. -/
theorem get_set {id : Option Nat} {stop : Option Nat} {payload : P} {right endRight : Bool}
    (found : (store.setWithGravity stamps ns id start stop payload right endRight).1.get ns' id' =
      some m) : (ns' = ns ∧
      id' = (store.setWithGravity stamps ns id start stop payload right endRight).2.2 ∧
      m = ⟨id', start, stop, payload, right, endRight, store.nextSerial + 1⟩) ∨
    store.get ns' id' = some m := by
  obtain ⟨slot, at_ns, at_id⟩ := Option.bind_eq_some_iff.1 found
  rcases Assoc.get?_insert_eq_some.1 at_ns with ⟨same, rfl⟩ | ⟨-, held⟩
  · rcases Assoc.get?_insert_eq_some.1 at_id with ⟨named, rfl⟩ | ⟨-, held⟩
    · left
      refine ⟨same, named, ?_⟩
      rw [named]
    · right
      rw [same]
      exact get_of_slot held
  · exact Or.inr (Option.bind_eq_some_iff.2 ⟨slot, held, at_id⟩)

theorem get_del (found : (store.del stamps ns id).1.get ns' id' = some m) :
    store.get ns' id' = some m := by
  simp only [ExtmarkStore.del, ExtmarkStore.touchStructure] at found
  split at found
  · exact found
  · rename_i slot held
    split at found
    · exact found
    · obtain ⟨slot', at_ns, at_id⟩ := Option.bind_eq_some_iff.1 found
      simp only [NsMarks.touch, Assoc.get?_insert] at at_ns
      split at at_ns
      · rename_i same
        cases at_ns
        simp only [Assoc.get?_erase] at at_id
        split at at_id
        · cases at_id
        · rw [same]
          exact Option.bind_eq_some_iff.2 ⟨slot, held, at_id⟩
      · exact Option.bind_eq_some_iff.2 ⟨slot', at_ns, at_id⟩

theorem get_clear {range : Option (Nat × Nat)}
    (found : (store.clear stamps ns range).1.get ns' id' = some m) :
    store.get ns' id' = some m := by
  simp only [ExtmarkStore.clear, ExtmarkStore.touchStructure] at found
  split at found
  · exact found
  · rename_i slot held
    obtain ⟨slot', at_ns, at_id⟩ := Option.bind_eq_some_iff.1 found
    simp only [NsMarks.touch, Assoc.get?_insert] at at_ns
    split at at_ns
    · rename_i same
      cases at_ns
      cases range with
      | none => cases at_id
      | some range =>
          simp only [Assoc.get?_retain] at at_id
          rw [same]
          exact Option.bind_eq_some_iff.2 ⟨slot, held, (Option.filter_eq_some_iff.1 at_id).1⟩
    · exact Option.bind_eq_some_iff.2 ⟨slot', at_ns, at_id⟩

/-- Clearing a namespace leaves the others. -/
theorem get_clear_of_ne (store : ExtmarkStore P) (stamps : Nat) (other : ns' ≠ ns)
    (range : Option (Nat × Nat)) (id : Nat) :
    (store.clear stamps ns range).1.get ns' id = store.get ns' id := by
  simp only [ExtmarkStore.clear, ExtmarkStore.touchStructure]
  split
  · rfl
  · simp only [ExtmarkStore.get, Assoc.get?_insert, if_neg other]

theorem get_set_of_ne (store : ExtmarkStore P) (stamps : Nat) (other : ns' ≠ ns) (id : Option Nat)
    (start : Nat) (stop : Option Nat) (payload : P) (right endRight : Bool) (id' : Nat) :
    (store.setWithGravity stamps ns id start stop payload right endRight).1.get ns' id' =
      store.get ns' id' := by
  simp only [ExtmarkStore.setWithGravity, ExtmarkStore.touchStructure, ExtmarkStore.get,
    Assoc.get?_insert, if_neg other]

theorem get_adopt (store : ExtmarkStore P) (stamps : Nat) (snap : ExtmarkStore P) (textLen : Nat)
    (adopts : ns ∉ skip) (id : Nat) :
    (store.adoptPositionsFrom stamps snap textLen skip).1.get ns id =
      (store.get ns id).map (adoptMark (snap.get ns id) textLen) := by
  simp only [ExtmarkStore.adoptPositionsFrom, ExtmarkStore.touchStructure]
  simp only [ExtmarkStore.get, Assoc.get?_mapVal]
  cases store.byNs.get? ns with
  | none => rfl
  | some slot =>
      simp only [Option.map_some, Option.bind_some, if_neg adopts]
      rw [Assoc.get?_mapVal]

theorem get_adopt_of_skip (store : ExtmarkStore P) (stamps : Nat) (snap : ExtmarkStore P)
    (textLen : Nat) (skipped : ns ∈ skip) (id : Nat) :
    (store.adoptPositionsFrom stamps snap textLen skip).1.get ns id = store.get ns id := by
  simp only [ExtmarkStore.adoptPositionsFrom, ExtmarkStore.touchStructure]
  rw [ExtmarkStore.get, Assoc.get?_mapVal, ExtmarkStore.get]
  cases store.byNs.get? ns with
  | none => rfl
  | some slot => simp only [Option.map_some, Option.bind_some, if_pos skipped]

theorem get_move_of_ne (store dst : ExtmarkStore P) (stamps : Nat) (other : ns' ≠ ns) (id : Nat) :
    (store.moveNamespaceInto stamps ns dst).1.get ns' id = store.get ns' id ∧
      (store.moveNamespaceInto stamps ns dst).2.1.get ns' id = dst.get ns' id := by
  simp only [ExtmarkStore.moveNamespaceInto, ExtmarkStore.touchStructure]
  split
  · simp only [ExtmarkStore.get, Assoc.get?_erase, Assoc.get?_insert, if_neg other, and_self]
  · simp only [ExtmarkStore.get, Assoc.get?_erase, if_neg other, and_self]

/-- The namespace that moves is the source's. -/
theorem get_move (store dst : ExtmarkStore P) (stamps ns id : Nat) :
    (store.moveNamespaceInto stamps ns dst).2.1.get ns id = store.get ns id := by
  simp only [ExtmarkStore.moveNamespaceInto, ExtmarkStore.touchStructure]
  split
  · rename_i slot held
    simp only [ExtmarkStore.get, Assoc.get?_insert, if_true, held]
  · rename_i absent
    simp only [ExtmarkStore.get, Assoc.get?_erase, if_true, absent]

end ExtmarkStore

/-! ### Runs -/

namespace Stores

def Sound (s : Stores P) : Prop := ∀ i, (s.stores i).Sound

theorem sound_initial : (initial : Stores P).Sound := fun _ => ExtmarkStore.sound_default

variable {s : Stores P}

theorem Sound.put (sound : s.Sound) {i : Nat} {result : ExtmarkStore P × Nat}
    (own : result.1.Sound) : (s.put i result).Sound := by
  intro j
  by_cases same : j = i
  · subst same
    simp only [Stores.put, Function.update_self]
    exact own
  · simp only [Stores.put, Function.update_of_ne same]
    exact sound j

/-- **The step lemma.**  Every call keeps every store sound. -/
theorem step_sound {next : Stores P} {call : Call P} (sound : s.Sound)
    (taken : s.step call = some next) : next.Sound := by
  cases call with
  | set i ns id start stop payload right endRight =>
      cases taken
      exact sound.put ((sound i).setWithGravity _ _ _ _ _ _ _ _)
  | del i ns id =>
      cases taken
      exact sound.put ((sound i).del _ _ _)
  | clear i ns range =>
      cases taken
      exact sound.put ((sound i).clear _ _ _)
  | clearAll i =>
      cases taken
      exact sound.put (ExtmarkStore.Sound.clearAll _ _)
  | moveNamespaceInto i ns j =>
      simp only [step] at taken
      split at taken
      · cases taken
      · cases taken
        obtain ⟨left, moved⟩ := (sound i).moveNamespaceInto (sound j) s.stamps ns
        exact (sound.put left).put moved
  | adoptPositionsFrom i j textLen skip =>
      simp only [step] at taken
      split at taken
      · cases taken
      · cases taken
        exact sound.put ((sound i).adoptPositionsFrom _ _ _ _)
  | clone i j =>
      cases taken
      exact sound.put (sound i).clone
  | shift i start oldEnd newEnd =>
      simp only [step] at taken
      split at taken
      · rename_i forward
        cases taken
        exact sound.put ((sound i).shift forward.1 forward.2)
      · cases taken
  | startingIn i lo hi =>
      cases taken
      exact sound.put ((sound i).startingIn lo hi).2
  | reaching i lo hi =>
      cases taken
      exact sound.put ((sound i).reaching lo hi).2

theorem reached_sound {calls : List (Call P)} (reached : Run.run step initial calls = some s) :
    s.Sound :=
  Run.run_invariant Sound (fun _ _ _ => step_sound) sound_initial reached

/-- **Both range queries of every store that calls reach find the marks that a filter of all of
them does, in order of start, namespace and id.** -/
theorem queries_exact {calls : List (Call P)} {s : Stores P}
    (reached : Run.run step initial calls = some s) (i lo hi : Nat) :
    ((s.stores i).startingIn lo hi).1 =
        some ((s.stores i).sortedMarks fun m => lo ≤ m.start ∧ m.start < hi) ∧
      ((s.stores i).reaching lo hi).1 =
        some ((s.stores i).sortedMarks fun m => m.start < hi ∧ lo ≤ m.stop.getD m.start) :=
  ⟨((reached_sound reached i).startingIn lo hi).1, ((reached_sound reached i).reaching lo hi).1⟩

/-- Two marks whose run is built, an edit that swallows one of them, and a mark set behind it. -/
def edited : List (Call Unit) :=
  [.set 0 7 none 5 (some 9) () true false, .set 0 3 none 2 none () true false,
    .startingIn 0 0 4, .shift 0 1 6 3, .reaching 0 2 8, .clone 0 1,
    .set 0 7 (some 4) 3 none () true false]

example : ((Run.run step initial edited).bind fun s =>
    ((s.stores 0).reaching 4 8).1.map fun marks => marks.map fun mark => (mark.1, mark.2.id)) =
      some [(7, 0)] := by decide

theorem queries_exact_edited :
    ∃ s : Stores Unit, Run.run step initial edited = some s ∧
      ((s.stores 0).startingIn 2 8).1 =
        some ((s.stores 0).sortedMarks fun m => 2 ≤ m.start ∧ m.start < 8) ∧
      ((s.stores 0).reaching 2 8).1 =
        some ((s.stores 0).sortedMarks fun m => m.start < 8 ∧ 2 ≤ m.stop.getD m.start) := by
  have enabled : (Run.run step initial edited).isSome = true := by decide
  obtain ⟨s, reached⟩ := Option.isSome_iff_exists.1 enabled
  exact ⟨s, reached, queries_exact reached 0 2 8⟩

end Stores

end Bemtvi.Core.Extmarks
