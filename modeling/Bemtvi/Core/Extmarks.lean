/-
Module: Bemtvi.Core.Extmarks
Purpose: The extmark store: marks by namespace and id, the stamps of its structural changes, and the
  sorted positions the frame's range queries read: one run for each namespace and the index merged
  from them, both built when first asked and moved by edits in place.
Trusted boundary: human-reviewed model of bemtvi-core/src/extmark.rs:129-154, 286-510, 537-758,
  828-834 and 857-1103; the highlight, priority and decoration of a mark are its payload, the
  counts of virtual lines and gutter widths are left out, and offsets are those of a rope, where
  the casts to `isize` are exact
Main exports: Extmark, PosEntry, Positions, NsMarks, ExtmarkStore, setWithGravity, del, clear,
  clearAll, moveNamespaceInto, adoptPositionsFrom, clone, shift, startingIn, reaching
-/
import Bemtvi.Lib.Assoc
import Bemtvi.Lib.MaxTree
import Bemtvi.Lib.Sorted
import Bemtvi.Lib.Run

namespace Bemtvi.Core.Extmarks

open Sorted (partitionPoint)

/-- A mark; `stop` is its `end`, none for a point. -/
structure Extmark (P : Type) where
  id : Nat
  start : Nat
  stop : Option Nat
  payload : P
  rightGravity : Bool
  endRightGravity : Bool
  /-- Which placement this is. -/
  serial : Nat
deriving Repr, DecidableEq

/-- One mark in the position index: a point's `stop` is its `start`. -/
structure PosEntry where
  start : Nat
  stop : Nat
  hasEnd : Bool
  rightGravity : Bool
  endRightGravity : Bool
  ns : Nat
  id : Nat
deriving Repr, DecidableEq

/-- Entries sorted by `(start, ns, id)`, and the largest-end tree over them once it was asked for. -/
structure Positions where
  entries : List PosEntry
  tree : Option (Nat × List Nat)
deriving Repr, DecidableEq

/-- The marks of a namespace. -/
structure NsMarks (P : Type) where
  marks : Assoc Nat (Extmark P)
  gen : Nat
  nextId : Nat
  index : Option Positions

structure ExtmarkStore (P : Type) where
  byNs : Assoc Nat (NsMarks P)
  generation : Nat
  nextSerial : Nat
  index : Option Positions

variable {P : Type}

/-- `NsMarks::default`. -/
def NsMarks.default : NsMarks P where
  marks := .empty
  gen := 0
  nextId := 0
  index := none

/-- `ExtmarkStore::default`. -/
def ExtmarkStore.default : ExtmarkStore P where
  byNs := .empty
  generation := 0
  nextSerial := 0
  index := none

/-! ### Gravity -/

/-- `shift_right_gravity`. -/
def shiftRightGravity (p start oldEnd newEnd : Nat) : Nat :=
  if p < start then p
  else if p < oldEnd then newEnd
  else p + newEnd - oldEnd

/-- `shift_left_gravity`. -/
def shiftLeftGravity (p start oldEnd newEnd : Nat) : Nat :=
  if p ≤ start then p
  else if p < oldEnd then start
  else p + newEnd - oldEnd

/-- An anchor by its gravity. -/
def shiftAnchor (right : Bool) (p start oldEnd newEnd : Nat) : Nat :=
  if right then shiftRightGravity p start oldEnd newEnd
  else shiftLeftGravity p start oldEnd newEnd

/-- A mark across an edit; a range that would be inverted is empty. -/
def Extmark.shift (start oldEnd newEnd : Nat) (m : Extmark P) : Extmark P :=
  let start' := shiftAnchor m.rightGravity m.start start oldEnd newEnd
  { m with
    start := start'
    stop := m.stop.map fun stop =>
      max (shiftAnchor m.endRightGravity stop start oldEnd newEnd) start' }

/-- An entry across an edit. -/
def PosEntry.shift (start oldEnd newEnd : Nat) (e : PosEntry) : PosEntry :=
  let start' := shiftAnchor e.rightGravity e.start start oldEnd newEnd
  { e with
    start := start'
    stop :=
      if e.hasEnd then max (shiftAnchor e.endRightGravity e.stop start oldEnd newEnd) start'
      else start' }

/-! ### Sorted positions -/

/-- `key`, compared. -/
def PosEntry.keyLe (a b : PosEntry) : Prop :=
  a.start < b.start ∨ (a.start = b.start ∧ (a.ns < b.ns ∨ (a.ns = b.ns ∧ a.id ≤ b.id)))

instance : DecidableRel PosEntry.keyLe := fun _ _ => inferInstanceAs (Decidable (_ ∨ _))

/-- A sort by `key`. -/
def sortByKey (entries : List PosEntry) : List PosEntry := entries.insertionSort PosEntry.keyLe

def Extmark.entry (ns : Nat) (m : Extmark P) : PosEntry where
  start := m.start
  stop := m.stop.getD m.start
  hasEnd := m.stop.isSome
  rightGravity := m.rightGravity
  endRightGravity := m.endRightGravity
  ns := ns
  id := m.id

namespace Positions

/-- `build`: the run of a namespace. -/
def build (ns : Nat) (slot : NsMarks P) : Positions where
  entries := sortByKey (slot.marks.values.map (Extmark.entry ns))
  tree := none

/-- `shift`: only the run from the edit's start to its new end is sorted again. -/
def shift (start oldEnd newEnd : Nat) (positions : Positions) : Positions :=
  let entries := positions.entries.map (PosEntry.shift start oldEnd newEnd)
  let lower := partitionPoint entries fun e => e.start < start
  let upper := partitionPoint entries fun e => e.start ≤ newEnd
  { entries :=
      if upper > lower then
        entries.take lower ++ sortByKey ((entries.drop lower).take (upper - lower)) ++
          entries.drop upper
      else entries
    tree := none }

/-- `tree`: built now if an edit dropped it. -/
def withTree (positions : Positions) : (Nat × List Nat) × Positions :=
  match positions.tree with
  | some tree => (tree, positions)
  | none =>
      let tree := MaxTree.build (positions.entries.map PosEntry.stop)
      (tree, { positions with tree := some tree })

/-- `reaching`: the places of the entries, among the first `upto`, whose end reaches `lo`. -/
def reaching (positions : Positions) (upto lo : Nat) : Option (List Nat) × Positions :=
  if upto = 0 then (some [], positions)
  else
    let (tree, positions) := positions.withTree
    (MaxTree.search tree upto lo, positions)

end Positions

namespace NsMarks

/-- `touch`, with a fresh stamp. -/
def touch (slot : NsMarks P) (stamps : Nat) : NsMarks P × Nat :=
  ({ slot with gen := stamps + 1, index := none }, stamps + 1)

/-- `index`: the run, built now if a structural change dropped it. -/
def withIndex (ns : Nat) (slot : NsMarks P) : NsMarks P :=
  { slot with index := some (slot.index.getD (Positions.build ns slot)) }

/-- The entries of the run. -/
def run (ns : Nat) (slot : NsMarks P) : List PosEntry :=
  (slot.index.getD (Positions.build ns slot)).entries

end NsMarks

namespace ExtmarkStore

/-! ### Structural changes -/

/-- `touch_structure`, with a fresh stamp. -/
def touchStructure (store : ExtmarkStore P) (stamps : Nat) : ExtmarkStore P × Nat :=
  ({ store with generation := stamps + 1, index := none }, stamps + 1)

/-- `saturating_add(1)`, of a `u64`. -/
def saturatingSucc (n : Nat) : Nat := min (n + 1) (2 ^ 64 - 1)

/-- `set_with_gravity`: the store, the stamps and the id used. -/
def setWithGravity (store : ExtmarkStore P) (stamps ns : Nat) (id : Option Nat) (start : Nat)
    (stop : Option Nat) (payload : P) (rightGravity endRightGravity : Bool) :
    ExtmarkStore P × Nat × Nat :=
  let (store, stamps) := store.touchStructure stamps
  let slot := (store.byNs.get? ns).getD .default
  let (id, nextId) :=
    match id with
    | some id => (id, max slot.nextId (saturatingSucc id))
    | none => (slot.nextId, saturatingSucc slot.nextId)
  let serial := store.nextSerial + 1
  let mark := ⟨id, start, stop, payload, rightGravity, endRightGravity, serial⟩
  let (slot, stamps) := NsMarks.touch { slot with
    nextId := nextId
    marks := slot.marks.insert id mark } stamps
  ({ store with byNs := store.byNs.insert ns slot, nextSerial := serial }, stamps, id)

/-- `get`. -/
def get (store : ExtmarkStore P) (ns id : Nat) : Option (Extmark P) :=
  (store.byNs.get? ns).bind fun slot => slot.marks.get? id

/-- `del`: the store, the stamps and whether the mark existed. -/
def del (store : ExtmarkStore P) (stamps ns id : Nat) : ExtmarkStore P × Nat × Bool :=
  let (store, stamps) := store.touchStructure stamps
  match store.byNs.get? ns with
  | none => (store, stamps, false)
  | some slot =>
      match slot.marks.get? id with
      | none => (store, stamps, false)
      | some _ =>
          let (slot, stamps) := NsMarks.touch { slot with marks := slot.marks.erase id } stamps
          ({ store with byNs := store.byNs.insert ns slot }, stamps, true)

/-- `clear`: the marks of a namespace that start in a range, or all of them. -/
def clear (store : ExtmarkStore P) (stamps ns : Nat) (range : Option (Nat × Nat)) :
    ExtmarkStore P × Nat :=
  let (store, stamps) := store.touchStructure stamps
  match store.byNs.get? ns with
  | none => (store, stamps)
  | some slot =>
      let marks :=
        match range with
        | none => .empty
        | some (lo, hi) => slot.marks.retain fun _ m => ¬ (lo ≤ m.start ∧ m.start < hi)
      let (slot, stamps) := NsMarks.touch { slot with marks := marks } stamps
      ({ store with byNs := store.byNs.insert ns slot }, stamps)

/-- `clear_all`. -/
def clearAll (store : ExtmarkStore P) (stamps : Nat) : ExtmarkStore P × Nat :=
  let (store, stamps) := store.touchStructure stamps
  ({ store with byNs := .empty }, stamps)

/-- `move_namespace_into`: what is left of the store, the other store and the stamps. -/
def moveNamespaceInto (store : ExtmarkStore P) (stamps ns : Nat) (dst : ExtmarkStore P) :
    ExtmarkStore P × ExtmarkStore P × Nat :=
  let (store, stamps) := store.touchStructure stamps
  let (dst, stamps) := dst.touchStructure stamps
  match store.byNs.get? ns with
  | some slot =>
      ({ store with byNs := store.byNs.erase ns }, { dst with byNs := dst.byNs.insert ns slot },
        stamps)
  | none => (store, { dst with byNs := dst.byNs.erase ns }, stamps)

/-- A mark that takes its place from the same placement in a snapshot, or keeps it within the text. -/
def adoptMark (then_ : Option (Extmark P)) (textLen : Nat) (m : Extmark P) : Extmark P :=
  match then_.filter fun then_ => then_.serial = m.serial with
  | some then_ => { m with start := then_.start, stop := then_.stop }
  | none =>
      let start := min m.start textLen
      { m with start := start, stop := m.stop.map fun stop => max (min stop textLen) start }

/-- `adopt_positions_from`. -/
def adoptPositionsFrom (store : ExtmarkStore P) (stamps : Nat) (snap : ExtmarkStore P)
    (textLen : Nat) (skip : List Nat) : ExtmarkStore P × Nat :=
  let byNs := store.byNs.mapVal fun ns slot =>
    if ns ∈ skip then slot
    else { slot with
      index := none
      marks := slot.marks.mapVal fun id m => adoptMark (snap.get ns id) textLen m }
  ({ store with byNs := byNs } : ExtmarkStore P).touchStructure stamps

/-- `clone`: the positions are not carried. -/
def clone (store : ExtmarkStore P) : ExtmarkStore P :=
  { store with
    byNs := store.byNs.mapVal fun _ slot => { slot with index := none }
    index := none }

/-- `shift`: the marks, and every index that was built. -/
def shift (store : ExtmarkStore P) (start oldEnd newEnd : Nat) : ExtmarkStore P :=
  if oldEnd = start ∧ newEnd = start then store
  else { store with
    byNs := store.byNs.mapVal fun _ slot => { slot with
      marks := slot.marks.mapVal fun _ m => m.shift start oldEnd newEnd
      index := slot.index.map (Positions.shift start oldEnd newEnd) }
    index := store.index.map (Positions.shift start oldEnd newEnd) }

/-! ### Queries -/

/-- `index`: merged from the runs if a structural change dropped it. -/
def withIndex (store : ExtmarkStore P) : Positions × ExtmarkStore P :=
  match store.index with
  | some ix => (ix, store)
  | none =>
      let runs := store.byNs.entries.filterMap fun (ns, slot) =>
        if slot.marks.entries.isEmpty then none else some (slot.run ns)
      let ix : Positions := { entries := sortByKey runs.flatten, tree := none }
      let byNs := store.byNs.mapVal fun ns slot =>
        if slot.marks.entries.isEmpty then slot else slot.withIndex ns
      (ix, { store with byNs := byNs, index := some ix })

/-- The marks that entries name; `none` where one is not there. -/
def marksOf (store : ExtmarkStore P) (entries : List PosEntry) :
    Option (List (Nat × Extmark P)) :=
  entries.mapM fun e => (store.get e.ns e.id).map fun m => (e.ns, m)

/-- `starting_in`: the marks whose start lies from `lo` to before `hi`. -/
def startingIn (store : ExtmarkStore P) (lo hi : Nat) :
    Option (List (Nat × Extmark P)) × ExtmarkStore P :=
  let (ix, store) := store.withIndex
  let lower := partitionPoint ix.entries fun e => e.start < lo
  let upper := max (partitionPoint ix.entries fun e => e.start < hi) lower
  (store.marksOf ((ix.entries.drop lower).take (upper - lower)), store)

/-- `reaching`: the marks that start before `hi` and whose end, or whose start, reaches `lo`. -/
def reaching (store : ExtmarkStore P) (lo hi : Nat) :
    Option (List (Nat × Extmark P)) × ExtmarkStore P :=
  let (ix, store) := store.withIndex
  let upto := partitionPoint ix.entries fun e => e.start < hi
  let (hits, ix) := ix.reaching upto lo
  let store := { store with index := some ix }
  (hits.bind fun hits => (hits.mapM fun i => ix.entries[i]?).bind store.marksOf, store)

/-! ### What the queries are for -/

/-- Every mark with its namespace. -/
def allMarks (store : ExtmarkStore P) : List (Nat × Extmark P) :=
  store.byNs.entries.flatMap fun (ns, slot) => slot.marks.values.map fun m => (ns, m)

/-- Ascending by start, then namespace, then id. -/
def markLe (a b : Nat × Extmark P) : Prop :=
  a.2.start < b.2.start ∨
    (a.2.start = b.2.start ∧ (a.1 < b.1 ∨ (a.1 = b.1 ∧ a.2.id ≤ b.2.id)))

instance : DecidableRel (markLe (P := P)) := fun _ _ => inferInstanceAs (Decidable (_ ∨ _))

/-- The marks that pass a test, out of all of them, sorted. -/
def sortedMarks (store : ExtmarkStore P) (test : Extmark P → Bool) : List (Nat × Extmark P) :=
  (store.allMarks.filter fun mark => test mark.2).insertionSort markLe

end ExtmarkStore

/-! ### Stores and the calls on them -/

/-- Every store there is, by a number; the process hands out one row of stamps. -/
structure Stores (P : Type) where
  stamps : Nat
  stores : Nat → ExtmarkStore P

/-- A call on a store, named first; a second store is another one. -/
inductive Call (P : Type) where
  | set (i ns : Nat) (id : Option Nat) (start : Nat) (stop : Option Nat) (payload : P)
      (rightGravity endRightGravity : Bool)
  | del (i ns id : Nat)
  | clear (i ns : Nat) (range : Option (Nat × Nat))
  | clearAll (i : Nat)
  | moveNamespaceInto (i ns j : Nat)
  | adoptPositionsFrom (i j textLen : Nat) (skip : List Nat)
  | clone (i j : Nat)
  | shift (i start oldEnd newEnd : Nat)
  | startingIn (i lo hi : Nat)
  | reaching (i lo hi : Nat)

namespace Stores

def initial : Stores P where
  stamps := 0
  stores := fun _ => .default

/-- Put a store under its number, with the stamps handed out so far. -/
def put (s : Stores P) (i : Nat) (result : ExtmarkStore P × Nat) : Stores P where
  stamps := result.2
  stores := Function.update s.stores i result.1

/-- A call; `none` when its store is also its second one, or an edit ends before it starts. -/
def step (s : Stores P) : Call P → Option (Stores P)
  | .set i ns id start stop payload rightGravity endRightGravity =>
      let (store, stamps, _) := (s.stores i).setWithGravity s.stamps ns id start stop payload
        rightGravity endRightGravity
      some (s.put i (store, stamps))
  | .del i ns id =>
      let (store, stamps, _) := (s.stores i).del s.stamps ns id
      some (s.put i (store, stamps))
  | .clear i ns range => some (s.put i ((s.stores i).clear s.stamps ns range))
  | .clearAll i => some (s.put i ((s.stores i).clearAll s.stamps))
  | .moveNamespaceInto i ns j =>
      if i = j then none
      else
        let (store, dst, stamps) := (s.stores i).moveNamespaceInto s.stamps ns (s.stores j)
        some ((s.put i (store, stamps)).put j (dst, stamps))
  | .adoptPositionsFrom i j textLen skip =>
      if i = j then none
      else some (s.put i ((s.stores i).adoptPositionsFrom s.stamps (s.stores j) textLen skip))
  | .clone i j => some (s.put j ((s.stores i).clone, s.stamps))
  | .shift i start oldEnd newEnd =>
      if start ≤ oldEnd ∧ start ≤ newEnd then
        some (s.put i ((s.stores i).shift start oldEnd newEnd, s.stamps))
      else none
  | .startingIn i lo hi => some (s.put i (((s.stores i).startingIn lo hi).2, s.stamps))
  | .reaching i lo hi => some (s.put i (((s.stores i).reaching lo hi).2, s.stamps))

end Stores

end Bemtvi.Core.Extmarks
