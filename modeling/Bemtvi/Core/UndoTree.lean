/-
Module: Bemtvi.Core.UndoTree
Purpose: The branching undo tree of one buffer: a snapshot a node, a pending edit committed lazily,
  pruning to `'undolevels'` by re-rooting, and the searches `g-`, `:earlier` and `:undo {N}` go by.
Trusted boundary: human-reviewed model of bemtvi-core/src/editor/mod.rs:398-497 and
  bemtvi-core/src/editor/undo.rs:63-470, 576-592; an index out of range, which panics there, reads
  as nothing here, and `Consistent` says it does not happen
Main exports: Snapshot, UndoNode, UndoTree, UndoTree.commit, UndoTree.prune, UndoTree.Consistent,
  UndoTree.Holds, commit_consistent, prune_restricts
-/
import Bemtvi.Core.Buffer
import Bemtvi.Lib.Arena
import Bemtvi.Lib.Picks
import Bemtvi.Lib.Word

namespace Bemtvi.Core

open Utf8
open Picks (maxByKey minByKey maxByKey_mem minByKey_mem pick_mem)

/-- The state kept at one undo point. -/
structure Snapshot (E : Type) where
  text : Text
  cursor : Point
  extmarks : E
  marks : Char → Option Point
  changelist : List Point × Nat
  /-- The window whose secondary cursors are baked into `extmarks`. -/
  cursorWindow : Option Nat
  selection : Option (Nat × Nat)

/-- What an undo node holds besides its links. -/
structure UndoState (E : Type) where
  seq : Nat
  time : Int
  save : Option Nat
  snap : Snapshot E
  snapExtmarkGen : Nat

/-- `UndoNode`. -/
abbrev UndoNode (E : Type) := Arena.Node (UndoState E)

/-- `UndoTree`: an arena of states, and the one the live buffer sits on. -/
structure UndoTree (E : Type) where
  nodes : List (UndoNode E)
  cur : Nat
  nextSeq : Nat
  dirty : Bool
  dirtySince : Int
  dirtyTick : Nat
  saveLast : Nat

/-- `CURSOR_NS`. -/
def cursorNs : Nat := 2 ^ 32 - 1

/-- `ANCHOR_NS`. -/
def anchorNs : Nat := 2 ^ 32 - 2

/-! ### Measures of states -/

/-- Order of `(time, seq)` pairs. -/
def ltTimeSeq (a b : Int × Nat) : Bool := a.1 < b.1 || (a.1 == b.1 && a.2 < b.2)

/-- `abs_diff`. -/
def absDiff (a b : Nat) : Nat := (a - b) + (b - a)

namespace UndoTree

variable {E : Type}

/-- `new`: the original state, at seq 0. -/
def new [ExtmarkStore E] (buffer : Buffer E) : UndoTree E where
  nodes :=
    [{ parent := none
       children := []
       data :=
        { seq := 0
          time := 0
          save := none
          snapExtmarkGen := ExtmarkStore.generation buffer.extmarks
          snap :=
            { text := buffer.text
              cursor := (0, 0)
              extmarks := buffer.extmarks
              marks := buffer.marks
              changelist := (buffer.changelist, buffer.changelistidx)
              cursorWindow := none
              selection := none } } }]
  cur := 0
  nextSeq := 1
  dirty := false
  dirtySince := 0
  dirtyTick := 0
  saveLast := 0

/-- `commit`: the pending state becomes the newest child of the current one, and current. -/
def commit [ExtmarkStore E] (tree : UndoTree E) (snap : Snapshot E) : UndoTree E :=
  { tree with
    nodes := Arena.push tree.nodes tree.cur
      { seq := tree.nextSeq
        time := tree.dirtySince
        save := none
        snap := snap
        snapExtmarkGen := ExtmarkStore.generation snap.extmarks }
    cur := tree.nodes.length
    nextSeq := tree.nextSeq + 1
    dirty := false }

/-- What the node at an index holds, changed. -/
def modifyState (tree : UndoTree E) (idx : Nat) (change : UndoState E → UndoState E) :
    UndoTree E :=
  { tree with nodes := Arena.modifyData tree.nodes idx change }

/-- `mark_dirty`: a change group begins; a second mark keeps the first one's start. -/
def markDirty (tree : UndoTree E) (now : Int) (tick : Nat) : UndoTree E :=
  if tree.dirty then tree
  else { tree with dirty := true, dirtySince := now, dirtyTick := tick }

/-- `pending`: a group is open, and the buffer has moved since it began. -/
def pending (tree : UndoTree E) (tick : Nat) : Bool := tree.dirty && tick != tree.dirtyTick

/-- `set_cur_snapshot_cursors`: the current node takes the live cursors and marks. -/
def setCurSnapshotCursors [ExtmarkStore E] (tree : UndoTree E) (primary : Point)
    (positions : List Nat) (window : Option Nat) (extmarks : Option E)
    (marks : Char → Option Point) (liveExtmarkGen : Nat) : UndoTree E :=
  tree.modifyState tree.cur fun state =>
    let cleared := ExtmarkStore.clear (extmarks.getD state.snap.extmarks) cursorNs
    { state with
      snapExtmarkGen := liveExtmarkGen
      snap := { state.snap with
        cursor := primary
        cursorWindow := window
        marks := marks
        extmarks := positions.foldl (fun store pos => ExtmarkStore.set store cursorNs pos)
          cleared } }

/-- `cur_snapshot_extmark_gen`. -/
def curSnapshotExtmarkGen (tree : UndoTree E) : Option Nat :=
  tree.nodes[tree.cur]?.map (·.data.snapExtmarkGen)

/-- `cur_seq`. -/
def curSeq (tree : UndoTree E) : Nat :=
  match tree.nodes[tree.cur]? with
  | some node => node.data.seq
  | none => 0

/-- `seq_last`. -/
def seqLast (tree : UndoTree E) : Nat := tree.nextSeq - 1

/-- `node_of_seq`. -/
def nodeOfSeq (tree : UndoTree E) (seq : Nat) : Option Nat :=
  tree.nodes.findIdx? fun node => node.data.seq == seq

/-! ### Travel -/

/-- `on_travel_side`: at or before the current state going back, after it going forward. -/
def onTravelSide (tree : UndoTree E) (node : UndoNode E) (back : Bool) : Bool :=
  if back then decide (node.data.seq ≤ tree.curSeq) else decide (node.data.seq > tree.curSeq)

/-- The nodes with their indices. -/
def enumerate (tree : UndoTree E) : List (UndoNode E × Nat) := tree.nodes.zipIdx

/-- `end_node`: the oldest or the newest state. -/
def endNode (tree : UndoTree E) (back : Bool) : Nat :=
  let pick :=
    if back then minByKey (· < ·) (fun entry : UndoNode E × Nat => entry.1.data.seq) tree.enumerate
    else maxByKey (· < ·) (fun entry : UndoNode E × Nat => entry.1.data.seq) tree.enumerate
  match pick with
  | some (_, idx) => idx
  | none => tree.cur

/-- `node_near_seq`. -/
def nodeNearSeq (tree : UndoTree E) (target : Nat) (back : Bool) : Nat :=
  let onSide := tree.enumerate.filter fun (node, _) =>
    tree.onTravelSide node back &&
      if back then decide (node.data.seq ≤ target) else decide (node.data.seq ≥ target)
  let pick :=
    if back then maxByKey (· < ·) (fun entry : UndoNode E × Nat => entry.1.data.seq) onSide
    else minByKey (· < ·) (fun entry : UndoNode E × Nat => entry.1.data.seq) onSide
  match pick with
  | some (_, idx) => idx
  | none =>
      -- Nothing that far: the closest state still in the travel's direction.
      let sided := tree.enumerate.filter fun (node, _) => tree.onTravelSide node back
      match minByKey (· < ·)
          (fun entry : UndoNode E × Nat => absDiff entry.1.data.seq target) sided with
      | some (_, idx) => idx
      | none => tree.cur

/-- `node_near_time`. -/
def nodeNearTime (tree : UndoTree E) (target : Int) (back : Bool) : Nat :=
  let onSide := tree.enumerate.filter fun (node, _) =>
    tree.onTravelSide node back &&
      if back then decide (node.data.time ≤ target) else decide (node.data.time ≥ target)
  let key := fun entry : UndoNode E × Nat => (entry.1.data.time, entry.1.data.seq)
  let pick := if back then maxByKey ltTimeSeq key onSide else minByKey ltTimeSeq key onSide
  match pick with
  | some (_, idx) => idx
  | none => tree.endNode back

/-- The walk of `save_at_or_above_cur`, from an index up. -/
def saveAtOrAbove (tree : UndoTree E) : Nat → Nat → Option Nat
  | 0, _ => none
  | turns + 1, idx =>
      match tree.nodes[idx]? with
      | none => none
      | some node =>
          match node.data.save, node.parent with
          | some nr, _ => some nr
          | none, some parent => tree.saveAtOrAbove turns parent
          | none, none => none

/-- `save_at_or_above_cur`: the write the current state descends from. -/
def saveAtOrAboveCur (tree : UndoTree E) : Option Nat :=
  tree.saveAtOrAbove tree.nodes.length tree.cur

/-- `node_near_save`. -/
def nodeNearSave (tree : UndoTree E) (target : Int) (back : Bool) : Nat :=
  if target ≤ 0 then tree.endNode true
  else
    let target := target.toNat
    let saves := (tree.enumerate.filter fun (node, _) => tree.onTravelSide node back).filterMap
      fun (node, idx) => node.data.save.map fun nr => (idx, nr)
    let onSide := saves.filter fun (_, nr) =>
      if back then decide (nr ≤ target) else decide (nr ≥ target)
    let pick :=
      if back then maxByKey (· < ·) (fun entry : Nat × Nat => entry.2) onSide
      else minByKey (· < ·) (fun entry : Nat × Nat => entry.2) onSide
    match pick with
    | some (idx, _) => idx
    | none => tree.endNode back

/-! ### Pruning -/

/-- `child_toward_cur`: the child of an index on the way down to the current node. -/
def childTowardCur (tree : UndoTree E) (from_index : Nat) : Option Nat :=
  Arena.toward tree.nodes from_index tree.nodes.length tree.cur

/-- `reroot`: only the heir's subtree stays, with the heir as root. -/
def reroot (tree : UndoTree E) (heir : Nat) : UndoTree E :=
  match Arena.subtree tree.nodes heir with
  | some keep =>
      { tree with
        nodes := Arena.compact tree.nodes keep
        cur := (Arena.slot keep tree.cur).getD (2 ^ 64 - 1) }
  | none => tree

/-- The loop of `prune`. -/
def pruneLoop (keep : Nat) : Nat → UndoTree E → UndoTree E
  | 0, tree => tree
  | turns + 1, tree =>
      if tree.nodes.length - 1 > keep then
        match tree.childTowardCur 0 with
        | some heir => pruneLoop keep turns (tree.reroot heir)
        | none => tree
      else tree

/-- `prune`: drop the oldest states until at most `keep` remain below the root. -/
def prune (tree : UndoTree E) (keep : Nat) : UndoTree E :=
  pruneLoop keep tree.nodes.length tree

/-! ### Consistency -/

/-- A tree of states: the links are those of a tree rooted at node 0, and the seqs grow with the
index, all of them minted. -/
structure Consistent (tree : UndoTree E) : Prop where
  links : Arena.WellFormed tree.nodes
  cur_inside : tree.cur < tree.nodes.length
  seqs_increase : ∀ (i j : Nat) (a b : UndoNode E), tree.nodes[i]? = some a →
    tree.nodes[j]? = some b → i < j → a.data.seq < b.data.seq
  seqs_minted : ∀ (i : Nat) (a : UndoNode E), tree.nodes[i]? = some a → a.data.seq < tree.nextSeq

/-- A state of the tree: its seq and its text. -/
def Holds (tree : UndoTree E) (seq : Nat) (text : Text) : Prop :=
  ∃ (i : Nat) (node : UndoNode E),
    tree.nodes[i]? = some node ∧ node.data.seq = seq ∧ node.data.snap.text = text

variable {tree : UndoTree E} {seq : Nat} {text : Text} {change : UndoState E → UndoState E}

theorem Consistent.current (consistent : tree.Consistent) :
    ∃ node, tree.nodes[tree.cur]? = some node ∧ node.data.seq = tree.curSeq := by
  have found := List.getElem?_eq_getElem consistent.cur_inside
  refine ⟨_, found, ?_⟩
  rw [curSeq, found]

theorem Consistent.index_unique (consistent : tree.Consistent) {i j : Nat} {a b : UndoNode E}
    (first : tree.nodes[i]? = some a) (second : tree.nodes[j]? = some b)
    (same : a.data.seq = b.data.seq) : i = j := by
  rcases Nat.lt_trichotomy i j with lt | eq | gt
  · exact absurd same (Nat.ne_of_lt (consistent.seqs_increase i j a b first second lt))
  · exact eq
  · exact absurd same.symm (Nat.ne_of_lt (consistent.seqs_increase j i b a second first gt))

/-- A seq names one state. -/
theorem Consistent.holds_unique (consistent : tree.Consistent) {text' : Text}
    (first : tree.Holds seq text) (second : tree.Holds seq text') : text = text' := by
  rcases first with ⟨i, a, found, named, held⟩
  rcases second with ⟨j, b, found', named', held'⟩
  have same := consistent.index_unique found found' (named.trans named'.symm)
  subst same
  rw [found, Option.some.injEq] at found'
  rw [← held, ← held', found']

theorem Consistent.holds_lt (consistent : tree.Consistent) (held : tree.Holds seq text) :
    seq < tree.nextSeq := by
  rcases held with ⟨i, a, found, named, -⟩
  exact named ▸ consistent.seqs_minted i a found

/-- `node_of_seq` finds the state a seq names. -/
theorem nodeOfSeq_eq_some {i : Nat} (found : tree.nodeOfSeq seq = some i) :
    ∃ node, tree.nodes[i]? = some node ∧ node.data.seq = seq := by
  rcases List.findIdx?_eq_some_iff_getElem.1 found with ⟨bound, named, -⟩
  exact ⟨_, List.getElem?_eq_getElem bound, by simpa using named⟩

section New

variable [ExtmarkStore E]

theorem new_consistent (buffer : Buffer E) : (new buffer).Consistent := by
  have only : ∀ (i : Nat) (node : UndoNode E), (new buffer).nodes[i]? = some node →
      i = 0 ∧ node.parent = none ∧ node.children = [] ∧ node.data.seq = 0 := by
    intro i node found
    cases i with
    | zero =>
        cases found
        exact ⟨rfl, rfl, rfl, rfl⟩
    | succ i => cases found
  constructor
  · constructor
    · exact Nat.one_pos
    · intro i node found
      rcases only i node found with ⟨first, orphan, -, -⟩
      exact iff_of_true orphan first
    · intro i p link
      rcases Arena.parentOf_eq_some.1 link with ⟨node, found, above⟩
      rcases only i node found with ⟨-, orphan, -, -⟩
      rw [orphan] at above
      cases above
    · intro i node found c
      rcases only i node found with ⟨-, -, childless, -⟩
      rw [childless]
      constructor
      · intro child
        cases child
      · intro link
        rcases Arena.parentOf_eq_some.1 link with ⟨node', found', above⟩
        rcases only c node' found' with ⟨-, orphan, -, -⟩
        rw [orphan] at above
        cases above
    · intro i node found
      rcases only i node found with ⟨-, -, childless, -⟩
      rw [childless]
      exact List.Pairwise.nil
  · exact Nat.one_pos
  · intro i j a b first second smaller
    rcases only i a first with ⟨rfl, -⟩
    rcases only j b second with ⟨rfl, -⟩
    exact absurd smaller (Nat.lt_irrefl 0)
  · intro i a found
    rcases only i a found with ⟨-, -, -, named⟩
    rw [named]
    exact Nat.one_pos

/-- **A commit** keeps the tree consistent, adds the state it was given and no other, and moves
onto it. -/
theorem commit_consistent {tree : UndoTree E} (consistent : tree.Consistent) (snap : Snapshot E) :
    (tree.commit snap).Consistent where
  links := Arena.push_wellFormed consistent.links consistent.cur_inside _
  cur_inside := by
    show tree.nodes.length < (Arena.push tree.nodes tree.cur _).length
    rw [Arena.push_length]
    exact Nat.lt_succ_self _
  seqs_increase := by
    intro i j a b first second smaller
    rcases Arena.push_cases second with ⟨-, old', was', -, data', -⟩ | ⟨last, same⟩
    · rcases Arena.push_cases first with ⟨-, old, was, -, data, -⟩ | ⟨last, -⟩
      · rw [data, data']
        exact consistent.seqs_increase i j old old' was was' smaller
      · have bound : j < tree.nodes.length := (List.getElem?_eq_some_iff.1 was').1
        exact absurd smaller (Nat.not_lt.2 (last ▸ Nat.le_of_lt bound))
    · rcases Arena.push_cases first with ⟨-, old, was, -, data, -⟩ | ⟨last', -⟩
      · rw [data, same]
        exact consistent.seqs_minted i old was
      · exact absurd smaller (by rw [last, last']; exact Nat.lt_irrefl _)
  seqs_minted := by
    intro i a found
    rcases Arena.push_cases found with ⟨-, old, was, -, data, -⟩ | ⟨-, same⟩
    · rw [data]
      exact Nat.lt_succ_of_lt (consistent.seqs_minted i old was)
    · rw [same]
      exact Nat.lt_succ_self _

theorem commit_holds {tree : UndoTree E} {snap : Snapshot E} {seq : Nat} {text : Text}
    (held : (tree.commit snap).Holds seq text) :
    tree.Holds seq text ∨ (seq = tree.nextSeq ∧ text = snap.text) := by
  rcases held with ⟨i, node, found, named, held⟩
  rcases Arena.push_cases found with ⟨-, old, was, -, data, -⟩ | ⟨-, same⟩
  · exact Or.inl ⟨i, old, was, data ▸ named, data ▸ held⟩
  · subst same
    exact Or.inr ⟨named.symm, held.symm⟩

theorem commit_current (tree : UndoTree E) (snap : Snapshot E) :
    ∃ node, (tree.commit snap).nodes[(tree.commit snap).cur]? = some node ∧
      node.data.seq = tree.nextSeq ∧ node.data.snap = snap :=
  ⟨_, Arena.push_new tree.nodes tree.cur _, rfl, rfl⟩

end New

/-! ### Pruning keeps the tree -/

/-- A tree with some states dropped: the current one stays, and no state is new. -/
structure Restricts (tree tree' : UndoTree E) : Prop where
  consistent : tree'.Consistent
  nextSeq : tree'.nextSeq = tree.nextSeq
  dirty : tree'.dirty = tree.dirty
  dirtyTick : tree'.dirtyTick = tree.dirtyTick
  current : ∃ node node', tree.nodes[tree.cur]? = some node ∧
    tree'.nodes[tree'.cur]? = some node' ∧ node'.data = node.data
  states : ∀ (i : Nat) (node' : UndoNode E), tree'.nodes[i]? = some node' →
    ∃ (j : Nat) (node : UndoNode E), tree.nodes[j]? = some node ∧ node.data = node'.data

theorem Restricts.refl (consistent : tree.Consistent) : Restricts tree tree where
  consistent := consistent
  nextSeq := rfl
  dirty := rfl
  dirtyTick := rfl
  current := by
    rcases consistent.current with ⟨node, found, -⟩
    exact ⟨node, node, found, found, rfl⟩
  states := by
    intro i node found
    exact ⟨i, node, found, rfl⟩

theorem Restricts.trans {first second third : UndoTree E} (one : Restricts first second)
    (two : Restricts second third) : Restricts first third where
  consistent := two.consistent
  nextSeq := two.nextSeq.trans one.nextSeq
  dirty := two.dirty.trans one.dirty
  dirtyTick := two.dirtyTick.trans one.dirtyTick
  current := by
    rcases one.current with ⟨node, middle, found, found', same⟩
    rcases two.current with ⟨middle', last, found'', found''', same'⟩
    rw [found', Option.some.injEq] at found''
    subst found''
    exact ⟨node, last, found, found''', same'.trans same⟩
  states := by
    intro i last found
    rcases two.states i last found with ⟨j, middle, found', same⟩
    rcases one.states j middle found' with ⟨k, node, found'', same'⟩
    exact ⟨k, node, found'', same'.trans same⟩

theorem Restricts.holds {tree' : UndoTree E} (restricts : Restricts tree tree')
    (held : tree'.Holds seq text) : tree.Holds seq text := by
  rcases held with ⟨i, node', found, named, held⟩
  rcases restricts.states i node' found with ⟨j, node, was, same⟩
  exact ⟨j, node, was, same ▸ named, same ▸ held⟩

/-- **Re-rooting** at an ancestor of the current state keeps a consistent tree, and drops the old
root. -/
theorem reroot_restricts (consistent : tree.Consistent) {heir : Nat}
    (inside : heir < tree.nodes.length) (lower : heir ≠ 0)
    (below : Arena.Below tree.nodes heir tree.cur) : Restricts tree (tree.reroot heir) ∧
      (tree.reroot heir).nodes.length < tree.nodes.length := by
  rcases Arena.subtree_spec consistent.links inside with ⟨keep, collected, sorted, members⟩
  have kept_inside : ∀ i ∈ keep, i < tree.nodes.length := by
    intro i kept
    exact ((members i).1 kept).lt_length inside
  rcases List.getElem?_of_mem ((members tree.cur).2 below) with ⟨slot, kept⟩
  rcases consistent.current with ⟨node, found, -⟩
  rcases Arena.compact_kept kept_inside kept found with ⟨node', found', data⟩
  have landed : (tree.reroot heir).cur = slot := by
    rw [reroot, collected]
    simp only
    rw [(Arena.slot_eq_some sorted).2 kept]
    rfl
  have nodes : (tree.reroot heir).nodes = Arena.compact tree.nodes keep := by
    rw [reroot, collected]
  refine ⟨⟨⟨?_, ?_, ?_, ?_⟩, ?_, ?_, ?_, ?_, ?_⟩, ?_⟩
  · rw [nodes]
    exact Arena.compact_wellFormed consistent.links inside sorted members
  · rw [nodes, landed]
    exact (List.getElem?_eq_some_iff.1 found').1
  · intro i j a b first second smaller
    rw [nodes] at first second
    rcases Arena.compact_cases kept_inside first with ⟨i', a', from_i, was, data, -, -⟩
    rcases Arena.compact_cases kept_inside second with ⟨j', b', from_j, was', data', -, -⟩
    rw [data, data']
    apply consistent.seqs_increase i' j' a' b' was was'
    exact (Arena.sorted_getElem? sorted from_i from_j).2 smaller
  · intro i a found
    rw [nodes] at found
    rcases Arena.compact_cases kept_inside found with ⟨j, old, -, was, data, -, -⟩
    rw [data]
    have minted := consistent.seqs_minted j old was
    rw [reroot, collected]
    exact minted
  · rw [reroot, collected]
  · rw [reroot, collected]
  · rw [reroot, collected]
  · rw [nodes, landed]
    exact ⟨node, node', found, found', data⟩
  · intro i last found
    rw [nodes] at found
    rcases Arena.compact_cases kept_inside found with ⟨j, old, -, was, data, -, -⟩
    exact ⟨j, old, was, data.symm⟩
  · rw [nodes, Arena.compact_length kept_inside]
    -- The old root is not below the heir.
    have distinct : (0 :: keep).Nodup := by
      apply List.nodup_cons.2
      constructor
      · intro kept
        have above := Arena.Below.le consistent.links ((members 0).1 kept)
        exact lower (Nat.le_zero.1 above)
      · exact sorted.imp fun smaller => Nat.ne_of_lt smaller
    have bounded : (0 :: keep) ⊆ List.range tree.nodes.length := by
      intro i member
      rcases List.mem_cons.1 member with first | kept
      · exact List.mem_range.2 (first ▸ consistent.links.nonempty)
      · exact List.mem_range.2 (kept_inside i kept)
    have shorter := (distinct.subperm bounded).length_le
    rw [List.length_range, List.length_cons] at shorter
    exact shorter

/-- The path to re-root along. -/
theorem childTowardCur_spec (consistent : tree.Consistent) (lower : tree.cur ≠ 0) :
    ∃ heir, tree.childTowardCur 0 = some heir ∧
      heir < tree.nodes.length ∧ heir ≠ 0 ∧ Arena.Below tree.nodes heir tree.cur := by
  rcases Arena.toward_spec consistent.links consistent.cur_inside lower consistent.cur_inside with
    ⟨heir, found, link, below⟩
  refine ⟨heir, found, Arena.lt_of_parentOf link, ?_, below⟩
  intro root
  subst root
  exact absurd (consistent.links.parent_lt 0 0 link) (Nat.lt_irrefl 0)

theorem pruneLoop_restricts (consistent : tree.Consistent) (keep turns : Nat)
    (enough : tree.nodes.length ≤ turns + 1) : Restricts tree (pruneLoop keep turns tree) ∧
      ((pruneLoop keep turns tree).nodes.length ≤ keep + 1 ∨
        (pruneLoop keep turns tree).cur = 0) := by
  induction turns generalizing tree with
  | zero =>
      refine ⟨Restricts.refl consistent, Or.inl ?_⟩
      exact Nat.le_trans enough (Nat.le_add_left _ _)
  | succ turns ih =>
      rw [pruneLoop]
      by_cases excess : tree.nodes.length - 1 > keep
      · rw [if_pos excess]
        by_cases root : tree.cur = 0
        · have stuck : tree.childTowardCur 0 = none := by
            rw [childTowardCur, root]
            exact Arena.toward_root consistent.links _
          rw [stuck]
          exact ⟨Restricts.refl consistent, Or.inr root⟩
        · rcases childTowardCur_spec consistent root with ⟨heir, found, inside, lower, below⟩
          rw [found]
          rcases reroot_restricts consistent inside lower below with ⟨restricts, shorter⟩
          have rest := ih restricts.consistent (by omega)
          exact ⟨restricts.trans rest.1, rest.2⟩
      · rw [if_neg excess]
        exact ⟨Restricts.refl consistent, Or.inl (by omega)⟩

/-- **Pruning** drops states only, never the current one, and ends with at most `keep` below the
root unless the current state is the root. -/
theorem prune_restricts (consistent : tree.Consistent) (keep : Nat) :
    Restricts tree (tree.prune keep) ∧
      ((tree.prune keep).nodes.length ≤ keep + 1 ∨ (tree.prune keep).cur = 0) :=
  pruneLoop_restricts consistent keep tree.nodes.length (Nat.le_succ _)

/-! ### Changes that keep every state -/

/-- A change to what the current node holds that keeps its seq and its text. -/
theorem modifyState_consistent (consistent : tree.Consistent) (idx : Nat)
    (named : ∀ state, (change state).seq = state.seq) :
    (tree.modifyState idx change).Consistent := by
  have seqs : ∀ (i : Nat) (a : UndoNode E), (tree.modifyState idx change).nodes[i]? = some a →
      ∃ old, tree.nodes[i]? = some old ∧ a.data.seq = old.data.seq := by
    intro i a found
    rcases Arena.modifyData_cases found with ⟨old, was, -, -, data⟩
    refine ⟨old, was, ?_⟩
    rw [data]
    split
    · exact named old.data
    · rfl
  constructor
  · exact Arena.modifyData_wellFormed consistent.links idx change
  · show tree.cur < (Arena.modifyData tree.nodes idx change).length
    rw [Arena.modifyData_length]
    exact consistent.cur_inside
  · intro i j a b first second smaller
    rcases seqs i a first with ⟨old, was, same⟩
    rcases seqs j b second with ⟨old', was', same'⟩
    rw [same, same']
    exact consistent.seqs_increase i j old old' was was' smaller
  · intro i a found
    rcases seqs i a found with ⟨old, was, same⟩
    rw [same]
    exact consistent.seqs_minted i old was

theorem modifyState_curSeq (consistent : tree.Consistent) (idx : Nat)
    (named : ∀ state, (change state).seq = state.seq) :
    (tree.modifyState idx change).curSeq = tree.curSeq := by
  rcases consistent.current with ⟨old, was, seq⟩
  rcases Arena.modifyData_found idx change was with ⟨node, found, -, data⟩
  have landed : (tree.modifyState idx change).nodes[(tree.modifyState idx change).cur]? =
      some node := found
  rw [curSeq, landed, ← seq]
  simp only
  rw [data]
  split
  · exact named old.data
  · rfl

theorem modifyState_holds {idx : Nat} (named : ∀ state, (change state).seq = state.seq)
    (text_kept : ∀ state, (change state).snap.text = state.snap.text) :
    (tree.modifyState idx change).Holds seq text ↔ tree.Holds seq text := by
  constructor
  · rintro ⟨i, node, found, same_seq, same_text⟩
    rcases Arena.modifyData_cases found with ⟨old, was, -, -, data⟩
    subst same_seq same_text
    refine ⟨i, old, was, ?_, ?_⟩
    · rw [data]
      split
      · exact (named old.data).symm
      · rfl
    · rw [data]
      split
      · exact (text_kept old.data).symm
      · rfl
  · rintro ⟨i, old, was, same_seq, same_text⟩
    rcases Arena.modifyData_found idx change was with ⟨node, found, -, data⟩
    subst same_seq same_text
    refine ⟨i, node, found, ?_, ?_⟩
    · rw [data]
      split
      · exact named old.data
      · rfl
    · rw [data]
      split
      · exact text_kept old.data
      · rfl

/-! ### Travel lands on a state -/

theorem mem_enumerate {entry : UndoNode E × Nat} :
    entry ∈ tree.enumerate ↔ tree.nodes[entry.2]? = some entry.1 :=
  List.mem_zipIdx_iff_getElem?

theorem enumerate_found {entry : UndoNode E × Nat} (listed : entry ∈ tree.enumerate) :
    entry.2 < tree.nodes.length :=
  (List.getElem?_eq_some_iff.1 (mem_enumerate.1 listed)).1

theorem endNode_lt (consistent : tree.Consistent) (back : Bool) :
    tree.endNode back < tree.nodes.length := by
  unfold endNode
  cases back with
  | false =>
      simp only [Bool.false_eq_true, if_false]
      split
      · next entry idx picked => exact enumerate_found (maxByKey_mem picked)
      · exact consistent.cur_inside
  | true =>
      simp only [if_true]
      split
      · next entry idx picked => exact enumerate_found (minByKey_mem picked)
      · exact consistent.cur_inside

theorem nodeNearSeq_lt (consistent : tree.Consistent) (target : Nat) (back : Bool) :
    tree.nodeNearSeq target back < tree.nodes.length := by
  unfold nodeNearSeq
  simp only
  split
  · next entry idx picked => exact enumerate_found (List.mem_of_mem_filter (pick_mem picked))
  · split
    · next entry idx picked => exact enumerate_found (List.mem_of_mem_filter (minByKey_mem picked))
    · exact consistent.cur_inside

theorem nodeNearTime_lt (consistent : tree.Consistent) (target : Int) (back : Bool) :
    tree.nodeNearTime target back < tree.nodes.length := by
  unfold nodeNearTime
  simp only
  split
  · next entry idx picked => exact enumerate_found (List.mem_of_mem_filter (pick_mem picked))
  · exact endNode_lt consistent back

theorem nodeNearSave_lt (consistent : tree.Consistent) (target : Int) (back : Bool) :
    tree.nodeNearSave target back < tree.nodes.length := by
  unfold nodeNearSave
  split
  · exact endNode_lt consistent true
  · simp only
    split
    · next idx nr picked =>
        have listed := List.mem_of_mem_filter (pick_mem picked)
        rcases List.mem_filterMap.1 listed with ⟨entry, sided, stamped⟩
        rcases Option.map_eq_some_iff.1 stamped with ⟨nr', -, same⟩
        cases same
        exact enumerate_found (List.mem_of_mem_filter sided)
    · exact endNode_lt consistent back

end UndoTree

/-- `undo_levels_to_keep`. -/
def undoLevelsToKeep (undolevels : Int) : Nat :=
  if undolevels < 0 then 0 else max undolevels.toNat 1

end Bemtvi.Core
