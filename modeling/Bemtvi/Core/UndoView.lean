/-
Module: Bemtvi.Core.UndoView
Purpose: What `undotree()` and `:undolist` show of the undo tree: the entries as nested spines with
  the pending edit woven in, and the rows of the leaves.  Read back by the spine rule the entries
  are the states below the root; the rows are the childless ones, or the root where it is alone.
Trusted boundary: human-reviewed model of bemtvi-core/src/editor/undo.rs:315-361, 472-574; the
  recursion is bounded by the number of nodes, which `Consistent` says is enough
Main exports: UndoEntry, UndoTreeView, UndoTree.view, UndoTree.leaves, decode, UndoTree.states,
  decode_view, leaves_childless, undo_view_faithful
-/
import Bemtvi.Core.UndoRuns
import Bemtvi.Lib.Spines

namespace Bemtvi.Core

open Utf8
open Run (run run_invariant)

variable {E : Type}

/-! ### The projection -/

/-- `UndoEntry`: a state, and in `alt` the siblings behind it. -/
structure UndoEntry where
  seq : Nat
  time : Int
  save : Option Nat
  alt : List UndoEntry

/-- `UndoTreeView`. -/
structure UndoTreeView where
  seqLast : Nat
  seqCur : Nat
  saveLast : Nat
  saveCur : Nat
  timeCur : Int
  entries : List UndoEntry

/-- `UndoLeaf`: a row of `:undolist`. -/
structure UndoLeaf where
  seq : Nat
  changes : Nat
  time : Int
  save : Option Nat
deriving Repr, DecidableEq

/-- `Pending`: where the pending edit forks off, the seq it will take, and when it began. -/
abbrev Pending := Option (Nat × Nat × Int)

/-- `SibItem`. -/
inductive SibItem where
  | real (idx : Nat)
  | pending (seq : Nat) (time : Int)

namespace UndoTree

/-- `encode_sibs`, with the encoding of a node's children. -/
def encodeSibs (tree : UndoTree E) (encodeChildren : Nat → List UndoEntry) :
    List SibItem → List UndoEntry
  | [] => []
  | .real c :: rest =>
      match tree.nodes[c]? with
      | some n =>
          { seq := n.data.seq
            time := n.data.time
            save := n.data.save
            alt := tree.encodeSibs encodeChildren rest } :: encodeChildren c
      | none => []
  | .pending seq time :: rest =>
      [{ seq := seq, time := time, save := none, alt := tree.encodeSibs encodeChildren rest }]

/-- The siblings below a parent: its children, and the pending edit where it forks here. -/
def sibItems (tree : UndoTree E) (parent : Nat) (pending : Pending) : List SibItem :=
  let sibs := (Arena.childrenOf tree.nodes parent).map .real
  match pending with
  | some (p, seq, time) => if p = parent then sibs ++ [.pending seq time] else sibs
  | none => sibs

/-- `encode_children`. -/
def encodeChildren (tree : UndoTree E) (pending : Pending) : Nat → Nat → List UndoEntry
  | 0, _ => []
  | turns + 1, parent =>
      tree.encodeSibs (tree.encodeChildren pending turns) (tree.sibItems parent pending)

/-- The pending edit of a buffer at a tick. -/
def pendingEdit (tree : UndoTree E) (tick : Nat) : Pending :=
  if tree.pending tick then some (tree.cur, tree.nextSeq, tree.dirtySince) else none

/-- `view`: what `undotree()` returns. -/
def view (tree : UndoTree E) (tick : Nat) : UndoTreeView :=
  let pending := tree.pendingEdit tick
  let (seqCur, seqLast, timeCur) :=
    match pending with
    | some (_, seq, time) => (seq, seq, time)
    | none => (tree.curSeq, tree.seqLast, (tree.nodes[tree.cur]?.map (·.data.time)).getD 0)
  { seqLast := seqLast
    seqCur := seqCur
    saveLast := tree.saveLast
    saveCur := tree.saveAtOrAboveCur.getD 0
    timeCur := timeCur
    entries := tree.encodeChildren pending (tree.nodes.length + 1) 0 }

/-- `depth_of`. -/
def depthOf (tree : UndoTree E) (idx : Nat) : Nat := Arena.depth tree.nodes idx

/-- The row of a node. -/
def leafRow (tree : UndoTree E) (entry : UndoNode E × Nat) : UndoLeaf where
  seq := entry.1.data.seq
  changes := tree.depthOf entry.2
  time := entry.1.data.time
  save := entry.1.data.save

/-- `leaves`, before they are sorted. -/
def tips (tree : UndoTree E) (tick : Nat) : List UndoLeaf :=
  let pending := tree.pending tick
  let rows := (tree.enumerate.filter fun (n, i) =>
    n.children.isEmpty && !(pending && i == tree.cur)).map tree.leafRow
  if pending then
    rows ++ [{ seq := tree.nextSeq
               changes := tree.depthOf tree.cur + 1
               time := tree.dirtySince
               save := none }]
  else rows

/-- `leaves`: the tips of the branches, oldest first. -/
def leaves (tree : UndoTree E) (tick : Nat) : List UndoLeaf :=
  (tree.tips tick).insertionSort (·.seq ≤ ·.seq)

end UndoTree

/-! ### The spine rule -/

/-- A state read back from the entries: below the root, or below the state of some seq. -/
structure Decoded where
  seq : Nat
  time : Int
  save : Option Nat
  parent : Option Nat
  depth : Nat
deriving Repr, DecidableEq

mutual

/-- An entry below a parent, and the further children of that parent. -/
def decodeEntry (parent : Option Nat) (depth : Nat) : UndoEntry → List Decoded
  | ⟨seq, time, save, alt⟩ =>
      { seq := seq, time := time, save := save, parent := parent, depth := depth + 1 } ::
        decode parent depth alt

/-- A list below a parent: its first entry, and the descendants of that entry. -/
def decode (parent : Option Nat) (depth : Nat) : List UndoEntry → List Decoded
  | [] => []
  | entry :: rest => decodeEntry parent depth entry ++ decode (some entry.seq) (depth + 1) rest

end

/-- The row of a state. -/
def Decoded.leaf (state : Decoded) : UndoLeaf where
  seq := state.seq
  changes := state.depth
  time := state.time
  save := state.save

/-- No state of the list hangs below this one. -/
def Childless (states : List Decoded) (state : Decoded) : Prop :=
  ∀ child ∈ states, child.parent ≠ some state.seq

instance (states : List Decoded) : DecidablePred (Childless states) :=
  fun _ => inferInstanceAs (Decidable (∀ _ ∈ states, _))

namespace UndoTree

/-- The seq that names a parent; the root needs none. -/
def named (tree : UndoTree E) (idx : Nat) : Option Nat :=
  if idx = 0 then none else tree.nodes[idx]?.map (·.data.seq)

/-- A node as a state below its parent. -/
def stateAt (tree : UndoTree E) (entry : UndoNode E × Nat) : Decoded where
  seq := entry.1.data.seq
  time := entry.1.data.time
  save := entry.1.data.save
  parent := entry.1.parent.bind tree.named
  depth := tree.depthOf entry.2

/-- The pending edit as a state below the current one. -/
def pendingState (tree : UndoTree E) : Decoded where
  seq := tree.nextSeq
  time := tree.dirtySince
  save := none
  parent := tree.named tree.cur
  depth := tree.depthOf tree.cur + 1

/-- The states below the root, and the pending one. -/
def states (tree : UndoTree E) (tick : Nat) : List Decoded :=
  (tree.enumerate.drop 1).map tree.stateAt ++ if tree.pending tick then [tree.pendingState] else []

/-- A node as a state, by its index. -/
def stateOf (tree : UndoTree E) (idx : Nat) : Option Decoded :=
  tree.nodes[idx]?.map fun node => tree.stateAt (node, idx)

/-! ### Reading the entries back -/

/-- A list of siblings, read back, is their walk: each is read as the state it stands for, once its
children are. -/
theorem decode_encodeSibs {tree shown : UndoTree E} {encode : Nat → List UndoEntry}
    {walk : Nat → List Nat} {index : SibItem → Nat} {parent : Option Nat} {depth : Nat}
    {items : List SibItem}
    (real : ∀ c, .real c ∈ items → index (.real c) = c ∧ ∃ node, tree.nodes[c]? = some node ∧
      shown.stateOf c = some ⟨node.data.seq, node.data.time, node.data.save, parent, depth + 1⟩ ∧
      decode (some node.data.seq) (depth + 1) (encode c) = (walk c).filterMap shown.stateOf)
    (pending : ∀ seq time, .pending seq time ∈ items →
      shown.stateOf (index (.pending seq time)) = some ⟨seq, time, none, parent, depth + 1⟩ ∧
      walk (index (.pending seq time)) = []) :
    decode parent depth (tree.encodeSibs encode items) =
      (Arena.siblings walk (items.map index)).filterMap shown.stateOf := by
  induction items with
  | nil => rw [encodeSibs, decode, List.map_nil, Arena.siblings, List.filterMap_nil]
  | cons item rest ih =>
      have behind := ih (fun c member => real c (List.mem_cons_of_mem _ member))
        (fun seq time member => pending seq time (List.mem_cons_of_mem _ member))
      rw [List.map_cons, Arena.siblings]
      cases item with
      | real c =>
          rcases real c List.mem_cons_self with ⟨same, node, found, shown_as, below⟩
          rw [same, List.filterMap_cons_some shown_as, List.filterMap_append, ← behind, ← below,
            encodeSibs, found]
          simp only [decode, decodeEntry, List.cons_append]
      | pending seq time =>
          rcases pending seq time List.mem_cons_self with ⟨shown_as, childless⟩
          rw [List.filterMap_cons_some shown_as, List.filterMap_append, ← behind, childless,
            encodeSibs]
          simp only [decode, decodeEntry, List.append_nil, List.filterMap_nil]

section Shown

variable [ExtmarkStore E] {tree : UndoTree E}

/-- The tree with its pending edit committed: the entries are its nodes. -/
def shown (tree : UndoTree E) (tick : Nat) (snap : Snapshot E) : UndoTree E :=
  if tree.pending tick then tree.commit snap else tree

theorem shown_consistent (consistent : tree.Consistent) (tick : Nat) (snap : Snapshot E) :
    (tree.shown tick snap).Consistent := by
  unfold shown
  split
  · exact commit_consistent consistent snap
  · exact consistent

/-- The node a sibling stands for. -/
def indexOf (tree : UndoTree E) : SibItem → Nat
  | .real idx => idx
  | .pending _ _ => tree.nodes.length

theorem childrenOf_shown (consistent : tree.Consistent) (tick : Nat) (snap : Snapshot E) (p : Nat) :
    Arena.childrenOf (tree.shown tick snap).nodes p =
      (tree.sibItems p (tree.pendingEdit tick)).map tree.indexOf := by
  have kept : ((Arena.childrenOf tree.nodes p).map SibItem.real).map tree.indexOf =
      Arena.childrenOf tree.nodes p := by
    rw [List.map_map]
    exact List.map_id _
  unfold shown pendingEdit sibItems
  by_cases pending : tree.pending tick = true
  · simp only [pending, if_true]
    show Arena.childrenOf (Arena.push tree.nodes tree.cur _) p = _
    rw [Arena.childrenOf_push consistent.cur_inside]
    by_cases here : tree.cur = p
    · rw [if_pos here, if_pos here, List.map_append, kept]
      rfl
    · rw [if_neg here, if_neg here, List.append_nil, kept]
  · simp only [pending, if_false, Bool.false_eq_true]
    exact kept.symm

variable {i tick : Nat} {node : UndoNode E} {snap : Snapshot E}

theorem named_shown (tree : UndoTree E) (tick : Nat) (snap : Snapshot E)
    (inside : i < tree.nodes.length) : (tree.shown tick snap).named i = tree.named i := by
  unfold shown
  split
  · have found : (tree.commit snap).nodes[i]? = _ := Arena.push_old inside
    rw [named, named, found, Option.map_map]
    congr 2
    funext node
    by_cases same : tree.cur = i <;> simp [same]
  · rfl

theorem depthOf_shown (consistent : tree.Consistent) (tick : Nat) (snap : Snapshot E)
    (inside : i < tree.nodes.length) : (tree.shown tick snap).depthOf i = tree.depthOf i := by
  unfold shown
  split
  · exact consistent.links.depth_push consistent.cur_inside _ inside
  · rfl

/-- A state of the tree is shown as it is. -/
theorem stateOf_shown (consistent : tree.Consistent) (tick : Nat) (snap : Snapshot E)
    (inside : i < tree.nodes.length) : (tree.shown tick snap).stateOf i = tree.stateOf i := by
  have kept : ∃ node, (tree.shown tick snap).nodes[i]? = some node ∧
      node.parent = tree.nodes[i].parent ∧ node.data = tree.nodes[i].data := by
    unfold shown
    split
    · have found : (tree.commit snap).nodes[i]? = _ := Arena.push_old inside
      rw [List.getElem?_eq_getElem inside, Option.map_some] at found
      refine ⟨_, found, ?_, ?_⟩
      · split <;> rfl
      · split <;> rfl
    · exact ⟨_, List.getElem?_eq_getElem inside, rfl, rfl⟩
  rcases kept with ⟨node, found, parent, data⟩
  have above : node.parent.bind (tree.shown tick snap).named =
      tree.nodes[i].parent.bind tree.named := by
    rw [parent]
    cases up : tree.nodes[i].parent with
    | none => rfl
    | some p =>
        have link := Arena.parentOf_eq_some.2 ⟨_, List.getElem?_eq_getElem inside, up⟩
        have lower := consistent.links.parent_lt i p link
        exact named_shown tree tick snap (Nat.lt_trans lower inside)
  rw [stateOf, stateOf, found, List.getElem?_eq_getElem inside, Option.map_some, Option.map_some,
    stateAt, stateAt, above, data, depthOf_shown consistent tick snap inside]

omit [ExtmarkStore E] in
theorem stateOf_child (consistent : tree.Consistent) {p c : Nat}
    (link : Arena.parentOf tree.nodes c = some p) (found : tree.nodes[c]? = some node) :
    tree.stateOf c = some ⟨node.data.seq, node.data.time, node.data.save, tree.named p,
      tree.depthOf p + 1⟩ := by
  have above : node.parent = some p := by
    rcases Arena.parentOf_eq_some.1 link with ⟨node', found', above⟩
    rw [found, Option.some.injEq] at found'
    exact found' ▸ above
  rw [stateOf, found, Option.map_some, stateAt, above, depthOf, consistent.links.depth_child link]
  rfl

omit [ExtmarkStore E] in
theorem named_child (consistent : tree.Consistent) {p c : Nat}
    (link : Arena.parentOf tree.nodes c = some p) (found : tree.nodes[c]? = some node) :
    tree.named c = some node.data.seq := by
  have lower := consistent.links.parent_lt c p link
  rw [named, if_neg (Nat.ne_of_gt (Nat.lt_of_le_of_lt (Nat.zero_le p) lower)), found]
  rfl

theorem shown_pending (pending : tree.pending tick = true) :
    tree.shown tick snap = tree.commit snap := if_pos pending

theorem shown_settled (settled : ¬ tree.pending tick = true) :
    tree.shown tick snap = tree := if_neg settled

/-- The pending edit is shown as the node a commit will make of it. -/
theorem stateOf_shown_pending (consistent : tree.Consistent) (snap : Snapshot E)
    (pending : tree.pending tick = true) : (tree.shown tick snap).stateOf tree.nodes.length =
      some ⟨tree.nextSeq, tree.dirtySince, none, (tree.shown tick snap).named tree.cur,
        (tree.shown tick snap).depthOf tree.cur + 1⟩ := by
  have committed := shown_consistent consistent tick snap
  rw [shown_pending pending] at committed ⊢
  exact stateOf_child committed (Arena.parentOf_push_new _ _ _) (Arena.push_new _ _ _)

/-- **The entries below a node**, read back, are the walk below it. -/
theorem decode_encodeChildren (consistent : tree.Consistent) (tick : Nat) (snap : Snapshot E)
    (turns p : Nat) :
    decode ((tree.shown tick snap).named p) ((tree.shown tick snap).depthOf p)
        (tree.encodeChildren (tree.pendingEdit tick) turns p) =
      (Arena.spine (tree.shown tick snap).nodes turns p).filterMap
        (tree.shown tick snap).stateOf := by
  have shown := shown_consistent consistent tick snap
  induction turns generalizing p with
  | zero => rw [encodeChildren, Arena.spine, decode, List.filterMap_nil]
  | succ turns ih =>
      rw [encodeChildren, Arena.spine, childrenOf_shown consistent]
      have child : ∀ item ∈ tree.sibItems p (tree.pendingEdit tick),
          Arena.parentOf (tree.shown tick snap).nodes (tree.indexOf item) = some p := by
        intro item member
        rw [← shown.links.mem_childrenOf, childrenOf_shown consistent]
        exact List.mem_map_of_mem member
      apply decode_encodeSibs
      · intro c member
        refine ⟨rfl, ?_⟩
        have link : Arena.parentOf (tree.shown tick snap).nodes c = some p := child _ member
        rcases Arena.parentOf_eq_some.1 link with ⟨node', found', -⟩
        have old : c < tree.nodes.length := by
          have listed : c ∈ Arena.childrenOf tree.nodes p := by
            unfold sibItems at member
            split at member
            · split at member
              · simpa using member
              · simpa using member
            · simpa using member
          exact Arena.lt_of_parentOf (consistent.links.mem_childrenOf.1 listed)
        have found := List.getElem?_eq_getElem old
        have shown_as := stateOf_child shown link found'
        have same := stateOf_shown consistent tick snap old
        rw [shown_as, stateOf, found, Option.map_some, Option.some.injEq, stateAt,
          Decoded.mk.injEq] at same
        rcases same with ⟨seq, time, save, -, -⟩
        refine ⟨_, found, ?_, ?_⟩
        · rw [← seq, ← time, ← save]
          exact shown_as
        · have below := ih c
          rw [named_child shown link found', depthOf, shown.links.depth_child link] at below
          rw [← seq]
          exact below
      · intro seq time member
        unfold sibItems pendingEdit at member
        by_cases pending : tree.pending tick = true
        · simp only [pending, if_true] at member
          split at member
          · next here =>
              have same : seq = tree.nextSeq ∧ time = tree.dirtySince := by simpa using member
              rw [same.1, same.2]
              subst here
              have last : (tree.shown tick snap).nodes.length = tree.nodes.length + 1 := by
                rw [shown_pending pending]
                exact Arena.push_length _ _ _
              refine ⟨stateOf_shown_pending consistent snap pending, ?_⟩
              exact shown.links.spine_last (Nat.le_of_eq last) (last ▸ Nat.lt_succ_self _)
          · simp at member
        · simp [pending] at member

end Shown

/-! ### The entries are the states -/

theorem filterMap_places {α β : Type} (f : α × Nat → β) (front back : List α) :
    (List.range' front.length back.length).filterMap
        (fun i => (front ++ back)[i]?.map fun x => f (x, i)) =
      (back.zipIdx front.length).map f := by
  induction back generalizing front with
  | nil => rfl
  | cons x back ih =>
      have rest := ih (front ++ [x])
      rw [List.length_append, List.append_assoc] at rest
      rw [List.length_cons, List.range'_succ, List.zipIdx_cons, List.map_cons,
        List.filterMap_cons_some (b := f (x, front.length)) (by simp)]
      exact congrArg _ rest

/-- The states below the root, by their indices. -/
theorem filterMap_stateOf {tree : UndoTree E} (consistent : tree.Consistent) :
    (List.range' 1 (tree.nodes.length - 1)).filterMap tree.stateOf =
      (tree.enumerate.drop 1).map tree.stateAt := by
  have nonempty := consistent.links.nonempty
  unfold stateOf enumerate
  cases held : tree.nodes with
  | nil => simp [held] at nonempty
  | cons root rest => exact filterMap_places tree.stateAt [root] rest

/-- **The projection is faithful**: read back by the spine rule, the entries are the states below
the root, with the pending one. -/
theorem decode_view [ExtmarkStore E] {tree : UndoTree E} (consistent : tree.Consistent)
    (tick : Nat) : (decode none 0 (tree.view tick).entries).Perm (tree.states tick) := by
  rcases consistent.current with ⟨node, -, -⟩
  have shown := shown_consistent consistent tick node.data.snap
  have read := decode_encodeChildren consistent tick node.data.snap (tree.nodes.length + 1) 0
  rw [named, if_pos rfl, depthOf, shown.links.depth_root] at read
  show (decode none 0 (tree.encodeChildren (tree.pendingEdit tick) (tree.nodes.length + 1) 0)).Perm _
  rw [read, states]
  by_cases pending : tree.pending tick = true
  · have length : (tree.shown tick node.data.snap).nodes.length = tree.nodes.length + 1 := by
      rw [shown_pending pending]
      exact Arena.push_length _ _ _
    apply ((shown.links.spine_root (Nat.le_of_eq length)).filterMap _).trans
    have nonempty := consistent.links.nonempty
    rw [length, Nat.add_sub_cancel, if_pos pending, ← filterMap_stateOf consistent]
    have split : List.range' 1 tree.nodes.length =
        List.range' 1 (tree.nodes.length - 1) ++ [tree.nodes.length] := by
      rcases Nat.exists_eq_succ_of_ne_zero (Nat.ne_of_gt nonempty) with ⟨n, count⟩
      rw [count, List.range'_concat, Nat.succ_sub_one, Nat.one_mul, Nat.add_comm 1 n]
    have old : (List.range' 1 (tree.nodes.length - 1)).filterMap
          (tree.shown tick node.data.snap).stateOf =
        (List.range' 1 (tree.nodes.length - 1)).filterMap tree.stateOf := by
      apply List.filterMap_congr
      intro i member
      have bound := List.mem_range'_1.1 member
      exact stateOf_shown consistent tick _ (by omega)
    rw [split, List.filterMap_append, old,
      List.filterMap_cons_some (stateOf_shown_pending consistent _ pending), List.filterMap_nil,
      named_shown _ _ _ consistent.cur_inside, depthOf_shown consistent _ _ consistent.cur_inside]
    exact List.Perm.refl _
  · rw [if_neg pending, List.append_nil, ← filterMap_stateOf consistent]
    rw [shown_settled pending]
    exact (consistent.links.spine_root (Nat.le_succ _)).filterMap _

/-! ### The rows are the leaves -/

section Leaves

variable {tree : UndoTree E} (consistent : tree.Consistent) (tick : Nat)

include consistent

theorem enumerate_eq_cons : ∃ root, tree.nodes[0]? = some root ∧
    tree.enumerate = (root, 0) :: tree.enumerate.drop 1 := by
  have nonempty := consistent.links.nonempty
  unfold enumerate
  cases held : tree.nodes with
  | nil => simp [held] at nonempty
  | cons root rest => exact ⟨root, rfl, rfl⟩

/-- The seqs grow along the nodes. -/
theorem enumerate_pairwise :
    tree.enumerate.Pairwise fun a b => a.1.data.seq < b.1.data.seq := by
  unfold enumerate
  apply List.pairwise_iff_getElem.2
  intro i j inside inside' smaller
  rw [List.length_zipIdx] at inside inside'
  rw [List.getElem_zipIdx, List.getElem_zipIdx]
  exact consistent.seqs_increase i j _ _ (List.getElem?_eq_getElem inside)
    (List.getElem?_eq_getElem inside') smaller

variable {entry : UndoNode E × Nat}

theorem seq_minted (listed : entry ∈ tree.enumerate) : entry.1.data.seq < tree.nextSeq :=
  consistent.seqs_minted entry.2 entry.1 (mem_enumerate.1 listed)

/-- The rows stand by seq already. -/
theorem tips_pairwise : (tree.tips tick).Pairwise (·.seq < ·.seq) := by
  have rows : ((tree.enumerate.filter fun (n, i) =>
      n.children.isEmpty && !(tree.pending tick && i == tree.cur)).map tree.leafRow).Pairwise
        (·.seq < ·.seq) := by
    rw [List.pairwise_map]
    exact (enumerate_pairwise consistent).sublist List.filter_sublist
  unfold tips
  simp only
  split
  · rw [List.pairwise_append]
    refine ⟨rows, List.pairwise_singleton _ _, ?_⟩
    intro row listed last only
    rw [List.mem_singleton] at only
    rcases List.mem_map.1 listed with ⟨entry, kept, same⟩
    subst same only
    exact seq_minted consistent (List.mem_of_mem_filter kept)
  · exact rows

theorem leaves_eq_tips : tree.leaves tick = tree.tips tick := by
  apply List.Pairwise.insertionSort_eq
  exact (tips_pairwise consistent tick).imp Nat.le_of_lt

theorem states_pairwise : (tree.states tick).Pairwise (·.seq < ·.seq) := by
  have real : ((tree.enumerate.drop 1).map tree.stateAt).Pairwise (·.seq < ·.seq) := by
    rw [List.pairwise_map]
    exact (enumerate_pairwise consistent).sublist (List.drop_sublist 1 _)
  unfold states
  split
  · rw [List.pairwise_append]
    refine ⟨real, List.pairwise_singleton _ _, ?_⟩
    intro state listed last only
    rw [List.mem_singleton] at only
    rcases List.mem_map.1 listed with ⟨entry, kept, same⟩
    subst same only
    exact seq_minted consistent (List.mem_of_mem_drop kept)
  · rw [List.append_nil]
    exact real

theorem mem_enumerate_drop : entry ∈ tree.enumerate.drop 1 ↔
    entry.2 ≠ 0 ∧ tree.nodes[entry.2]? = some entry.1 := by
  rcases enumerate_eq_cons consistent with ⟨root, first, whole⟩
  have unique : (root, 0) ∉ tree.enumerate.drop 1 := by
    have ordered := enumerate_pairwise consistent
    rw [whole, List.pairwise_cons] at ordered
    exact fun again => Nat.lt_irrefl _ (ordered.1 _ again)
  rcases entry with ⟨node, i⟩
  have listed : (node, i) ∈ tree.enumerate ↔ tree.nodes[i]? = some node := mem_enumerate
  rw [whole, List.mem_cons] at listed
  constructor
  · intro kept
    have found : tree.nodes[i]? = some node := listed.1 (Or.inr kept)
    refine ⟨?_, found⟩
    intro root_again
    have root_again : i = 0 := root_again
    subst root_again
    rw [first, Option.some.injEq] at found
    exact unique (found ▸ kept)
  · rintro ⟨lower, found⟩
    rcases listed.2 found with same | kept
    · exact absurd (congrArg Prod.snd same) lower
    · exact kept

theorem mem_states {state : Decoded} : state ∈ tree.states tick ↔
    (∃ i node, i ≠ 0 ∧ tree.nodes[i]? = some node ∧ state = tree.stateAt (node, i)) ∨
      (tree.pending tick = true ∧ state = tree.pendingState) := by
  unfold states
  rw [List.mem_append, List.mem_map]
  constructor
  · rintro (⟨entry, kept, same⟩ | last)
    · rcases (mem_enumerate_drop consistent).1 kept with ⟨lower, found⟩
      exact Or.inl ⟨entry.2, entry.1, lower, found, same.symm⟩
    · split at last
      · next pending => exact Or.inr ⟨pending, List.mem_singleton.1 last⟩
      · exact absurd last List.not_mem_nil
  · rintro (⟨i, node, lower, found, same⟩ | ⟨pending, same⟩)
    · exact Or.inl ⟨(node, i), (mem_enumerate_drop consistent).2 ⟨lower, found⟩, same.symm⟩
    · rw [if_pos pending]
      exact Or.inr (List.mem_singleton.2 same)

omit consistent in
/-- A parent's name names it. -/
theorem named_eq_some {p seq : Nat} :
    tree.named p = some seq ↔ p ≠ 0 ∧ ∃ node, tree.nodes[p]? = some node ∧ node.data.seq = seq := by
  unfold named
  by_cases root : p = 0
  · simp [root]
  · simp [root, Option.map_eq_some_iff]

/-- A state below the root has no state below it exactly when its node has no child, and is not the
one a pending edit forks off. -/
theorem childless_stateAt {i : Nat} {node : UndoNode E} (lower : i ≠ 0)
    (found : tree.nodes[i]? = some node) :
    Childless (tree.states tick) (tree.stateAt (node, i)) ↔
      node.children = [] ∧ ¬ (tree.pending tick = true ∧ i = tree.cur) := by
  have name : tree.named i = some node.data.seq := named_eq_some.2 ⟨lower, node, found, rfl⟩
  have only : ∀ p, tree.named p = some node.data.seq → p = i := by
    intro p named
    rcases named_eq_some.1 named with ⟨-, node', found', same⟩
    exact consistent.index_unique found' found same
  constructor
  · intro childless
    constructor
    · apply List.eq_nil_iff_forall_not_mem.2
      intro c child
      have link := (consistent.links.children_iff i node found c).1 child
      have above := consistent.links.parent_lt c i link
      rcases Arena.parentOf_eq_some.1 link with ⟨node', found', up⟩
      apply childless _ ((mem_states consistent tick).2 (Or.inl ⟨c, node', by omega, found', rfl⟩))
      show node'.parent.bind tree.named = some node.data.seq
      rw [up]
      exact name
    · rintro ⟨pending, same⟩
      apply childless _ ((mem_states consistent tick).2 (Or.inr ⟨pending, rfl⟩))
      show tree.named tree.cur = some node.data.seq
      rw [← same]
      exact name
  · rintro ⟨childless, settled⟩ state listed below
    rcases (mem_states consistent tick).1 listed with ⟨c, node', -, found', same⟩ | ⟨pending, same⟩
    · subst same
      rcases Option.bind_eq_some_iff.1 below with ⟨p, up, named⟩
      have link := Arena.parentOf_eq_some.2 ⟨node', found', up⟩
      rw [only p named] at link
      have child := (consistent.links.children_iff i node found c).2 link
      rw [childless] at child
      exact absurd child List.not_mem_nil
    · subst same
      exact settled ⟨pending, (only _ below).symm⟩

theorem childless_pendingState : Childless (tree.states tick) tree.pendingState := by
  intro state listed below
  have minted : ∀ p, tree.named p ≠ some tree.nextSeq := by
    intro p named
    rcases named_eq_some.1 named with ⟨-, node, found, same⟩
    exact absurd (consistent.seqs_minted p node found) (same ▸ Nat.lt_irrefl _)
  rcases (mem_states consistent tick).1 listed with ⟨c, node, -, found, same⟩ | ⟨-, same⟩
  · subst same
    rcases Option.bind_eq_some_iff.1 below with ⟨p, -, named⟩
    exact minted p named
  · subst same
    exact minted tree.cur below

/-- The root has a row where it is alone. -/
theorem root_tip {root : UndoNode E} (first : tree.nodes[0]? = some root) :
    (root.children.isEmpty && !(tree.pending tick && 0 == tree.cur)) = true ↔
      tree.states tick = [] := by
  have children : root.children = [] ↔ tree.nodes.length = 1 := by
    have nonempty := consistent.links.nonempty
    constructor
    · intro childless
      by_contra more
      rcases consistent.links.parentOf_isSome (i := 1) (by omega) Nat.one_ne_zero with ⟨p, link⟩
      have above := consistent.links.parent_lt 1 p link
      rw [Nat.lt_one_iff.1 above] at link
      have child := (consistent.links.children_iff 0 root first 1).2 link
      rw [childless] at child
      exact absurd child List.not_mem_nil
    · intro alone
      apply List.eq_nil_iff_forall_not_mem.2
      intro c child
      have link := (consistent.links.children_iff 0 root first c).1 child
      have above := consistent.links.parent_lt c 0 link
      have inside := Arena.lt_of_parentOf link
      omega
  have states : tree.states tick = [] ↔ tree.nodes.length = 1 ∧ ¬ tree.pending tick = true := by
    have nonempty := consistent.links.nonempty
    unfold states
    rw [List.append_eq_nil_iff, List.map_eq_nil_iff, List.drop_eq_nil_iff]
    unfold enumerate
    rw [List.length_zipIdx]
    constructor
    · rintro ⟨few, last⟩
      refine ⟨by omega, ?_⟩
      intro pending
      rw [if_pos pending] at last
      cases last
    · rintro ⟨alone, settled⟩
      exact ⟨Nat.le_of_eq alone, if_neg settled⟩
  have inside := consistent.cur_inside
  rw [states, Bool.and_eq_true, List.isEmpty_iff, children]
  constructor
  · rintro ⟨alone, settled⟩
    refine ⟨alone, ?_⟩
    intro pending
    have here : tree.cur = 0 := by omega
    simp [pending, here] at settled
  · rintro ⟨alone, settled⟩
    exact ⟨alone, by simp [settled]⟩

/-- **The rows** are those of the childless states, or the root's where there is no state. -/
theorem leaves_childless :
    ∃ root, tree.nodes[0]? = some root ∧ tree.leaves tick =
      if tree.states tick = [] then [tree.leafRow (root, 0)]
      else ((tree.states tick).filter fun state => Childless (tree.states tick) state).map
        Decoded.leaf := by
  rcases enumerate_eq_cons consistent with ⟨root, first, whole⟩
  refine ⟨root, first, ?_⟩
  have rest : ((tree.enumerate.drop 1).filter fun (n, i) =>
        n.children.isEmpty && !(tree.pending tick && i == tree.cur)).map tree.leafRow =
      (((tree.enumerate.drop 1).map tree.stateAt).filter fun state =>
        Childless (tree.states tick) state).map Decoded.leaf := by
    rw [List.filter_map, List.map_map]
    apply congrArg
    apply List.filter_congr
    rintro ⟨node, i⟩ kept
    rcases (mem_enumerate_drop consistent).1 kept with ⟨lower, found⟩
    have childless := childless_stateAt consistent tick lower found
    rw [Bool.eq_iff_iff, Function.comp_apply, decide_eq_true_iff, childless]
    simp [imp_iff_not_or]
  have tip := root_tip consistent tick first
  have rows : tree.tips tick = (if tree.states tick = [] then [tree.leafRow (root, 0)] else []) ++
      (((tree.enumerate.drop 1).map tree.stateAt).filter fun state =>
        Childless (tree.states tick) state).map Decoded.leaf ++
      if tree.pending tick then [tree.pendingState.leaf] else [] := by
    unfold tips
    simp only
    rw [← rest]
    conv_lhs => rw [whole, List.filter_cons]
    simp only [tip]
    by_cases alone : tree.states tick = []
    · rw [if_pos alone, if_pos alone, List.map_cons]
      split
      · rfl
      · rw [List.append_nil]
        rfl
    · rw [if_neg alone, if_neg alone]
      split
      · rfl
      · rw [List.append_nil, List.nil_append]
  rw [leaves_eq_tips consistent, rows]
  by_cases alone : tree.states tick = []
  · have parts := alone
    rw [states, List.append_eq_nil_iff] at parts
    have settled : ¬ tree.pending tick = true := by
      intro pending
      rw [if_pos pending] at parts
      cases parts.2
    rw [if_pos alone, if_pos alone, if_neg settled, parts.1]
    rfl
  · rw [if_neg alone, if_neg alone, List.nil_append]
    have parts : (tree.states tick).filter (fun state => Childless (tree.states tick) state) =
        ((tree.enumerate.drop 1).map tree.stateAt).filter
            (fun state => Childless (tree.states tick) state) ++
          (if tree.pending tick then [tree.pendingState] else []).filter
            (fun state => Childless (tree.states tick) state) := List.filter_append _ _
    rw [parts, List.map_append]
    congr 1
    split
    · have childless := childless_pendingState consistent tick
      rw [List.filter_singleton, decide_eq_true childless]
      rfl
    · rfl

end Leaves

end UndoTree

/-! ### Over whole runs -/

theorem childless_perm {states states' : List Decoded} (same : states.Perm states')
    (state : Decoded) : Childless states state ↔ Childless states' state := by
  constructor
  · exact fun childless child listed => childless child (same.mem_iff.2 listed)
  · exact fun childless child listed => childless child (same.mem_iff.1 listed)

namespace UndoRuns

variable [ExtmarkStore E]

/-- **The undo tree is shown as it is.**  In every state a run reaches, and at every tick of the
buffer: the entries, read back by the spine rule, are the states below the root, each once, with
the pending one below the current; the rows are those of the states without children, oldest
first, and where there is no state below the root they are the root's own row. -/
theorem undo_view_faithful [Alphabet] (buffer : Buffer E) (around : Surroundings)
    (events : List (Event E)) (editor : Editor E)
    (reached : run step (.start buffer around) events = some editor) (tick : Nat) :
    let tree := editor.undoTree
    let decoded := decode none 0 (tree.view tick).entries
    decoded.Perm (tree.states tick) ∧ (decoded.map (·.seq)).Nodup ∧
    (tree.leaves tick).Pairwise (·.seq < ·.seq) ∧
    (decoded ≠ [] →
      (tree.leaves tick).Perm ((decoded.filter fun state => Childless decoded state).map
        Decoded.leaf)) ∧
    (decoded = [] → ∃ root, tree.nodes = [root] ∧
      tree.leaves tick = [⟨root.data.seq, 0, root.data.time, root.data.save⟩]) := by
  intro tree decoded
  have consistent : tree.Consistent := (run_sound reached).consistent
  have same : decoded.Perm (tree.states tick) := UndoTree.decode_view consistent tick
  have none_left : decoded = [] ↔ tree.states tick = [] := by
    rw [← List.length_eq_zero_iff, ← List.length_eq_zero_iff, same.length_eq]
  rcases UndoTree.leaves_childless consistent tick with ⟨root, first, rows⟩
  refine ⟨same, ?_, ?_, ?_, ?_⟩
  · apply ((same.map (·.seq)).nodup_iff).2
    rw [List.Nodup, List.pairwise_map]
    exact (UndoTree.states_pairwise consistent tick).imp Nat.ne_of_lt
  · rw [UndoTree.leaves_eq_tips consistent]
    exact UndoTree.tips_pairwise consistent tick
  · intro some_left
    rw [rows, if_neg (mt none_left.2 some_left)]
    apply List.Perm.map
    have kept : decoded.filter (fun state => Childless decoded state) =
        decoded.filter fun state => Childless (tree.states tick) state := by
      apply List.filter_congr
      intro state _
      exact decide_eq_decide.2 (childless_perm same state)
    rw [kept]
    exact same.symm.filter _
  · intro empty
    have alone := none_left.1 empty
    have single : tree.nodes = [root] := by
      rw [UndoTree.states, List.append_eq_nil_iff, List.map_eq_nil_iff] at alone
      rcases UndoTree.enumerate_eq_cons consistent with ⟨root', first', whole⟩
      rw [alone.1] at whole
      have count := congrArg List.length whole
      rw [UndoTree.enumerate, List.length_zipIdx] at count
      rcases List.length_eq_one_iff.1 count with ⟨only, held⟩
      rw [held] at first ⊢
      exact congrArg (fun node => [node]) (Option.some.inj first)
    refine ⟨root, single, ?_⟩
    rw [rows, if_pos alone, UndoTree.leafRow, UndoTree.depthOf, consistent.links.depth_root]

/-- Two changes from one state, the second still pending. -/
def forked : List (Event Unit) :=
  [.pushUndo, .edit (typed ['b', '\n'] 1), .undo, .pushUndo, .edit (typed ['c', '\n'] 3)]

theorem undo_view_faithful_forked :
    ∃ editor : Editor Unit, run step (.start (.ofText ['a', '\n']) calm) forked = some editor ∧
      (decode none 0 (editor.undoTree.view 3).entries).Perm
        [⟨1, 0, none, none, 1⟩, ⟨2, 0, none, none, 1⟩] := by
  have reached : ∃ editor : Editor Unit,
      run step (.start (.ofText ['a', '\n']) calm) forked = some editor ∧
        editor.undoTree.states 3 = [⟨1, 0, none, none, 1⟩, ⟨2, 0, none, none, 1⟩] := ⟨_, rfl, rfl⟩
  rcases reached with ⟨editor, reached, states⟩
  exact ⟨editor, reached, states ▸ (undo_view_faithful _ calm forked editor reached 3).1⟩

/-- With `'undolevels'` at -1 a change leaves the root alone: no entry, and the root's row. -/
theorem lone_root_is_listed :
    ∃ editor : Editor Unit,
      run step (.start (.ofText ['a', '\n']) { calm with undolevels := -1 })
          [.pushUndo, .edit (typed ['b', '\n'] 1), .commitUndo] = some editor ∧
        let decoded := decode none 0 (editor.undoTree.view 1).entries
        editor.undoTree.leaves 1 = [⟨1, 0, 0, none⟩] ∧
        ¬ (editor.undoTree.leaves 1).Perm
          ((decoded.filter fun state => Childless decoded state).map Decoded.leaf) := by
  refine ⟨_, rfl, rfl, ?_⟩
  intro same
  exact absurd same.length_eq (by decide)

end UndoRuns

end Bemtvi.Core
