/-
Module: Bemtvi.Core.UndoLaws
Purpose: The undo tree over whole runs.  Change groups, typing, atomic spans, writes and moves, in
  any order, keep the tree consistent and the live text in step with the current node; so a jump
  to a state puts back the text the state had when it was left, and undo followed by redo the
  text of the newest branch.
Trusted boundary: none
Main exports: Editor.Sound, Quiet, commitUndo_quiet, land_spec, Moved, Routed, Routed.moved
-/
import Bemtvi.Core.Undo
import Bemtvi.Lib.Run

namespace Bemtvi.Core

open Utf8
open Run (run run_invariant)

variable {E : Type}

namespace Editor

/-- The seq of the live state: the current node's, or the one the pending edit will take. -/
def stateSeq (editor : Editor E) : Nat :=
  if editor.pending then editor.undoTree.nextSeq else editor.undoTree.curSeq

/-- The tree is consistent, an open group began no later than now, and with nothing pending the live
text is the current node's. -/
structure Sound (editor : Editor E) : Prop where
  consistent : editor.undoTree.Consistent
  began : editor.undoTree.dirty = true → editor.undoTree.dirtyTick ≤ editor.buffer.changedtick
  synced : editor.pending = false →
    editor.undoTree.Holds editor.undoTree.curSeq editor.buffer.text

variable {editor : Editor E}

theorem not_pending_of_clean (clean : editor.undoTree.dirty = false) :
    editor.pending = false := by
  simp [pending, UndoTree.pending, clean]

theorem stateSeq_settled (settled : editor.pending = false) :
    editor.stateSeq = editor.undoTree.curSeq := by
  simp [stateSeq, settled]

theorem stateSeq_pending (pending : editor.pending = true) :
    editor.stateSeq = editor.undoTree.nextSeq := by
  simp [stateSeq, pending]

/-- The live state is minted, or is the next to be. -/
theorem Sound.stateSeq_le (sound : editor.Sound) : editor.stateSeq ≤ editor.undoTree.nextSeq := by
  cases settled : editor.pending with
  | true => exact Nat.le_of_eq (stateSeq_pending settled)
  | false =>
      rw [stateSeq_settled settled]
      exact Nat.le_of_lt (sound.consistent.holds_lt (sound.synced settled))

end Editor

/-! ### Steps that leave the state where it is -/

/-- The history may change, the buffer and the live state do not: no state is new but the pending
one, committed. -/
structure Quiet (before after : Editor E) : Prop where
  sound : after.Sound
  buffer : after.buffer = before.buffer
  savedSeq : after.savedSeq = before.savedSeq
  stateSeq : after.stateSeq = before.stateSeq
  pending : after.pending = true →
    before.pending = true ∧ after.undoTree.nextSeq = before.undoTree.nextSeq
  states : ∀ seq text, after.undoTree.Holds seq text → before.undoTree.Holds seq text ∨
    (before.pending = true ∧ seq = before.undoTree.nextSeq ∧ text = before.buffer.text)
  nextSeq_le : before.undoTree.nextSeq ≤ after.undoTree.nextSeq

/-- What the rest of the editor keeps does not matter to the history. -/
theorem Quiet.of_same {before after : Editor E} (sound : before.Sound)
    (tree : after.undoTree = before.undoTree) (buffer : after.buffer = before.buffer)
    (savedSeq : after.savedSeq = before.savedSeq) : Quiet before after := by
  have pending : after.pending = before.pending := by
    simp only [Editor.pending, tree, buffer]
  constructor
  · constructor
    · exact tree ▸ sound.consistent
    · rw [tree, buffer]
      exact sound.began
    · rw [pending, tree, buffer]
      exact sound.synced
  · exact buffer
  · exact savedSeq
  · simp only [Editor.stateSeq, pending, tree]
  · intro is_pending
    exact ⟨pending ▸ is_pending, by rw [tree]⟩
  · intro seq text held
    exact Or.inl (tree ▸ held)
  · rw [tree]

theorem Quiet.refl {editor : Editor E} (sound : editor.Sound) : Quiet editor editor :=
  .of_same sound rfl rfl rfl

theorem Quiet.trans {first second third : Editor E} (one : Quiet first second)
    (two : Quiet second third) : Quiet first third where
  sound := two.sound
  buffer := two.buffer.trans one.buffer
  savedSeq := two.savedSeq.trans one.savedSeq
  stateSeq := two.stateSeq.trans one.stateSeq
  pending := by
    intro is_pending
    rcases two.pending is_pending with ⟨was_pending, same⟩
    rcases one.pending was_pending with ⟨earlier, same'⟩
    exact ⟨earlier, same.trans same'⟩
  states := by
    intro seq text held
    rcases two.states seq text held with earlier | ⟨was_pending, named, same_text⟩
    · exact one.states seq text earlier
    · rcases one.pending was_pending with ⟨earlier, same⟩
      exact Or.inr ⟨earlier, named.trans same, same_text.trans (by rw [one.buffer])⟩
  nextSeq_le := Nat.le_trans one.nextSeq_le two.nextSeq_le

/-- A choice between quiet steps is quiet. -/
theorem Quiet.ite {before first second : Editor E} {c : Prop} [Decidable c]
    (one : c → Quiet before first) (two : ¬ c → Quiet before second) :
    Quiet before (if c then first else second) := by
  split
  · next holds => exact one holds
  · next fails => exact two fails

namespace Editor

variable [ExtmarkStore E]

variable {editor after : Editor E} {idx : Nat}

omit [ExtmarkStore E] in
/-- A group that changed nothing closes. -/
theorem closed_quiet (sound : editor.Sound) (settled : editor.pending = false) :
    Quiet editor { editor with undoTree := { editor.undoTree with dirty := false } } := by
  have clean : ({ editor with undoTree := { editor.undoTree with dirty := false } } :
      Editor E).pending = false := not_pending_of_clean rfl
  constructor
  · constructor
    · exact ⟨sound.consistent.links, sound.consistent.cur_inside,
        sound.consistent.seqs_increase, sound.consistent.seqs_minted⟩
    · intro open_group
      cases open_group
    · intro _
      exact sound.synced settled
  · rfl
  · rfl
  · rw [stateSeq_settled clean, stateSeq_settled settled]
    rfl
  · intro is_pending
    rw [clean] at is_pending
    cases is_pending
  · intro seq text held
    exact Or.inl held
  · exact Nat.le_refl _

/-- The pending edit becomes the current node, the newest of all; pruning keeps it. -/
theorem committed_quiet (pending : editor.pending = true) {tree : UndoTree E}
    (restricts : UndoTree.Restricts (editor.undoTree.commit editor.snapshotOf) tree) :
    Quiet editor { editor with undoTree := tree } ∧ tree.dirty = false ∧
      tree.curSeq = editor.undoTree.nextSeq ∧ tree.nextSeq = editor.undoTree.nextSeq + 1 := by
  rcases UndoTree.commit_current editor.undoTree editor.snapshotOf with
    ⟨fresh, found, named, snap⟩
  rcases restricts.current with ⟨node, node', found', landed, same⟩
  rw [found, Option.some.injEq] at found'
  subst found'
  have clean : tree.dirty = false := restricts.dirty
  have curSeq : tree.curSeq = editor.undoTree.nextSeq := by
    rw [UndoTree.curSeq, landed]
    simp only [same, named]
  have nextSeq : tree.nextSeq = editor.undoTree.nextSeq + 1 := restricts.nextSeq
  have settled : ({ editor with undoTree := tree } : Editor E).pending = false :=
    not_pending_of_clean clean
  refine ⟨?_, clean, curSeq, nextSeq⟩
  constructor
  · constructor
    · exact restricts.consistent
    · intro open_group
      exact absurd (clean.symm.trans open_group) Bool.false_ne_true
    · intro _
      refine ⟨_, node', landed, ?_, ?_⟩
      · rw [same, named]
        exact curSeq.symm
      · rw [same, snap]
        rfl
  · rfl
  · rfl
  · rw [stateSeq_settled settled, stateSeq_pending pending]
    exact curSeq
  · intro is_pending
    rw [settled] at is_pending
    cases is_pending
  · intro seq text held
    rcases UndoTree.commit_holds (restricts.holds held) with old | ⟨new_seq, new_text⟩
    · exact Or.inl old
    · exact Or.inr ⟨pending, new_seq, new_text⟩
  · show editor.undoTree.nextSeq ≤ tree.nextSeq
    rw [nextSeq]
    exact Nat.le_succ _

theorem committed_restricts (sound : editor.Sound) (keep : Nat) :
    UndoTree.Restricts (editor.undoTree.commit editor.snapshotOf)
      ((editor.undoTree.commit editor.snapshotOf).prune keep) :=
  (UndoTree.prune_restricts (UndoTree.commit_consistent sound.consistent editor.snapshotOf)
    keep).1

/-- **A commit is quiet**, and closes the group. -/
theorem commitUndo_quiet (sound : editor.Sound) :
    Quiet editor editor.commitUndo ∧ editor.commitUndo.undoTree.dirty = false := by
  unfold commitUndo
  by_cases dirty : editor.undoTree.dirty = true
  · rw [if_neg (by simp [dirty])]
    cases settled : editor.pending with
    | false => exact ⟨closed_quiet sound settled, rfl⟩
    | true =>
        have committed := committed_quiet settled
          (committed_restricts sound (undoLevelsToKeep editor.around.undolevels))
        exact ⟨committed.1, committed.2.1⟩
  · rw [if_pos dirty]
    exact ⟨.refl sound, by simpa using dirty⟩

/-- What was pending is the newest state of all once committed. -/
theorem commitUndo_newest (sound : editor.Sound) (pending : editor.pending = true) :
    editor.commitUndo.undoTree.nextSeq = editor.commitUndo.undoTree.curSeq + 1 := by
  have dirty : editor.undoTree.dirty = true := by
    cases flag : editor.undoTree.dirty with
    | true => rfl
    | false => exact absurd (pending.symm.trans (not_pending_of_clean flag)) (by decide)
  rcases committed_quiet pending
    (committed_restricts sound (undoLevelsToKeep editor.around.undolevels)) with
    ⟨-, -, curSeq, nextSeq⟩
  unfold commitUndo
  rw [if_neg (by simp [dirty]), if_neg (by simp [pending])]
  show UndoTree.nextSeq _ = UndoTree.curSeq _ + 1
  rw [curSeq, nextSeq]

omit [ExtmarkStore E] in
/-- A change to the current node that keeps its seq and its text is quiet. -/
theorem modifyState_quiet (sound : editor.Sound) (idx : Nat) (change : UndoState E → UndoState E)
    (named : ∀ state, (change state).seq = state.seq)
    (text_kept : ∀ state, (change state).snap.text = state.snap.text) :
    Quiet editor { editor with undoTree := editor.undoTree.modifyState idx change } := by
  have curSeq := UndoTree.modifyState_curSeq sound.consistent idx named
  constructor
  · constructor
    · exact UndoTree.modifyState_consistent sound.consistent idx named
    · exact sound.began
    · intro settled
      show UndoTree.Holds _ (UndoTree.curSeq _) _
      rw [curSeq]
      exact (UndoTree.modifyState_holds named text_kept).2 (sound.synced settled)
  · rfl
  · rfl
  · show (if _ then _ else UndoTree.curSeq _) = _
    rw [curSeq]
    rfl
  · intro is_pending
    exact ⟨is_pending, rfl⟩
  · intro seq text held
    exact Or.inl ((UndoTree.modifyState_holds named text_kept).1 held)
  · exact Nat.le_refl _

theorem setCurSnapshotCursors_quiet (sound : editor.Sound) (primary : Point)
    (positions : List Nat) (window : Option Nat) (extmarks : Option E)
    (marks : Char → Option Point) (gen : Nat) : Quiet editor { editor with
      undoTree :=
        editor.undoTree.setCurSnapshotCursors primary positions window extmarks marks gen } :=
  modifyState_quiet sound _ _ (fun _ => rfl) (fun _ => rfl)

/-- Taking the live cursors and marks into the current node is quiet. -/
theorem refreshUndoCursorMarks_quiet (sound : editor.Sound) :
    Quiet editor editor.refreshUndoCursorMarks := by
  have synced := setCurSnapshotCursors_quiet sound editor.around.cursor editor.around.secondary
    (some editor.around.window)
    (if editor.undoTree.curSnapshotExtmarkGen ≠
        some (ExtmarkStore.generation editor.buffer.extmarks) then some editor.buffer.extmarks
      else none)
    editor.buffer.marks (ExtmarkStore.generation editor.buffer.extmarks)
  exact synced.trans (modifyState_quiet synced.sound _ _ (fun _ => rfl) (fun _ => rfl))

omit [ExtmarkStore E] in
/-- A mark on a sound editor is quiet: a group that begins now has changed nothing. -/
theorem markDirty_quiet (sound : editor.Sound) : Quiet editor editor.markDirty := by
  unfold markDirty UndoTree.markDirty
  cases dirty : editor.undoTree.dirty with
  | true =>
      simp only [if_true]
      exact .refl sound
  | false =>
      simp only [Bool.false_eq_true, if_false]
      have settled := not_pending_of_clean dirty
      have still : ({ editor with
          undoTree := { editor.undoTree with
            dirty := true
            dirtySince := editor.around.nowMono
            dirtyTick := editor.buffer.changedtick } } : Editor E).pending = false := by
        simp [pending, UndoTree.pending]
      constructor
      · constructor
        · exact ⟨sound.consistent.links, sound.consistent.cur_inside,
            sound.consistent.seqs_increase, sound.consistent.seqs_minted⟩
        · intro _
          exact Nat.le_refl _
        · intro _
          exact sound.synced settled
      · rfl
      · rfl
      · rw [stateSeq_settled still, stateSeq_settled settled]
        rfl
      · intro is_pending
        rw [still] at is_pending
        cases is_pending
      · intro seq text held
        exact Or.inl held
      · exact Nat.le_refl _

/-- A group opened behind a commit. -/
theorem openGroup_quiet (sound : editor.Sound) :
    Quiet editor editor.commitUndo.refreshUndoCursorMarks.markDirty := by
  have committed := (commitUndo_quiet sound).1
  have refreshed := refreshUndoCursorMarks_quiet committed.sound
  exact (committed.trans refreshed).trans (markDirty_quiet refreshed.sound)

theorem pushUndo_quiet (sound : editor.Sound) : Quiet editor editor.pushUndo := by
  apply Quiet.ite
  · intro _
    apply Quiet.ite
    · intro _
      have refreshed := refreshUndoCursorMarks_quiet sound
      exact refreshed.trans (markDirty_quiet refreshed.sound)
    · intro _
      exact .refl sound
  · intro _
    exact openGroup_quiet sound

theorem breakUndoStep_quiet (sound : editor.Sound) : Quiet editor editor.breakUndoStep := by
  have opened := openGroup_quiet sound
  exact opened.trans (.of_same opened.sound rfl rfl rfl)

theorem openAtomicStep_quiet (sound : editor.Sound) : Quiet editor editor.openAtomicStep := by
  apply Quiet.ite
  · intro _
    exact .refl sound
  · intro _
    have opened : Quiet editor { editor with undoAtomicOpened := true } :=
      .of_same sound rfl rfl rfl
    apply opened.trans
    apply Quiet.ite
    · intro _
      exact breakUndoStep_quiet opened.sound
    · intro _
      exact .refl opened.sound

theorem beforeTypedEdit_quiet [Alphabet] (sound : editor.Sound) (kind : EditKind)
    (ch : Option Char) : Quiet editor (editor.beforeTypedEdit kind ch) := by
  have pushed := pushUndo_quiet sound
  apply pushed.trans
  apply Quiet.ite
  · intro _
    exact openAtomicStep_quiet pushed.sound
  · intro _
    apply Quiet.ite
    · intro _
      exact .refl pushed.sound
    · intro _
      have broken : Quiet editor.pushUndo
          (if editor.pushUndo.buffer.changedtick ≠ editor.pushUndo.typing.tick ∧
            editor.pushUndo.startsStep kind ch then editor.pushUndo.breakUndoStep
          else editor.pushUndo) := by
        apply Quiet.ite
        · intro _
          exact breakUndoStep_quiet pushed.sound
        · intro _
          exact .refl pushed.sound
      exact broken.trans (.of_same broken.sound rfl rfl rfl)

theorem endTypingStep_quiet (sound : editor.Sound) : Quiet editor editor.endTypingStep := by
  apply Quiet.ite
  · intro _
    exact openAtomicStep_quiet sound
  · intro _
    apply Quiet.ite
    · intro _
      exact .refl sound
    · intro _
      have pushed := pushUndo_quiet sound
      apply pushed.trans
      apply Quiet.ite
      · intro _
        exact breakUndoStep_quiet pushed.sound
      · intro _
        exact .refl pushed.sound

theorem beginReplacingStep_quiet (sound : editor.Sound) :
    Quiet editor editor.beginReplacingStep := by
  have broken : Quiet editor
      (if editor.snapshotTaken ∧ ¬ editor.typingUndoSuppressed ∧
        editor.buffer.changedtick ≠ editor.typing.tick then editor.breakUndoStep else editor) := by
    apply Quiet.ite
    · intro _
      exact breakUndoStep_quiet sound
    · intro _
      exact .refl sound
  exact broken.trans (.of_same broken.sound rfl rfl rfl)

theorem markUndoPoint_quiet (sound : editor.Sound) : Quiet editor editor.markUndoPoint := by
  apply Quiet.ite
  · intro _
    exact .refl sound
  · intro _
    have pushed := pushUndo_quiet sound
    apply pushed.trans
    have opened : Quiet editor.pushUndo (if editor.pushUndo.undoAtomic > 0 then
        { editor.pushUndo with undoAtomicOpened := true } else editor.pushUndo) := by
      apply Quiet.ite
      · intro _
        exact .of_same pushed.sound rfl rfl rfl
      · intro _
        exact .refl pushed.sound
    apply opened.trans
    apply Quiet.ite
    · intro _
      exact breakUndoStep_quiet opened.sound
    · intro _
      exact refreshUndoCursorMarks_quiet opened.sound

omit [ExtmarkStore E] in
theorem beginUndoAtomic_quiet (sound : editor.Sound) : Quiet editor editor.beginUndoAtomic := by
  unfold beginUndoAtomic
  simp only
  split
  · exact .of_same sound rfl rfl rfl
  · exact .of_same sound rfl rfl rfl

omit [ExtmarkStore E] in
theorem endUndoAtomic_quiet (sound : editor.Sound) : Quiet editor editor.endUndoAtomic := by
  apply Quiet.ite
  · intro _
    exact .of_same sound rfl rfl rfl
  · intro _
    exact .of_same sound rfl rfl rfl

omit [ExtmarkStore E] in
theorem saveLast_quiet (sound : editor.Sound) (nr : Nat) :
    Quiet editor { editor with undoTree := { editor.undoTree with saveLast := nr } } where
  sound :=
    ⟨⟨sound.consistent.links, sound.consistent.cur_inside, sound.consistent.seqs_increase,
      sound.consistent.seqs_minted⟩, sound.began, sound.synced⟩
  buffer := rfl
  savedSeq := rfl
  stateSeq := rfl
  pending := fun is_pending => ⟨is_pending, rfl⟩
  states := fun _ _ held => Or.inl held
  nextSeq_le := Nat.le_refl _

/-- A write commits, and names the live state the one on disk. -/
theorem markUndoSaved_spec (sound : editor.Sound) :
    Quiet editor { editor.markUndoSaved with savedSeq := editor.savedSeq } ∧
      editor.markUndoSaved.pending = false ∧
      editor.markUndoSaved.savedSeq = some editor.stateSeq := by
  rcases commitUndo_quiet sound with ⟨committed, clean⟩
  have stamped := modifyState_quiet committed.sound editor.commitUndo.undoTree.cur
    (fun state => { state with save := some (editor.commitUndo.undoTree.saveLast + 1) })
    (fun _ => rfl) (fun _ => rfl)
  have counted := saveLast_quiet stamped.sound (editor.commitUndo.undoTree.saveLast + 1)
  have settled := not_pending_of_clean clean
  refine ⟨?_, not_pending_of_clean clean, ?_⟩
  · have whole := (committed.trans stamped).trans counted
    have savedSeq : editor.commitUndo.savedSeq = editor.savedSeq := committed.savedSeq
    unfold markUndoSaved
    simp only [← savedSeq]
    exact whole
  · rw [← committed.stateSeq, stateSeq_settled settled]
    rfl

/-! ### Moves -/

/-- **A move** onto a node of a settled tree: the node's text is live, clean exactly when the node is
the one on disk, and the tree is the same. -/
structure Landed (before after : Editor E) (node : UndoNode E) (idx : Nat) : Prop where
  tree : after.undoTree = { before.undoTree with cur := idx }
  text : after.buffer.text = node.data.snap.text
  changedtick : after.buffer.changedtick = before.buffer.changedtick + 1
  modified : after.buffer.modified = !decide (before.savedSeq = some node.data.seq)
  savedSeq : after.savedSeq = before.savedSeq

theorem land_spec {node : UndoNode E} (found : editor.undoTree.nodes[idx]? = some node) :
    Landed editor (editor.land idx) node idx := by
  unfold land
  rw [found]
  exact ⟨rfl, rfl, rfl, rfl, rfl⟩

omit [ExtmarkStore E] in
/-- Behind a move the editor is sound, and settled on the node. -/
theorem Landed.sound {before : Editor E} {node : UndoNode E}
    (landed : Landed before after node idx) (sound : before.Sound)
    (clean : before.undoTree.dirty = false) (found : before.undoTree.nodes[idx]? = some node) :
    after.Sound ∧ after.pending = false ∧ after.stateSeq = node.data.seq ∧
      ∀ seq text, after.undoTree.Holds seq text ↔ before.undoTree.Holds seq text := by
  have settled : after.pending = false := by
    apply not_pending_of_clean
    rw [landed.tree]
    exact clean
  have curSeq : after.undoTree.curSeq = node.data.seq := by
    rw [landed.tree, UndoTree.curSeq, found]
  refine ⟨⟨?_, ?_, ?_⟩, settled, ?_, ?_⟩
  · rw [landed.tree]
    exact ⟨sound.consistent.links, (List.getElem?_eq_some_iff.1 found).1,
      sound.consistent.seqs_increase, sound.consistent.seqs_minted⟩
  · intro open_group
    rw [landed.tree] at open_group
    exact absurd (clean.symm.trans open_group) Bool.false_ne_true
  · intro _
    rw [curSeq, landed.text, landed.tree]
    exact ⟨idx, node, found, rfl, rfl⟩
  · rw [stateSeq_settled settled, curSeq]
  · intro seq text
    rw [landed.tree]
    exact Iff.rfl

/-- A quiet step, or one followed by a move onto a node of what it left. -/
inductive Moved (before after : Editor E) : Prop
  | stays (quiet : Quiet before after)
  | moves (middle : Editor E) (node : UndoNode E) (idx : Nat) (quiet : Quiet before middle)
      (clean : middle.undoTree.dirty = false) (found : middle.undoTree.nodes[idx]? = some node)
      (landed : Landed middle after node idx)

/-- Onto a node of the tree a commit left. -/
theorem moved_land (sound : editor.Sound) (inside : idx < editor.commitUndo.undoTree.nodes.length) :
    Moved editor (editor.commitUndo.land idx) := by
  rcases commitUndo_quiet sound with ⟨committed, clean⟩
  have found := List.getElem?_eq_getElem inside
  exact .moves _ _ idx committed clean found (land_spec found)

omit [ExtmarkStore E] in
theorem moved_echo {before : Editor E} (quiet : Quiet before after) (message : String) :
    Moved before (after.echo message) :=
  .stays (quiet.trans (.of_same quiet.sound rfl rfl rfl))

/-- What a command that moves through the tree does: it stays, behind a commit or not, or lands on a node of the
tree that a commit left. -/
inductive Routed (editor : Editor E) : Editor E → Prop
  | still : Routed editor editor
  | refused (message : String) : Routed editor (editor.echo message)
  | committed : Routed editor editor.commitUndo
  | told (message : String) : Routed editor (editor.commitUndo.echo message)
  | lands (idx : Nat) (inside : idx < editor.commitUndo.undoTree.nodes.length) :
      Routed editor (editor.commitUndo.land idx)

theorem Routed.moved (sound : editor.Sound) (routed : Routed editor after) :
    Moved editor after := by
  have committed := (commitUndo_quiet sound).1
  cases routed with
  | still => exact .stays (.refl sound)
  | refused message => exact moved_echo (.refl sound) message
  | committed => exact .stays committed
  | told message => exact moved_echo committed message
  | lands idx inside => exact moved_land sound inside

theorem undo_routed (sound : editor.Sound) : Routed editor editor.undo := by
  unfold undo
  split
  · exact .refused _
  · simp only
    split
    · exact .told _
    · next parent above =>
        apply Routed.lands
        have links := (commitUndo_quiet sound).1.sound.consistent
        have lower := links.links.parent_lt _ _ above
        exact Nat.lt_trans lower links.cur_inside

omit [ExtmarkStore E] in
theorem newestChild_lt (sound : editor.Sound) {child : Nat}
    (newest : editor.newestChild = some child) : child < editor.undoTree.nodes.length := by
  rcases Option.bind_eq_some_iff.1 newest with ⟨node, found, last⟩
  have member := List.mem_of_getLast? last
  exact Arena.lt_of_parentOf ((sound.consistent.links.children_iff _ node found child).1 member)

theorem redo_routed (sound : editor.Sound) : Routed editor editor.redo := by
  have committed := (commitUndo_quiet sound).1
  unfold redo
  split
  · exact .refused _
  · simp only
    split
    · exact .told _
    · next child newest => exact .lands child (newestChild_lt committed.sound newest)

theorem undoToSeq_routed (editor : Editor E) (target : Nat) : Routed editor (editor.undoToSeq target) := by
  unfold undoToSeq
  split
  · exact .refused _
  · simp only
    split
    · exact .told _
    · next node named =>
        split
        · exact .committed
        · rcases UndoTree.nodeOfSeq_eq_some named with ⟨state, found, -⟩
          exact .lands node (List.getElem?_eq_some_iff.1 found).1

theorem undoLandOn_routed (inside : idx < editor.commitUndo.undoTree.nodes.length) (back : Bool) :
    Routed editor (editor.commitUndo.undoLandOn idx back) := by
  unfold undoLandOn
  split
  · exact .told _
  · split
    · exact .told _
    · exact .lands idx inside

theorem undoTravel_routed (sound : editor.Sound) (count : Nat) (back : Bool) :
    Routed editor (editor.undoTravel count back) := by
  unfold undoTravel
  split
  · exact .still
  · apply undoLandOn_routed
    apply UndoTree.nodeNearSeq_lt
    exact (commitUndo_quiet sound).1.sound.consistent

theorem undoTravelTime_routed (sound : editor.Sound) (secs : Int) (back : Bool) :
    Routed editor (editor.undoTravelTime secs back) := by
  apply undoLandOn_routed
  apply UndoTree.nodeNearTime_lt
  exact (commitUndo_quiet sound).1.sound.consistent

theorem undoTravelFile_routed (sound : editor.Sound) (count : Nat) (back : Bool) :
    Routed editor (editor.undoTravelFile count back) := by
  unfold undoTravelFile
  split
  · exact .still
  · apply undoLandOn_routed
    apply UndoTree.nodeNearSave_lt
    exact (commitUndo_quiet sound).1.sound.consistent

end Editor

end Bemtvi.Core
