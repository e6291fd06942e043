/-
Module: Bemtvi.Core.UndoMarksLaws
Purpose: What undo restores of the marks, over whole runs: no mark comes or goes, those whose
  placement the restored snapshot holds are back where they were when the state was last left, the
  others stay, clamped, and all are within the text; no two placements share a serial.
Trusted boundary: none
Main exports: Synced, openGroup_synced, Travels, Kept, step_kept, marks_restored
-/
import Bemtvi.Core.Journal
import Bemtvi.Core.UndoMarks

namespace Bemtvi.Core

open Utf8

namespace Extmarks

variable {P : Type}

/-! ### The store of a buffer -/

theorem ExtmarkStore.generation_le_seen (store : ExtmarkStore P) :
    store.generation ≤ store.seen := by
  have grows : ∀ (slots : List (NsMarks P)) (stamps : Nat),
      stamps ≤ slots.foldl (fun stamps slot => max stamps slot.gen) stamps := by
    intro slots
    induction slots with
    | nil => exact Nat.le_refl
    | cons slot slots ih =>
        intro stamps
        exact Nat.le_trans (Nat.le_max_left _ _) (ih _)
  exact grows store.byNs.values store.generation

/-- What a structural change leaves of the counters. -/
structure Restamped (before after : ExtmarkStore P) : Prop where
  generation : before.generation < after.generation
  nextSerial : after.nextSerial = before.nextSerial

theorem Restamped.trans {first second third : ExtmarkStore P} (one : Restamped first second)
    (two : Restamped second third) : Restamped first third :=
  ⟨Nat.lt_trans one.generation two.generation, two.nextSerial.trans one.nextSerial⟩

namespace ExtmarkStore

theorem restamped_touch (store : ExtmarkStore P) {stamps : Nat} (fresh : store.seen ≤ stamps) :
    Restamped store (store.touchStructure stamps).1 :=
  ⟨Nat.lt_succ_of_le (Nat.le_trans store.generation_le_seen fresh), rfl⟩

theorem restamped_del (store : ExtmarkStore P) (ns id : Nat) :
    Restamped store (store.del store.seen ns id).1 := by
  have touched := store.restamped_touch (Nat.le_refl _)
  simp only [ExtmarkStore.del]
  split
  · exact touched
  · split
    · exact touched
    · exact ⟨touched.generation, rfl⟩

theorem restamped_clear (store : ExtmarkStore P) (ns : Nat) (range : Option (Nat × Nat)) :
    Restamped store (store.clear store.seen ns range).1 := by
  have touched := store.restamped_touch (Nat.le_refl _)
  simp only [ExtmarkStore.clear]
  split
  · exact touched
  · exact ⟨touched.generation, rfl⟩

theorem restamped_adopt (store snap : ExtmarkStore P) (textLen : Nat) (skip : List Nat) :
    Restamped store (store.adoptPositionsFrom store.seen snap textLen skip).1 :=
  ⟨Nat.lt_succ_of_le store.generation_le_seen, rfl⟩

theorem restamped_move (store dst : ExtmarkStore P) (ns : Nat) :
    Restamped dst (store.moveNamespaceInto (max store.seen dst.seen) ns dst).2.1 := by
  have fresh : dst.generation < max store.seen dst.seen + 1 + 1 := by
    have seen := dst.generation_le_seen
    omega
  simp only [ExtmarkStore.moveNamespaceInto]
  split
  · exact ⟨fresh, rfl⟩
  · exact ⟨fresh, rfl⟩

end ExtmarkStore

/-! ### Marks within the text -/

/-- A mark within the text is within it behind an edit. -/
theorem Extmark.Inside.shift {m : Extmark P} {textLen start oldEnd newEnd : Nat}
    (inside : m.Inside textLen) (forward : start ≤ oldEnd) (forward' : start ≤ newEnd)
    (within : oldEnd ≤ textLen) :
    (m.shift start oldEnd newEnd).Inside (textLen + newEnd - oldEnd) := by
  have bound : ∀ (right : Bool) (p : Nat), p ≤ textLen →
      shiftAnchor right p start oldEnd newEnd ≤ textLen + newEnd - oldEnd := by
    intro right p below
    have cases_ := shiftAnchor_cases forward newEnd right p
    omega
  obtain ⟨start_in, stop_in⟩ := inside
  refine ⟨bound _ _ start_in, ?_⟩
  intro stop named
  obtain ⟨stop', held, rfl⟩ := Option.map_eq_some_iff.1 named
  have below := bound m.endRightGravity stop' (stop_in stop' held).2
  exact ⟨Nat.le_max_right _ _, Nat.max_le.2 ⟨below, bound _ _ start_in⟩⟩

theorem Extmark.inside_clamped (textLen : Nat) (m : Extmark P) :
    (ExtmarkStore.adoptMark none textLen m).Inside textLen := by
  refine ⟨Nat.min_le_right _ _, ?_⟩
  intro stop named
  obtain ⟨stop', held, rfl⟩ := Option.map_eq_some_iff.1 named
  exact ⟨Nat.le_max_right _ _, Nat.max_le.2 ⟨Nat.min_le_right _ _, Nat.min_le_right _ _⟩⟩

namespace ExtmarkStore

/-- An adopted mark takes the place of its own placement, or is clamped. -/
theorem adoptMark_cases (then_ : Option (Extmark P)) (textLen : Nat) (m : Extmark P) :
    (∃ snap, then_ = some snap ∧ snap.serial = m.serial ∧
      adoptMark then_ textLen m = { m with start := snap.start, stop := snap.stop }) ∨
    ((∀ snap, then_ = some snap → snap.serial ≠ m.serial) ∧
      adoptMark then_ textLen m = adoptMark none textLen m) := by
  cases then_ with
  | none =>
      right
      constructor
      · intro snap here
        cases here
      · rfl
  | some snap =>
      by_cases same : snap.serial = m.serial
      · left
        refine ⟨snap, rfl, same, ?_⟩
        rw [adoptMark, Option.filter_some_pos (by simpa using same)]
      · right
        constructor
        · intro snap' here
          cases here
          exact same
        · rw [adoptMark, Option.filter_some_neg (by simpa using same)]
          rfl

theorem adoptMark_kept (then_ : Option (Extmark P)) (textLen : Nat) (m : Extmark P) :
    (adoptMark then_ textLen m).payload = m.payload ∧
      (adoptMark then_ textLen m).serial = m.serial := by
  rcases adoptMark_cases then_ textLen m with ⟨snap, -, -, same⟩ | ⟨-, same⟩
  · rw [same]
    exact ⟨rfl, rfl⟩
  · rw [same]
    exact ⟨rfl, rfl⟩

end ExtmarkStore

end Extmarks

namespace UndoMarks

open Extmarks (Extmark Restamped)
open Extmarks.ExtmarkStore (adoptMark adoptMark_cases adoptMark_kept)
open Run (run)

variable {P : Type}

/-! ### States of the tree -/

/-- A state of the tree. -/
def Has (tree : UndoTree (Marks P)) (state : UndoState (Marks P)) : Prop :=
  ∃ (idx : Nat) (node : UndoNode (Marks P)), tree.nodes[idx]? = some node ∧ node.data = state

variable {state old : UndoState (Marks P)} {tree : UndoTree (Marks P)}
  {after before first second : Editor (Marks P)} {ns : Nat} {s : Text} {t next : Tracked P}
  {live marks : Marks P} {node : UndoNode (Marks P)} {event : Event P}

theorem Has.seq_lt (consistent : tree.Consistent) (has : Has tree state) :
    state.seq < tree.nextSeq := by
  obtain ⟨idx, node, found, rfl⟩ := has
  exact consistent.seqs_minted idx node found

theorem Has.unique (consistent : tree.Consistent) {state' : UndoState (Marks P)}
    (has : Has tree state) (has' : Has tree state') (same : state.seq = state'.seq) :
    state = state' := by
  obtain ⟨idx, node, found, rfl⟩ := has
  obtain ⟨idx', node', found', rfl⟩ := has'
  have index := consistent.index_unique found found' same
  subst index
  rw [found] at found'
  cases found'
  rfl

/-- Where nothing is pending, the current state of the tree is the live one. -/
theorem current_state {editor : Editor (Marks P)} (sound : editor.Sound)
    (settled : editor.pending = false) :
    ∃ state, Has editor.undoTree state ∧
      (∃ node, editor.undoTree.nodes[editor.undoTree.cur]? = some node ∧ node.data = state) ∧
      state.seq = editor.stateSeq ∧ state.snap.text = editor.buffer.text := by
  obtain ⟨node, found, named⟩ := sound.consistent.current
  obtain ⟨idx, node', found', named', text⟩ := sound.synced settled
  have same := sound.consistent.index_unique found found' (named.trans named'.symm)
  subst same
  rw [found] at found'
  cases found'
  exact ⟨node.data, ⟨_, node, found, rfl⟩, ⟨node, found, rfl⟩,
    named.trans (Editor.stateSeq_settled settled).symm, text⟩

/-! ### Steps that leave the marks where they are -/

/-- A state that was in the tree, but for its cursors. -/
structure SameState (old state : UndoState (Marks P)) : Prop where
  seq : state.seq = old.seq
  text : state.snap.text = old.snap.text
  gen : state.snapExtmarkGen = old.snapExtmarkGen
  marks : ∀ ns id, ns ≠ cursorNs → state.snap.extmarks.get ns id = old.snap.extmarks.get ns id

/-- The live state, synced. -/
structure LiveState (editor : Editor (Marks P)) (state : UndoState (Marks P)) : Prop where
  seq : state.seq = editor.stateSeq
  text : state.snap.text = editor.buffer.text
  gen : state.snapExtmarkGen = editor.buffer.extmarks.generation
  marks : ∀ ns id, ns ≠ cursorNs →
    state.snap.extmarks.get ns id = editor.buffer.extmarks.get ns id

theorem SameState.refl (state : UndoState (Marks P)) : SameState state state :=
  ⟨rfl, rfl, rfl, fun _ _ _ => rfl⟩

theorem SameState.trans {first second third : UndoState (Marks P)} (one : SameState first second)
    (two : SameState second third) : SameState first third :=
  ⟨two.seq.trans one.seq, two.text.trans one.text, two.gen.trans one.gen,
    fun ns id plain => (two.marks ns id plain).trans (one.marks ns id plain)⟩

theorem LiveState.of_same {editor : Editor (Marks P)} (live : LiveState editor old)
    (same : SameState old state) : LiveState editor state :=
  ⟨same.seq.trans live.seq, same.text.trans live.text, same.gen.trans live.gen,
    fun ns id plain => (same.marks ns id plain).trans (live.marks ns id plain)⟩

/-- **A quiet step of the history**: each state of the tree was there, or is the live one. -/
structure Synced (before after : Editor (Marks P)) : Prop where
  sound : after.Sound
  buffer : after.buffer = before.buffer
  stateSeq : after.stateSeq = before.stateSeq
  ephemeral : ∀ ns ∈ before.around.ephemeral, ns ∈ after.around.ephemeral
  states : ∀ state, Has after.undoTree state →
    (∃ old, Has before.undoTree old ∧ SameState old state) ∨ LiveState before state

theorem Synced.of_nodes (quiet : Quiet before after)
    (ephemeral : ∀ ns ∈ before.around.ephemeral, ns ∈ after.around.ephemeral)
    (nodes : after.undoTree.nodes = before.undoTree.nodes) : Synced before after where
  sound := quiet.sound
  buffer := quiet.buffer
  stateSeq := quiet.stateSeq
  ephemeral := ephemeral
  states := by
    rintro state ⟨idx, node, found, rfl⟩
    rw [nodes] at found
    exact Or.inl ⟨node.data, ⟨idx, node, found, rfl⟩, .refl _⟩

theorem Synced.refl {editor : Editor (Marks P)} (sound : editor.Sound) : Synced editor editor :=
  .of_nodes (.refl sound) (fun _ here => here) rfl

theorem Synced.trans {third : Editor (Marks P)} (one : Synced first second)
    (two : Synced second third) : Synced first third where
  sound := two.sound
  buffer := two.buffer.trans one.buffer
  stateSeq := two.stateSeq.trans one.stateSeq
  ephemeral := fun ns here => two.ephemeral ns (one.ephemeral ns here)
  states := by
    intro state has
    rcases two.states state has with ⟨old, held, same⟩ | ⟨seq, text, gen, marks⟩
    · rcases one.states old held with ⟨older, held', same'⟩ | live
      · exact Or.inl ⟨older, held', same'.trans same⟩
      · exact Or.inr (live.of_same same)
    · right
      rw [one.buffer] at text gen marks
      exact ⟨seq.trans one.stateSeq, text, gen, marks⟩

theorem Synced.ite {c : Prop} [Decidable c] (one : c → Synced before first)
    (two : ¬ c → Synced before second) : Synced before (if c then first else second) := by
  split
  · next holds => exact one holds
  · next fails => exact two fails

variable [Inhabited P]

theorem commitUndo_synced {editor : Editor (Marks P)} (sound : editor.Sound) :
    Synced editor editor.commitUndo := by
  have quiet := (Editor.commitUndo_quiet sound).1
  rw [Editor.commitUndo] at quiet ⊢
  split
  · exact .refl sound
  split
  · rename_i _ settled
    exact .of_nodes (Editor.closed_quiet sound (by simpa using settled)) (fun _ here => here) rfl
  · rename_i opened waiting
    rw [if_neg opened, if_neg waiting] at quiet
    have pending : editor.pending = true := by simpa using waiting
    refine ⟨quiet.sound, quiet.buffer, quiet.stateSeq, fun _ here => here, ?_⟩
    rintro state ⟨idx, node, found, rfl⟩
    obtain ⟨j, node', found', same⟩ := (Editor.committed_restricts sound
      (undoLevelsToKeep editor.around.undolevels)).states idx node found
    rcases Arena.push_cases found' with ⟨-, old, was, -, data, -⟩ | ⟨-, new⟩
    · left
      refine ⟨old.data, ⟨j, old, was, rfl⟩, ?_⟩
      rw [← same, data]
      exact .refl _
    · right
      rw [← same, new]
      exact ⟨(Editor.stateSeq_pending pending).symm, rfl, rfl, fun _ _ _ => rfl⟩

/-- The snapshot's own cursors are set in `CURSOR_NS` only. -/
theorem get_cursors (store : Marks P) (positions : List Nat) (plain : ns ≠ cursorNs) (id : Nat) :
    (positions.foldl (fun store pos => Core.ExtmarkStore.set store cursorNs pos)
      (Core.ExtmarkStore.clear store cursorNs)).get ns id = store.get ns id := by
  have cleared : (Core.ExtmarkStore.clear store cursorNs).get ns id = store.get ns id :=
    Extmarks.ExtmarkStore.get_clear_of_ne store store.seen plain none id
  rw [← cleared]
  generalize Core.ExtmarkStore.clear store cursorNs = start
  induction positions generalizing start with
  | nil => rfl
  | cons pos positions ih =>
      rw [List.foldl_cons, ih]
      exact Extmarks.ExtmarkStore.get_set_of_ne _ _ plain _ _ _ _ _ _ _

/-- **Taking the live marks into the current node** syncs it, or it was in sync. -/
theorem refresh_synced {editor : Editor (Marks P)} (sound : editor.Sound)
    (settled : editor.pending = false) : Synced editor editor.refreshUndoCursorMarks := by
  obtain ⟨state, has, ⟨current, at_cur, same_current⟩, seq, text⟩ := current_state sound settled
  have quiet := Editor.refreshUndoCursorMarks_quiet sound
  refine ⟨quiet.sound, quiet.buffer, quiet.stateSeq, fun _ here => here, ?_⟩
  rintro _ ⟨idx, node, found, rfl⟩
  simp only [Editor.refreshUndoCursorMarks, UndoTree.setCurSnapshotCursors,
    UndoTree.modifyState] at found
  obtain ⟨node', found', -, -, data⟩ := Arena.modifyData_cases found
  obtain ⟨old, was, -, -, data'⟩ := Arena.modifyData_cases found'
  by_cases here : editor.undoTree.cur = idx
  · subst here
    rw [at_cur] at was
    cases was
    subst same_current
    have gen : editor.undoTree.curSnapshotExtmarkGen = some current.data.snapExtmarkGen := by
      rw [UndoTree.curSnapshotExtmarkGen, at_cur]
      rfl
    rw [if_pos rfl] at data'
    have moved : node.data = { node'.data with
        snap := { node'.data.snap with selection := editor.around.selection } } :=
      data.trans (if_pos rfl)
    by_cases in_sync : current.data.snapExtmarkGen = editor.buffer.extmarks.generation
    · left
      refine ⟨current.data, has, ?_⟩
      rw [if_neg (by rw [gen, in_sync]; exact fun other => other rfl)] at data'
      rw [moved, data']
      exact ⟨rfl, rfl, in_sync.symm, fun ns id plain => get_cursors _ _ plain id⟩
    · right
      rw [if_pos (by rw [gen]; exact fun same => in_sync (Option.some.inj same))] at data'
      rw [moved, data']
      exact ⟨seq, text, rfl, fun ns id plain => get_cursors _ _ plain id⟩
  · left
    have kept : node'.data = old.data := data'.trans (if_neg here)
    have kept' : node.data = node'.data := data.trans (if_neg here)
    rw [kept', kept]
    exact ⟨old.data, ⟨idx, old, was, rfl⟩, .refl _⟩

omit [Inhabited P] in
theorem markDirty_synced {editor : Editor (Marks P)} (sound : editor.Sound) :
    Synced editor editor.markDirty := by
  refine .of_nodes (Editor.markDirty_quiet sound) (fun _ here => here) ?_
  rw [Editor.markDirty, UndoTree.markDirty]
  split <;> rfl

theorem openGroup_synced {editor : Editor (Marks P)} (sound : editor.Sound) :
    Synced editor editor.commitUndo.refreshUndoCursorMarks.markDirty := by
  have committed := commitUndo_synced sound
  have settled := Editor.not_pending_of_clean (Editor.commitUndo_quiet sound).2
  have refreshed := refresh_synced committed.sound settled
  exact (committed.trans refreshed).trans (markDirty_synced refreshed.sound)

theorem pushUndo_synced {editor : Editor (Marks P)} (sound : editor.Sound) :
    Synced editor editor.pushUndo := by
  apply Synced.ite
  · intro _
    apply Synced.ite
    · intro closed
      have refreshed := refresh_synced sound
        (Editor.not_pending_of_clean (by simpa using closed))
      exact refreshed.trans (markDirty_synced refreshed.sound)
    · intro _
      exact .refl sound
  · intro _
    exact openGroup_synced sound

theorem breakUndoStep_synced {editor : Editor (Marks P)} (sound : editor.Sound) :
    Synced editor editor.breakUndoStep := by
  have opened := openGroup_synced sound
  exact opened.trans (.of_nodes (.of_same opened.sound rfl rfl rfl) (fun _ here => here) rfl)

theorem markUndoSaved_synced {editor : Editor (Marks P)} (sound : editor.Sound) :
    Synced editor editor.markUndoSaved := by
  have committed := commitUndo_synced sound
  have quiet := (Editor.markUndoSaved_spec sound).1
  refine ⟨⟨quiet.sound.consistent, quiet.sound.began, quiet.sound.synced⟩, quiet.buffer,
    quiet.stateSeq, committed.ephemeral, ?_⟩
  rintro state ⟨idx, node, found, rfl⟩
  simp only [Editor.markUndoSaved, UndoTree.modifyState] at found
  obtain ⟨old, was, -, -, data⟩ := Arena.modifyData_cases found
  have same : SameState old.data node.data := by
    rw [data]
    split
    · exact ⟨rfl, rfl, rfl, fun _ _ _ => rfl⟩
    · exact .refl _
  rcases committed.states old.data ⟨idx, old, was, rfl⟩ with ⟨older, held, same'⟩ | live
  · exact Or.inl ⟨older, held, same'.trans same⟩
  · exact Or.inr (live.of_same same)

/-! ### Moves -/

/-- A command that moves through the tree stays, behind a commit or not, or lands on a state of the
tree that a commit left. -/
inductive Travels (editor : Editor (Marks P)) : Editor (Marks P) → Prop
  | stays {after : Editor (Marks P)} (synced : Synced editor after) : Travels editor after
  | lands (idx : Nat) (node : UndoNode (Marks P))
      (found : editor.commitUndo.undoTree.nodes[idx]? = some node) :
      Travels editor (editor.commitUndo.land idx)

omit [Inhabited P] in
theorem Synced.echo (synced : Synced before after) (message : String) :
    Synced before (after.echo message) :=
  synced.trans (.of_nodes (.of_same synced.sound rfl rfl rfl) (fun _ here => here) rfl)

theorem travels_of_routed {editor : Editor (Marks P)} (sound : editor.Sound)
    (routed : editor.Routed after) : Travels editor after := by
  have committed := commitUndo_synced sound
  cases routed with
  | still => exact .stays (.refl sound)
  | refused message => exact .stays ((Synced.refl sound).echo message)
  | committed => exact .stays committed
  | told message => exact .stays (committed.echo message)
  | lands idx inside => exact .lands idx _ (List.getElem?_eq_getElem inside)

/-! ### Edits -/

/-- An edit was recorded: it shifted the marks. -/
def Recorded (before after : Buffer (Marks P)) : Prop :=
  UndoRuns.Edited before after ∧ ∃ start oldEnd newEnd,
    start ≤ oldEnd ∧ start ≤ newEnd ∧ oldEnd ≤ size before.text ∧
      size after.text = size before.text + newEnd - oldEnd ∧
      after.extmarks = before.extmarks.shift start oldEnd newEnd

omit [Inhabited P] in
theorem size_splice {text text' : Text} {start stop : Nat}
    (spliced : splice text start stop s = some text') :
    start ≤ stop ∧ stop ≤ size text ∧ size text' = size text + (start + size s) - stop := by
  obtain ⟨front, old, back, rfl, rfl, rfl, rfl⟩ := splice_eq_some.1 spliced
  simp only [size_append]
  omega

theorem insert_recorded {buffer after : Buffer (Marks P)} {byte : Nat}
    (inserted : buffer.insert byte s = some after) : after = buffer ∨ Recorded buffer after := by
  rcases Buffer.insert_cases inserted with ⟨-, same⟩ | ⟨-, text, spliced, rfl⟩
  · exact Or.inl same
  · obtain ⟨-, within, length⟩ := size_splice spliced
    exact Or.inr ⟨⟨Nat.lt_succ_self _, rfl⟩, byte, byte, byte + size s, Nat.le_refl _,
      Nat.le_add_right _ _, within, length, rfl⟩

theorem remove_recorded {buffer after : Buffer (Marks P)} {start stop : Nat}
    (removed : buffer.remove start stop = some after) :
    after = buffer ∨ Recorded buffer after := by
  rcases Buffer.remove_cases removed with ⟨-, same⟩ | ⟨-, text, spliced, rfl⟩
  · exact Or.inl same
  · obtain ⟨forward, within, length⟩ := size_splice spliced
    exact Or.inr ⟨⟨Nat.lt_succ_self _, rfl⟩, start, stop, start, forward, Nat.le_refl _, within,
      length, rfl⟩

theorem replace_recorded {buffer after : Buffer (Marks P)} {start stop : Nat}
    (replaced : buffer.replace start stop s = some after) :
    after = buffer ∨ Recorded buffer after := by
  rcases Buffer.replace_cases replaced with ⟨-, -, same⟩ | ⟨-, -, inserted⟩ | ⟨-, -, removed⟩ |
    ⟨-, -, text, spliced, rfl⟩
  · exact Or.inl same
  · exact insert_recorded inserted
  · exact remove_recorded removed
  · obtain ⟨forward, within, length⟩ := size_splice spliced
    exact Or.inr ⟨⟨Nat.lt_succ_self _, rfl⟩, start, stop, start + size s, forward,
      Nat.le_add_right _ _, within, length, rfl⟩

omit [Inhabited P] in
/-- The state an edit makes is a new one, or was new already. -/
theorem edit_stateSeq {editor : Editor (Marks P)} (sound : editor.Sound)
    (opened : editor.undoTree.dirty = true) {buffer : Buffer (Marks P)}
    (edited : UndoRuns.Edited editor.buffer buffer) :
    ({ editor with buffer := buffer } : Editor (Marks P)).Sound ∧
      ({ editor with buffer := buffer } : Editor (Marks P)).stateSeq = editor.undoTree.nextSeq := by
  have began := sound.began opened
  have pending : ({ editor with buffer := buffer } : Editor (Marks P)).pending = true := by
    have moved : buffer.changedtick ≠ editor.undoTree.dirtyTick :=
      Nat.ne_of_gt (Nat.lt_of_le_of_lt began edited.changedtick)
    simp [Editor.pending, UndoTree.pending, opened, moved]
  refine ⟨⟨sound.consistent, ?_, ?_⟩, Editor.stateSeq_pending pending⟩
  · intro _
    exact Nat.le_trans began (Nat.le_of_lt edited.changedtick)
  · intro settled
    rw [pending] at settled
    cases settled

/-! ### The invariant -/

/-- A namespace whose marks undo takes back. -/
structure Plain (editor : Editor (Marks P)) (ns : Nat) : Prop where
  cursor : ns ≠ cursorNs
  anchor : ns ≠ anchorNs
  kept : ns ∉ editor.around.ephemeral

/-- What a state was last left with: its snapshot's marks, where they were not taken away since, in
their places. -/
def LeftWith (ns : Nat) (left : Nat → Option (Marks P)) (state : UndoState (Marks P)) : Prop :=
  ∃ store, left state.seq = some store ∧
    (∀ id then_, state.snap.extmarks.get ns id = some then_ → then_.serial ≤ store.nextSerial) ∧
    ∀ id then_ m, state.snap.extmarks.get ns id = some then_ → store.get ns id = some m →
      then_.serial = m.serial → m.start = then_.start ∧ m.stop = then_.stop

/-- A namespace in a state of the tree. -/
structure StateKept (ns : Nat) (t : Tracked P) (state : UndoState (Marks P)) : Prop where
  inside : ∀ id then_, state.snap.extmarks.get ns id = some then_ →
    then_.Inside (size state.snap.text)
  current : state.seq = t.editor.stateSeq → ∀ id then_ m,
    state.snap.extmarks.get ns id = some then_ → t.editor.buffer.extmarks.get ns id = some m →
    then_.serial = m.serial → m.start = then_.start ∧ m.stop = then_.stop
  left : state.seq ≠ t.editor.stateSeq → LeftWith ns t.left state

/-- A placement that a left state had, and that is live, was live all along. -/
def Persists (ns : Nat) (left : Nat → Option (Marks P)) (live : Marks P) : Prop :=
  ∀ seq store, left seq = some store → store.nextSerial ≤ live.nextSerial ∧
    ∀ id m, live.get ns id = some m → m.serial ≤ store.nextSerial →
      ∃ m', store.get ns id = some m' ∧ m'.serial = m.serial

/-- A namespace that undo takes back. -/
structure KeptIn (ns : Nat) (t : Tracked P) : Prop where
  inside : ∀ id m, t.editor.buffer.extmarks.get ns id = some m →
    m.Inside (size t.editor.buffer.text)
  persists : Persists ns t.left t.editor.buffer.extmarks
  states : ∀ state, Has t.editor.undoTree state → StateKept ns t state

/-- The counters of a state of the tree. -/
structure StatePlaced (t : Tracked P) (state : UndoState (Marks P)) : Prop where
  gen : state.snapExtmarkGen ≤ t.editor.buffer.extmarks.generation
  placed : ∀ ns id then_, ns ≠ cursorNs → state.snap.extmarks.get ns id = some then_ →
    (ns, id, then_.serial) ∈ t.placed
  fresh : state.seq = t.editor.stateSeq →
    state.snapExtmarkGen = t.editor.buffer.extmarks.generation → ∀ ns id, ns ≠ cursorNs →
    state.snap.extmarks.get ns id = t.editor.buffer.extmarks.get ns id

/-- **The invariant.** -/
structure Kept (t : Tracked P) : Prop where
  sound : t.editor.Sound
  nodup : t.placed.Nodup
  minted : ∀ p ∈ t.placed, p.2.2 ≤ t.editor.buffer.extmarks.nextSerial
  placed : ∀ ns id m, ns ≠ cursorNs → t.editor.buffer.extmarks.get ns id = some m →
    (ns, id, m.serial) ∈ t.placed
  states : ∀ state, Has t.editor.undoTree state → StatePlaced t state
  plain : ∀ ns, Plain t.editor ns → KeptIn ns t

omit [Inhabited P] in
theorem SameState.kept {t' : Tracked P} (same : SameState old state) (plain : ns ≠ cursorNs)
    (kept : StateKept ns t old) (stateSeq : t'.editor.stateSeq = t.editor.stateSeq)
    (buffer : t'.editor.buffer = t.editor.buffer) (left : t'.left = t.left) :
    StateKept ns t' state := by
  have marks := fun id => same.marks ns id plain
  constructor
  · intro id then_ found
    rw [marks] at found
    rw [same.text]
    exact kept.inside id then_ found
  · intro here id then_ m found live
    rw [marks] at found
    rw [buffer] at live
    exact kept.current (same.seq.symm.trans (here.trans stateSeq)) id then_ m found live
  · intro away
    obtain ⟨store, at_seq, minted, places⟩ := kept.left fun here =>
      away (same.seq.trans (here.trans stateSeq.symm))
    refine ⟨store, ?_, ?_, ?_⟩
    · rw [left, same.seq]
      exact at_seq
    · intro id then_ found
      rw [marks] at found
      exact minted id then_ found
    · intro id then_ m found
      rw [marks] at found
      exact places id then_ m found

omit [Inhabited P] in
/-- **A quiet step keeps the invariant.** -/
theorem Synced.kept (synced : Synced t.editor after) (kept : Kept t) :
    Kept { t with editor := after } := by
  obtain ⟨sound, buffer, stateSeq, ephemeral, states⟩ := synced
  constructor
  · exact sound
  · exact kept.nodup
  · show ∀ p ∈ t.placed, p.2.2 ≤ after.buffer.extmarks.nextSerial
    rw [buffer]
    exact kept.minted
  · show ∀ ns id m, ns ≠ cursorNs → after.buffer.extmarks.get ns id = some m → _
    rw [buffer]
    exact kept.placed
  · intro state has
    rcases states state has with ⟨old, held, same⟩ | live
    · have was := kept.states old held
      constructor
      · show _ ≤ after.buffer.extmarks.generation
        rw [buffer, same.gen]
        exact was.gen
      · intro ns id then_ plain found
        rw [same.marks ns id plain] at found
        exact was.placed ns id then_ plain found
      · intro here gen ns id plain
        show _ = after.buffer.extmarks.get ns id
        rw [buffer, same.marks ns id plain]
        simp only [buffer] at gen
        exact was.fresh (same.seq.symm.trans (here.trans stateSeq)) (same.gen.symm.trans gen) ns id
          plain
    · constructor
      · show _ ≤ after.buffer.extmarks.generation
        rw [buffer, live.gen]
      · intro ns id then_ plain found
        rw [live.marks ns id plain] at found
        exact kept.placed ns id then_ plain found
      · intro _ _ ns id plain
        show _ = after.buffer.extmarks.get ns id
        rw [buffer]
        exact live.marks ns id plain
  · intro ns plain
    have was := kept.plain ns ⟨plain.cursor, plain.anchor, fun here => plain.kept (ephemeral ns here)⟩
    constructor
    · show ∀ id m, after.buffer.extmarks.get ns id = some m → m.Inside (size after.buffer.text)
      rw [buffer]
      exact was.inside
    · show Persists ns t.left after.buffer.extmarks
      rw [buffer]
      exact was.persists
    · intro state has
      rcases states state has with ⟨old, held, same⟩ | live
      · exact same.kept plain.cursor (was.states old held) stateSeq buffer rfl
      · have marks := fun id => live.marks ns id plain.cursor
        constructor
        · intro id then_ found
          rw [marks] at found
          rw [live.text]
          exact was.inside id then_ found
        · intro _ id then_ m found here _
          simp only [buffer] at here
          rw [marks, here] at found
          cases found
          exact ⟨rfl, rfl⟩
        · intro away
          exact absurd (live.seq.trans stateSeq.symm) away

/-! ### Leaving a state -/

omit [Inhabited P] in
theorem leave_same (same : after.stateSeq = t.editor.stateSeq) :
    leave t after = t.left := if_pos same

omit [Inhabited P] in
/-- What a state that is not live was left with. -/
theorem Kept.left_leave (kept : Kept t) (plain : Plain t.editor ns)
    (has : Has t.editor.undoTree state) (away : state.seq ≠ after.stateSeq) :
    LeftWith ns (leave t after) state := by
  have was := (kept.plain ns plain).states state has
  rw [leave]
  split
  · rename_i same
    exact was.left fun here => away (here.trans same.symm)
  · by_cases here : state.seq = t.editor.stateSeq
    · refine ⟨t.editor.buffer.extmarks, ?_, ?_, was.current here⟩
      · rw [here, Function.update_self]
      · intro id then_ found
        exact kept.minted _ ((kept.states state has).placed ns id then_ plain.cursor found)
    · obtain ⟨store, at_seq, minted, places⟩ := was.left here
      refine ⟨store, ?_, minted, places⟩
      rw [Function.update_of_ne here]
      exact at_seq

omit [Inhabited P] in
/-- Placements persist where no mark is placed. -/
theorem KeptIn.persists_leave (kept : KeptIn ns t)
    (serials : live.nextSerial = t.editor.buffer.extmarks.nextSerial)
    (descends : ∀ id m, live.get ns id = some m →
      ∃ m', t.editor.buffer.extmarks.get ns id = some m' ∧ m'.serial = m.serial) :
    Persists ns (leave t after) live := by
  intro seq store at_seq
  have since : t.left seq = some store → store.nextSerial ≤ live.nextSerial ∧
      ∀ id m, live.get ns id = some m → m.serial ≤ store.nextSerial →
        ∃ m', store.get ns id = some m' ∧ m'.serial = m.serial := by
    intro was
    obtain ⟨minted, places⟩ := kept.persists seq store was
    refine ⟨by rw [serials]; exact minted, ?_⟩
    intro id m found early
    obtain ⟨m', found', same⟩ := descends id m found
    rw [← same] at early ⊢
    exact places id m' found' early
  rw [leave] at at_seq
  split at at_seq
  · exact since at_seq
  · by_cases here : seq = t.editor.stateSeq
    · rw [here, Function.update_self] at at_seq
      cases at_seq
      refine ⟨Nat.le_of_eq serials.symm, ?_⟩
      intro id m found _
      exact descends id m found
    · rw [Function.update_of_ne here] at at_seq
      exact since at_seq

/-! ### Edits and marks -/

omit [Inhabited P] in
/-- **An edit keeps the invariant**: it leaves every state of the tree. -/
theorem Kept.edit (kept : Kept t) (opened : t.editor.undoTree.dirty = true)
    {buffer : Buffer (Marks P)} (recorded : Recorded t.editor.buffer buffer) : Kept { t with
      editor := { t.editor with buffer := buffer }
      left := leave t { t.editor with buffer := buffer } } := by
  obtain ⟨edited, start, oldEnd, newEnd, forward, forward', within, length, shifted⟩ := recorded
  obtain ⟨sound, stateSeq⟩ := edit_stateSeq kept.sound opened edited
  have away : ∀ state, Has t.editor.undoTree state →
      state.seq ≠ ({ t.editor with buffer := buffer } : Editor (Marks P)).stateSeq := by
    intro state has
    rw [stateSeq]
    exact Nat.ne_of_lt (has.seq_lt kept.sound.consistent)
  have serials : buffer.extmarks.nextSerial = t.editor.buffer.extmarks.nextSerial := by
    rw [shifted, Extmarks.ExtmarkStore.shift]
    split <;> rfl
  have generation : buffer.extmarks.generation = t.editor.buffer.extmarks.generation := by
    rw [shifted, Extmarks.ExtmarkStore.shift]
    split <;> rfl
  have descends : ∀ ns id m, buffer.extmarks.get ns id = some m →
      ∃ m', t.editor.buffer.extmarks.get ns id = some m' ∧ m'.serial = m.serial := by
    intro ns id m found
    rw [shifted] at found
    obtain ⟨m', found', rfl | ⟨rfl, -⟩⟩ := Extmarks.ExtmarkStore.get_shift found
    · exact ⟨m', found', rfl⟩
    · exact ⟨m, found', rfl⟩
  constructor
  · exact sound
  · exact kept.nodup
  · intro p member
    exact (kept.minted p member).trans (Nat.le_of_eq serials.symm)
  · intro ns id m plain found
    obtain ⟨m', found', same⟩ := descends ns id m found
    rw [← same]
    exact kept.placed ns id m' plain found'
  · intro state has
    have was := kept.states state has
    exact ⟨was.gen.trans (Nat.le_of_eq generation.symm), was.placed,
      fun here => absurd here (away state has)⟩
  · intro ns plain
    have plain' : Plain t.editor ns := ⟨plain.cursor, plain.anchor, plain.kept⟩
    have was := kept.plain ns plain'
    constructor
    · intro id m found
      have found : buffer.extmarks.get ns id = some m := found
      rw [shifted] at found
      show m.Inside (size buffer.text)
      rw [length]
      obtain ⟨m', found', rfl | ⟨rfl, rfl, rfl⟩⟩ := Extmarks.ExtmarkStore.get_shift found
      · exact (was.inside id m' found').shift forward forward' within
      · rw [Nat.add_sub_cancel]
        exact was.inside id m found'
    · exact was.persists_leave serials (descends ns)
    · intro state has
      exact ⟨(was.states state has).inside, fun here => absurd here (away state has),
        fun _ => kept.left_leave plain' has (away state has)⟩

omit [Inhabited P] in
theorem mark_stateSeq (editor : Editor (Marks P)) (live : Marks P) :
    (mark editor live).stateSeq = editor.stateSeq := rfl

/-- What a change of the live store keeps: its marks were there, or are placed now. -/
structure Marked (editor : Editor (Marks P)) (live : Marks P) (placed : List Placement) : Prop where
  generation : editor.buffer.extmarks.generation < live.generation
  serials : editor.buffer.extmarks.nextSerial ≤ live.nextSerial
  marks : ∀ ns id m, live.get ns id = some m → editor.buffer.extmarks.get ns id = some m ∨
    ((ns, id, m.serial) ∈ placed ∧ m.Inside (size editor.buffer.text))
  minted : ∀ p ∈ placed, editor.buffer.extmarks.nextSerial < p.2.2 ∧ p.2.2 ≤ live.nextSerial
  nodup : placed.Nodup

omit [Inhabited P] in
/-- **A change of the marks keeps the invariant.** -/
theorem Kept.mark (kept : Kept t) {placed : List Placement} (marked : Marked t.editor live placed) :
    Kept ⟨UndoMarks.mark t.editor live, leave t (UndoMarks.mark t.editor live),
      placed ++ t.placed⟩ := by
  have left : leave t (UndoMarks.mark t.editor live) = t.left :=
    leave_same (mark_stateSeq t.editor live)
  -- A placement made now is none that any state was left with.
  have late : ∀ ns id m, live.get ns id = some m → t.editor.buffer.extmarks.get ns id = some m ∨
      t.editor.buffer.extmarks.nextSerial < m.serial := by
    intro ns id m found
    rcases marked.marks ns id m found with was | ⟨now, -⟩
    · exact Or.inl was
    · exact Or.inr (marked.minted _ now).1
  constructor
  · exact ⟨kept.sound.consistent, kept.sound.began, kept.sound.synced⟩
  · refine List.nodup_append.2 ⟨marked.nodup, kept.nodup, ?_⟩
    rintro p now q before rfl
    exact absurd (kept.minted p before) (Nat.not_le.2 (marked.minted p now).1)
  · intro p member
    rcases List.mem_append.1 member with now | before
    · exact (marked.minted p now).2
    · exact (kept.minted p before).trans marked.serials
  · intro ns id m plain found
    rcases marked.marks ns id m found with was | ⟨now, -⟩
    · exact List.mem_append_right _ (kept.placed ns id m plain was)
    · exact List.mem_append_left _ now
  · intro state has
    have was := kept.states state has
    constructor
    · exact was.gen.trans (Nat.le_of_lt marked.generation)
    · intro ns id then_ plain found
      exact List.mem_append_right _ (was.placed ns id then_ plain found)
    · intro _ gen
      exact absurd was.gen (Nat.not_le.2 (gen ▸ marked.generation))
  · intro ns plain
    have was := kept.plain ns ⟨plain.cursor, plain.anchor, plain.kept⟩
    constructor
    · intro id m found
      rcases marked.marks ns id m found with before | ⟨-, inside⟩
      · exact was.inside id m before
      · exact inside
    · rw [left]
      intro seq store at_seq
      obtain ⟨minted, places⟩ := was.persists seq store at_seq
      refine ⟨minted.trans marked.serials, ?_⟩
      intro id m found early
      rcases late ns id m found with before | later
      · exact places id m before early
      · exact absurd early (Nat.not_le.2 (Nat.lt_of_le_of_lt minted later))
    · intro state has
      have state_was := was.states state has
      constructor
      · exact state_was.inside
      · intro here id then_ m found live_m same
        rcases late ns id m live_m with before | later
        · exact state_was.current here id then_ m found before same
        · have early := kept.minted _
            ((kept.states state has).placed ns id then_ plain.cursor found)
          exact absurd (same ▸ early) (Nat.not_le.2 later)
      · rw [left]
        exact state_was.left

omit [Inhabited P] in
theorem set_marked (editor : Editor (Marks P)) (ns : Nat) (id : Option Nat) {start : Nat}
    {stop : Option Nat} (payload : P) (right endRight : Bool)
    (start_in : start ≤ size editor.buffer.text)
    (stop_in : (stop.all fun stop => start ≤ stop ∧ stop ≤ size editor.buffer.text) = true) :
    Marked editor (editor.buffer.extmarks.setWithGravity editor.buffer.extmarks.seen ns id start
        stop payload right endRight).1
      (placement editor (.set ns id start stop payload right endRight)) := by
  have seen := editor.buffer.extmarks.generation_le_seen
  constructor
  · exact Nat.lt_succ_of_le seen
  · exact Nat.le_succ _
  · intro ns' id' m found
    rcases Extmarks.ExtmarkStore.get_set found with ⟨same, named, rfl⟩ | was
    · right
      constructor
      · rw [same, named]
        exact List.mem_singleton_self _
      · refine ⟨start_in, ?_⟩
        intro stop' here
        have here : stop = some stop' := here
        subst here
        simpa using stop_in
    · exact Or.inl was
  · intro p member
    rw [List.mem_singleton.1 member]
    exact ⟨Nat.lt_succ_self _, Nat.le_refl _⟩
  · exact List.nodup_singleton _

omit [Inhabited P] in
/-- Taking marks away places none. -/
theorem fewer_marked {editor : Editor (Marks P)}
    (restamped : Restamped editor.buffer.extmarks live)
    (fewer : ∀ ns id m, live.get ns id = some m →
      editor.buffer.extmarks.get ns id = some m) : Marked editor live [] where
  generation := restamped.generation
  serials := Nat.le_of_eq restamped.nextSerial.symm
  marks := fun ns id m found => Or.inl (fewer ns id m found)
  minted := fun _ member => nomatch member
  nodup := List.nodup_nil

/-! ### Restored marks -/

/-- The live marks with a snapshot's places, before the cursors are put back. -/
def adopted (editor : Editor (Marks P)) (snap : Snapshot (Marks P)) : Marks P :=
  (editor.buffer.extmarks.adoptPositionsFrom editor.buffer.extmarks.seen snap.extmarks
    (size snap.text) (editor.around.ephemeral ++ [cursorNs, anchorNs])).1

/-- The adopted marks with the snapshot's cursors and anchors. -/
def merged (editor : Editor (Marks P)) (snap : Snapshot (Marks P)) : Marks P :=
  let cursors := Core.ExtmarkStore.moveNamespaceInto snap.extmarks cursorNs (adopted editor snap)
  (Core.ExtmarkStore.moveNamespaceInto cursors.1 anchorNs cursors.2).2

theorem restored_eq (editor : Editor (Marks P)) (snap : Snapshot (Marks P)) :
    editor.restoredExtmarks snap =
      if snap.cursorWindow ≠ some editor.around.window then
        Core.ExtmarkStore.clear (Core.ExtmarkStore.clear (merged editor snap) cursorNs) anchorNs
      else merged editor snap := rfl

theorem get_merged (editor : Editor (Marks P)) (snap : Snapshot (Marks P))
    (cursor : ns ≠ cursorNs) (anchor : ns ≠ anchorNs) (id : Nat) :
    (merged editor snap).get ns id = (adopted editor snap).get ns id :=
  (Extmarks.ExtmarkStore.get_move_of_ne _ _ _ anchor id).2.trans
    (Extmarks.ExtmarkStore.get_move_of_ne _ _ _ cursor id).2

theorem get_restored (editor : Editor (Marks P)) (snap : Snapshot (Marks P))
    (cursor : ns ≠ cursorNs) (anchor : ns ≠ anchorNs) (id : Nat) :
    (editor.restoredExtmarks snap).get ns id = (adopted editor snap).get ns id := by
  rw [restored_eq]
  split
  · exact (Extmarks.ExtmarkStore.get_clear_of_ne _ _ anchor _ _).trans
      ((Extmarks.ExtmarkStore.get_clear_of_ne _ _ cursor _ _).trans
        (get_merged editor snap cursor anchor id))
  · exact get_merged editor snap cursor anchor id

theorem get_restored_plain {editor : Editor (Marks P)} (snap : Snapshot (Marks P))
    (plain : Plain editor ns) (id : Nat) : (editor.restoredExtmarks snap).get ns id =
      (editor.buffer.extmarks.get ns id).map
        (adoptMark (snap.extmarks.get ns id) (size snap.text)) := by
  rw [get_restored editor snap plain.cursor plain.anchor]
  apply Extmarks.ExtmarkStore.get_adopt
  simp [plain.cursor, plain.anchor, plain.kept]

/-- A restored mark is a live one or the snapshot's. -/
theorem restored_serial {editor : Editor (Marks P)} {snap : Snapshot (Marks P)} {id : Nat}
    {m : Extmark P} (cursor : ns ≠ cursorNs)
    (found : (editor.restoredExtmarks snap).get ns id = some m) :
    ∃ m', (editor.buffer.extmarks.get ns id = some m' ∨ snap.extmarks.get ns id = some m') ∧
      m'.serial = m.serial := by
  by_cases anchor : ns = anchorNs
  · have from_merged : (merged editor snap).get ns id = some m := by
      rw [restored_eq] at found
      split at found
      · exact Extmarks.ExtmarkStore.get_clear (Extmarks.ExtmarkStore.get_clear found)
      · exact found
    have from_snap : snap.extmarks.get ns id = some m := by
      rw [← from_merged, anchor]
      rw [anchor] at cursor
      exact ((Extmarks.ExtmarkStore.get_move _ _ _ anchorNs id).trans
        (Extmarks.ExtmarkStore.get_move_of_ne _ _ _ cursor id).1).symm
    exact ⟨m, Or.inr from_snap, rfl⟩
  · rw [get_restored editor snap cursor anchor] at found
    by_cases ephemeral : ns ∈ editor.around.ephemeral
    · have skipped : ns ∈ editor.around.ephemeral ++ [cursorNs, anchorNs] :=
        List.mem_append_left _ ephemeral
      rw [adopted, Extmarks.ExtmarkStore.get_adopt_of_skip _ _ _ _ skipped] at found
      exact ⟨m, Or.inl found, rfl⟩
    · have adopts : ns ∉ editor.around.ephemeral ++ [cursorNs, anchorNs] := by
        simp [cursor, anchor, ephemeral]
      rw [adopted, Extmarks.ExtmarkStore.get_adopt _ _ _ _ adopts,
        Option.map_eq_some_iff] at found
      obtain ⟨m', found', rfl⟩ := found
      exact ⟨m', Or.inl found', (adoptMark_kept _ _ m').2.symm⟩

theorem restamped_restored (editor : Editor (Marks P)) (snap : Snapshot (Marks P)) :
    Restamped editor.buffer.extmarks (editor.restoredExtmarks snap) := by
  have moved : Restamped editor.buffer.extmarks (merged editor snap) :=
    ((Extmarks.ExtmarkStore.restamped_adopt _ _ _ _).trans
      (Extmarks.ExtmarkStore.restamped_move _ _ _)).trans
      (Extmarks.ExtmarkStore.restamped_move _ _ _)
  rw [restored_eq]
  split
  · exact (moved.trans (Extmarks.ExtmarkStore.restamped_clear _ _ _)).trans
      (Extmarks.ExtmarkStore.restamped_clear _ _ _)
  · exact moved

/-- **A restore keeps the invariant**: a settled editor lands on a state of its tree. -/
theorem Kept.land (kept : Kept t) (clean : t.editor.undoTree.dirty = false) {idx : Nat}
    (found : t.editor.undoTree.nodes[idx]? = some node) : Kept { t with
      editor := t.editor.land idx
      left := leave t (t.editor.land idx) } := by
  have landed := Editor.land_spec found
  obtain ⟨sound, -, stateSeq, -⟩ := landed.sound kept.sound clean found
  have nodes : (t.editor.land idx).undoTree.nodes = t.editor.undoTree.nodes := by
    rw [landed.tree]
  have extmarks : (t.editor.land idx).buffer.extmarks =
      t.editor.restoredExtmarks node.data.snap := by
    rw [Editor.land, found]
    rfl
  have ephemeral : (t.editor.land idx).around.ephemeral = t.editor.around.ephemeral := by
    rw [Editor.land, found]
    rfl
  have restamped := restamped_restored t.editor node.data.snap
  have target : Has t.editor.undoTree node.data := ⟨idx, node, found, rfl⟩
  have has_before : ∀ {state}, Has (t.editor.land idx).undoTree state →
      Has t.editor.undoTree state := by
    rintro state ⟨i, node', found', rfl⟩
    rw [nodes] at found'
    exact ⟨i, node', found', rfl⟩
  constructor
  · exact sound
  · exact kept.nodup
  · intro p member
    show p.2.2 ≤ (t.editor.land idx).buffer.extmarks.nextSerial
    rw [extmarks, restamped.nextSerial]
    exact kept.minted p member
  · intro ns id m cursor here
    have here : (t.editor.land idx).buffer.extmarks.get ns id = some m := here
    rw [extmarks] at here
    obtain ⟨m', live | snapped, same⟩ := restored_serial cursor here
    · rw [← same]
      exact kept.placed ns id m' cursor live
    · rw [← same]
      exact (kept.states _ target).placed ns id m' cursor snapped
  · intro state has
    have was := kept.states state (has_before has)
    have later : state.snapExtmarkGen < (t.editor.land idx).buffer.extmarks.generation := by
      rw [extmarks]
      exact Nat.lt_of_le_of_lt was.gen restamped.generation
    exact ⟨Nat.le_of_lt later, was.placed, fun _ gen => absurd gen (Nat.ne_of_lt later)⟩
  · intro ns plain
    have plain' : Plain t.editor ns := ⟨plain.cursor, plain.anchor, ephemeral ▸ plain.kept⟩
    have was := kept.plain ns plain'
    have marks : ∀ id, (t.editor.land idx).buffer.extmarks.get ns id =
        (t.editor.buffer.extmarks.get ns id).map
          (adoptMark (node.data.snap.extmarks.get ns id) (size node.data.snap.text)) := by
      intro id
      rw [extmarks]
      exact get_restored_plain node.data.snap plain' id
    constructor
    · intro id m here
      have here : (t.editor.land idx).buffer.extmarks.get ns id = some m := here
      show m.Inside (size (t.editor.land idx).buffer.text)
      rw [marks, Option.map_eq_some_iff] at here
      obtain ⟨m', -, rfl⟩ := here
      rw [landed.text]
      rcases adoptMark_cases (node.data.snap.extmarks.get ns id) (size node.data.snap.text) m'
        with ⟨then_, snapped, -, same⟩ | ⟨-, same⟩
      · rw [same]
        exact (was.states _ target).inside id then_ snapped
      · rw [same]
        exact Extmark.inside_clamped _ _
    · apply was.persists_leave
      · show (t.editor.land idx).buffer.extmarks.nextSerial = _
        rw [extmarks, restamped.nextSerial]
      · intro id m here
        have here : (t.editor.land idx).buffer.extmarks.get ns id = some m := here
        rw [marks, Option.map_eq_some_iff] at here
        obtain ⟨m', live, rfl⟩ := here
        exact ⟨m', live, (adoptMark_kept _ _ m').2.symm⟩
    · intro state has
      constructor
      · exact (was.states state (has_before has)).inside
      · intro here id then_ m snapped live same
        have live : (t.editor.land idx).buffer.extmarks.get ns id = some m := live
        have here : state.seq = (t.editor.land idx).stateSeq := here
        have is_target : state = node.data :=
          (has_before has).unique kept.sound.consistent target (here.trans stateSeq)
        subst is_target
        rw [marks, snapped, Option.map_eq_some_iff] at live
        obtain ⟨m', -, rfl⟩ := live
        rw [(adoptMark_kept _ _ m').2] at same
        rcases adoptMark_cases (some then_) (size node.data.snap.text) m' with
          ⟨then', itself, -, moved⟩ | ⟨other, -⟩
        · cases itself
          rw [moved]
          exact ⟨rfl, rfl⟩
        · exact absurd same (other then_ rfl)
      · intro away
        exact kept.left_leave plain' (has_before has) away

/-- **A restore does what it should**, on a settled editor. -/
theorem Kept.restored (kept : Kept t) (clean : t.editor.undoTree.dirty = false) {idx : Nat}
    (found : t.editor.undoTree.nodes[idx]? = some node)
    (moved : (t.editor.land idx).stateSeq ≠ t.editor.stateSeq) (plain : Plain t.editor ns)
    {before after : Tracked P} (buffer : before.editor.buffer = t.editor.buffer)
    (left : before.left = t.left) (lands : after.editor = t.editor.land idx) :
    Restored ns before after := by
  have landed := Editor.land_spec found
  obtain ⟨-, -, stateSeq, -⟩ := landed.sound kept.sound clean found
  have was := kept.plain ns plain
  have target : Has t.editor.undoTree node.data := ⟨idx, node, found, rfl⟩
  have at_cur : snapshotMarks after.editor = some node.data.snap.extmarks := by
    rw [snapshotMarks, lands, landed.tree]
    simp only [found, Option.map_some]
  have marks : ∀ id, after.editor.buffer.extmarks.get ns id =
      (before.editor.buffer.extmarks.get ns id).map
        (adoptMark (node.data.snap.extmarks.get ns id) (size node.data.snap.text)) := by
    intro id
    rw [buffer, lands, Editor.land, found]
    exact get_restored_plain node.data.snap plain id
  have text : after.editor.buffer.text = node.data.snap.text := by rw [lands, landed.text]
  constructor
  · intro id
    rw [marks, Option.map_map]
    apply congrFun
    apply congrArg
    funext m
    exact (adoptMark_kept _ _ m).1
  · intro store id m then_ current here snapped same
    rw [at_cur] at current
    cases current
    rw [marks, Option.map_eq_some_iff] at here
    obtain ⟨m', live, rfl⟩ := here
    rw [(adoptMark_kept _ _ m').2] at same
    rcases adoptMark_cases (node.data.snap.extmarks.get ns id) (size node.data.snap.text) m' with
      ⟨then', itself, -, placed⟩ | ⟨other, -⟩
    · rw [snapped] at itself
      cases itself
      have away : node.data.seq ≠ t.editor.stateSeq := fun here => moved (stateSeq.trans here)
      obtain ⟨store, at_seq, minted, places⟩ := (was.states _ target).left away
      have early := minted id then_ snapped
      rw [same] at early
      rw [buffer] at live
      obtain ⟨m₀, was_there, serial⟩ := (was.persists _ store at_seq).2 id m' live early
      have place := places id then_ m₀ snapped was_there (same.trans serial.symm)
      refine ⟨store, m₀, ?_, was_there, ?_, ?_, ?_⟩
      · rw [left, lands, stateSeq]
        exact at_seq
      · rw [serial, (adoptMark_kept _ _ m').2]
      · rw [placed]
        exact place.1.symm
      · rw [placed]
        exact place.2.symm
    · exact absurd same (other then_ snapped)
  · intro store id m current here other
    rw [at_cur] at current
    cases current
    rw [marks, Option.map_eq_some_iff] at here
    obtain ⟨m', live, rfl⟩ := here
    refine ⟨m', live, ?_⟩
    rw [text]
    rcases adoptMark_cases (node.data.snap.extmarks.get ns id) (size node.data.snap.text) m' with
      ⟨then_, snapped, same, -⟩ | ⟨-, placed⟩
    · exact absurd (same.trans (adoptMark_kept _ _ m').2.symm) (other then_ snapped)
    · exact placed
  · have later := (kept.land clean found).plain ns
      ⟨plain.cursor, plain.anchor, by
        have ephemeral : (t.editor.land idx).around.ephemeral = t.editor.around.ephemeral := by
          rw [Editor.land, found]
          rfl
        exact ephemeral.symm ▸ plain.kept⟩
    rw [lands]
    exact later.inside

/-! ### Steps -/

omit [Inhabited P] in
theorem Kept.synced (kept : Kept t) (synced : Synced t.editor after) :
    Kept ⟨after, leave t after, t.placed⟩ := by
  rw [leave_same synced.stateSeq]
  exact synced.kept kept

omit [Inhabited P] in
theorem edit_kept (kept : Kept t) {next : Option (Buffer (Marks P))}
    (recorded : ∀ buffer, next = some buffer →
      buffer = t.editor.buffer ∨ Recorded t.editor.buffer buffer)
    (edited : edit t.editor next = some after) : Kept ⟨after, leave t after, t.placed⟩ := by
  rw [edit] at edited
  split at edited
  · rename_i opened
    obtain ⟨buffer, here, rfl⟩ := Option.map_eq_some_iff.1 edited
    rcases recorded buffer here with rfl | recorded
    · exact kept.synced (.refl kept.sound)
    · exact kept.edit opened recorded
  · cases edited

/-- Where a commit leaves a state, so does what it commits. -/
theorem leave_commit (kept : Kept t) (after : Editor (Marks P)) :
    leave { t with editor := t.editor.commitUndo } after = leave t after := by
  have committed := commitUndo_synced kept.sound
  simp only [leave, committed.stateSeq, committed.buffer]

theorem Kept.travels (kept : Kept t) (travels : Travels t.editor after) :
    Kept ⟨after, leave t after, t.placed⟩ := by
  cases travels with
  | stays synced => exact kept.synced synced
  | lands idx node found =>
      have committed := (commitUndo_synced kept.sound).kept kept
      have landed := committed.land (Editor.commitUndo_quiet kept.sound).2 found
      rw [← leave_commit kept]
      exact landed

theorem commitUndo_around (editor : Editor (Marks P)) :
    editor.commitUndo.around = editor.around := by
  rw [Editor.commitUndo]
  split
  · rfl
  · split <;> rfl

theorem travels_restored (kept : Kept t) (travels : Travels t.editor after)
    (moved : after.stateSeq ≠ t.editor.stateSeq) (plain : Plain t.editor ns) :
    Restored ns t ⟨after, leave t after, t.placed⟩ := by
  cases travels with
  | stays synced => exact absurd synced.stateSeq moved
  | lands idx node found =>
      have synced := commitUndo_synced kept.sound
      have plain' : Plain t.editor.commitUndo ns :=
        ⟨plain.cursor, plain.anchor, (commitUndo_around t.editor).symm ▸ plain.kept⟩
      rw [← synced.stateSeq] at moved
      exact (synced.kept kept).restored (Editor.commitUndo_quiet kept.sound).2 found moved plain'
        synced.buffer.symm rfl rfl

/-- What a move through the tree does. -/
theorem moves_travels {editor : Editor (Marks P)} (sound : editor.Sound)
    (moves : event.moves = true) (taken : editorStep editor event = some after) :
    Travels editor after := by
  cases event with
  | undo =>
      cases taken
      exact travels_of_routed sound (Editor.undo_routed sound)
  | redo =>
      cases taken
      exact travels_of_routed sound (Editor.redo_routed sound)
  | undoToSeq target =>
      cases taken
      exact travels_of_routed sound (Editor.undoToSeq_routed _ target)
  | undoTravel count back =>
      cases taken
      exact travels_of_routed sound (Editor.undoTravel_routed sound count back)
  | undoTravelTime secs back =>
      cases taken
      exact travels_of_routed sound (Editor.undoTravelTime_routed sound secs back)
  | undoTravelFile count back =>
      cases taken
      exact travels_of_routed sound (Editor.undoTravelFile_routed sound count back)
  | _ => cases moves

omit [Inhabited P] in
theorem placement_moves {editor : Editor (Marks P)} (moves : event.moves = true) :
    placement editor event = [] := by
  cases event with
  | set => cases moves
  | _ => rfl

/-- **The step lemma.** -/
theorem step_kept (kept : Kept t) (taken : step t event = some next) : Kept next := by
  obtain ⟨after, stepped, rfl⟩ := Option.map_eq_some_iff.1 taken
  clear taken
  cases moves : event.moves with
  | true =>
      rw [placement_moves moves]
      exact kept.travels (moves_travels kept.sound moves stepped)
  | false =>
      cases event with
      | insert byte s => exact edit_kept kept (fun _ here => insert_recorded here) stepped
      | remove start stop => exact edit_kept kept (fun _ here => remove_recorded here) stepped
      | replace start stop s => exact edit_kept kept (fun _ here => replace_recorded here) stepped
      | set ns id start stop payload right endRight =>
          simp only [editorStep] at stepped
          split at stepped
          · rename_i inside
            cases stepped
            exact kept.mark (set_marked t.editor ns id payload right endRight inside.1 inside.2)
          · cases stepped
      | del ns id =>
          cases stepped
          exact kept.mark (fewer_marked (Extmarks.ExtmarkStore.restamped_del _ _ _)
            fun _ _ _ => Extmarks.ExtmarkStore.get_del)
      | clear ns range =>
          cases stepped
          exact kept.mark (fewer_marked (Extmarks.ExtmarkStore.restamped_clear _ _ _)
            fun _ _ _ => Extmarks.ExtmarkStore.get_clear)
      | surround around =>
          simp only [editorStep] at stepped
          split at stepped
          · rename_i surrounds
            cases stepped
            exact kept.synced (.of_nodes (.of_same kept.sound rfl rfl rfl)
              (by simpa using surrounds.2) rfl)
          · cases stepped
      | session taken' =>
          cases stepped
          exact kept.synced (.of_nodes (.of_same kept.sound rfl rfl rfl) (fun _ here => here) rfl)
      | commitUndo =>
          cases stepped
          exact kept.synced (commitUndo_synced kept.sound)
      | pushUndo =>
          cases stepped
          exact kept.synced (pushUndo_synced kept.sound)
      | pushUndoFor =>
          cases stepped
          exact kept.synced (openGroup_synced kept.sound)
      | breakUndoStep =>
          cases stepped
          exact kept.synced (breakUndoStep_synced kept.sound)
      | markUndoSaved =>
          cases stepped
          exact kept.synced (markUndoSaved_synced kept.sound)
      | _ => cases moves

theorem initial_kept (buffer : Buffer (Marks P)) (around : Surroundings) :
    Kept (initial buffer around) := by
  have only : ∀ state, Has (initial buffer around).editor.undoTree state →
      state.snap.extmarks = .default ∧ state.snapExtmarkGen = 0 ∧
        state.seq = (initial buffer around).editor.stateSeq := by
    rintro state ⟨idx, node, found, rfl⟩
    have member := List.mem_of_getElem? found
    rw [List.mem_singleton.1 member]
    exact ⟨rfl, rfl, rfl⟩
  constructor
  · exact UndoRuns.start_sound _ around
  · exact List.nodup_nil
  · intro p member
    cases member
  · intro ns id m _ found
    cases found
  · intro state has
    obtain ⟨extmarks, gen, -⟩ := only state has
    constructor
    · exact Nat.le_of_eq gen
    · intro ns id then_ _ found
      rw [extmarks] at found
      cases found
    · intro _ _ ns id _
      rw [extmarks]
      rfl
  · intro ns _
    constructor
    · intro id m found
      cases found
    · intro seq store left
      cases left
    · intro state has
      obtain ⟨extmarks, -, seq⟩ := only state has
      constructor
      · intro id then_ found
        rw [extmarks] at found
        cases found
      · intro _ id then_ m found
        rw [extmarks] at found
        cases found
      · intro away
        exact absurd seq away

theorem reached_kept {buffer : Buffer (Marks P)} {around : Surroundings} {events : List (Event P)}
    (reached : run step (initial buffer around) events = some t) : Kept t :=
  Run.run_invariant Kept (fun _ _ _ => step_kept) (initial_kept buffer around) reached

/-! ### Syncs -/

theorem refresh_gen {editor : Editor (Marks P)} (sound : editor.Sound) :
    editor.refreshUndoCursorMarks.undoTree.curSnapshotExtmarkGen =
      some editor.buffer.extmarks.generation := by
  obtain ⟨node, found, -⟩ := sound.consistent.current
  simp only [Editor.refreshUndoCursorMarks, UndoTree.setCurSnapshotCursors, UndoTree.modifyState,
    UndoTree.curSnapshotExtmarkGen]
  obtain ⟨node', found', -, data'⟩ := Arena.modifyData_found editor.undoTree.cur _ found
  obtain ⟨node'', found'', -, data''⟩ := Arena.modifyData_found editor.undoTree.cur _ found'
  rw [found'', Option.map_some, data'', if_pos rfl, data', if_pos rfl]
  rfl

/-- A commit stamps the state it makes with the live stamp. -/
theorem commit_gen {editor : Editor (Marks P)} (sound : editor.Sound)
    (pending : editor.pending = true) :
    editor.commitUndo.undoTree.curSnapshotExtmarkGen =
      some editor.buffer.extmarks.generation := by
  have opened : ¬ ¬ editor.undoTree.dirty = true := by
    intro closed
    rw [Editor.not_pending_of_clean (by simpa using closed)] at pending
    cases pending
  obtain ⟨node, node', found, found', same⟩ := (Editor.committed_restricts sound
    (undoLevelsToKeep editor.around.undolevels)).current
  have fresh := Arena.push_new editor.undoTree.nodes editor.undoTree.cur
    ({ seq := editor.undoTree.nextSeq
       time := editor.undoTree.dirtySince
       save := none
       snap := editor.snapshotOf
       snapExtmarkGen := editor.buffer.extmarks.generation } : UndoState (Marks P))
  have fresh := found.symm.trans fresh
  rw [Editor.commitUndo, if_neg opened, if_neg (by simp [pending])]
  simp only [UndoTree.curSnapshotExtmarkGen]
  rw [found', Option.map_some, same, Option.some.inj fresh]

omit [Inhabited P] in
/-- A settled editor whose current snapshot has the live stamp holds the live marks in it. -/
theorem Kept.in_sync (kept : Kept t) (settled : t.editor.pending = false)
    (gen : t.editor.undoTree.curSnapshotExtmarkGen = some t.editor.buffer.extmarks.generation)
    (current : snapshotMarks t.editor = some marks) (plain : ns ≠ cursorNs) (id : Nat) :
    marks.get ns id = t.editor.buffer.extmarks.get ns id := by
  obtain ⟨state, has, ⟨node, found, rfl⟩, seq, -⟩ := current_state kept.sound settled
  rw [snapshotMarks, found] at current
  rw [UndoTree.curSnapshotExtmarkGen, found] at gen
  cases current
  exact (kept.states _ has).fresh seq (Option.some.inj gen) ns id plain

/-- A group opened on a settled editor leaves it settled, with the live stamp. -/
theorem opened_gen {editor : Editor (Marks P)} (sound : editor.Sound)
    (clean : editor.undoTree.dirty = false) :
    editor.refreshUndoCursorMarks.markDirty.pending = false ∧
      editor.refreshUndoCursorMarks.markDirty.undoTree.curSnapshotExtmarkGen =
        some editor.buffer.extmarks.generation := by
  have still : editor.refreshUndoCursorMarks.undoTree.dirty = false := clean
  rw [Editor.markDirty, UndoTree.markDirty, still]
  refine ⟨?_, refresh_gen sound⟩
  simp [Editor.pending, UndoTree.pending]

/-- **A sync takes every live mark into the snapshot** of the live state. -/
theorem Kept.syncs (kept : Kept t) (syncs : event.syncs t.editor = true)
    (taken : step t event = some next) (current : snapshotMarks next.editor = some marks)
    (plain : ns ≠ cursorNs) (id : Nat) :
    marks.get ns id = next.editor.buffer.extmarks.get ns id := by
  have after := step_kept kept taken
  obtain ⟨editor, stepped, rfl⟩ := Option.map_eq_some_iff.1 taken
  have clean := (Editor.commitUndo_quiet kept.sound).2
  have committed := commitUndo_synced kept.sound
  have opened := opened_gen committed.sound clean
  rw [committed.buffer] at opened
  have buffer : t.editor.commitUndo.refreshUndoCursorMarks.markDirty.buffer = t.editor.buffer :=
    committed.buffer
  cases event with
  | commitUndo =>
      cases stepped
      refine after.in_sync (Editor.not_pending_of_clean clean) ?_ current plain id
      simp only [committed.buffer]
      exact commit_gen kept.sound syncs
  | pushUndo =>
      cases stepped
      have pushed : t.editor.pushUndo.pending = false ∧
          t.editor.pushUndo.undoTree.curSnapshotExtmarkGen =
            some t.editor.pushUndo.buffer.extmarks.generation := by
        simp only [Event.syncs, Bool.not_eq_true', Bool.and_eq_false_iff] at syncs
        rw [Editor.pushUndo]
        by_cases session : t.editor.snapshotTaken = true
        · have closed : t.editor.undoTree.dirty = false := by simpa [session] using syncs
          rw [if_pos session, if_pos (by simp [closed])]
          exact opened_gen kept.sound closed
        · rw [if_neg session, buffer]
          exact opened
      exact after.in_sync pushed.1 pushed.2 current plain id
  | pushUndoFor =>
      cases stepped
      refine after.in_sync opened.1 ?_ current plain id
      simp only [Editor.pushUndoFor, buffer]
      exact opened.2
  | breakUndoStep =>
      cases stepped
      refine after.in_sync opened.1 ?_ current plain id
      simp only [Editor.breakUndoStep, buffer]
      exact opened.2
  | _ => cases syncs

/-! ### What undo does to the marks -/

/-- **Undo takes marks back to their places, and leaves which marks there are.**  In every state a run
from an unmarked buffer reaches: no two placements in the live store share namespace, id and
serial, and outside `CURSOR_NS` every mark, live or in a snapshot, is one of them; a commit or an
opened group takes every live mark into the snapshot of the live state; and a move that lands on
another state restores its marks. -/
theorem marks_restored {buffer : Buffer (Marks P)} {around : Surroundings}
    {events : List (Event P)} {t : Tracked P}
    (reached : run step (initial buffer around) events = some t) :
    (t.placed.Nodup ∧ ∀ ns id serial, ns ≠ cursorNs → Holds t.editor ns id serial →
      (ns, id, serial) ∈ t.placed) ∧
    (∀ event next, step t event = some next → event.syncs t.editor = true →
      ∀ marks, snapshotMarks next.editor = some marks → ∀ ns id, ns ≠ cursorNs →
        marks.get ns id = next.editor.buffer.extmarks.get ns id) ∧
    (∀ event next, step t event = some next → event.moves = true →
      next.editor.stateSeq ≠ t.editor.stateSeq → ∀ ns, ns ≠ cursorNs → ns ≠ anchorNs →
        ns ∉ t.editor.around.ephemeral → Restored ns t next) := by
  have kept := reached_kept reached
  refine ⟨⟨kept.nodup, ?_⟩, ?_, ?_⟩
  · rintro ns id serial plain (⟨m, found, rfl⟩ | ⟨idx, node, m, at_idx, found, rfl⟩)
    · exact kept.placed ns id m plain found
    · exact (kept.states _ ⟨idx, node, at_idx, rfl⟩).placed ns id m plain found
  · intro event next taken syncs marks current ns id plain
    exact kept.syncs syncs taken current plain id
  · intro event next taken moves moved ns cursor anchor ephemeral
    obtain ⟨after, stepped, rfl⟩ := Option.map_eq_some_iff.1 taken
    rw [placement_moves moves]
    exact travels_restored kept (moves_travels kept.sound moves stepped) moved
      ⟨cursor, anchor, ephemeral⟩

/-- A buffer over a text, without marks. -/
def opened (text : Text) : Buffer (Marks Unit) :=
  { Buffer.ofText text with extmarks := .default }

/-- A mark behind an insertion, and the insertion undone. -/
theorem marks_restored_undone :
    ∃ t next : Tracked Unit,
      run step (initial (opened ['a', '\n']) UndoRuns.calm)
          [.set 7 (some 0) 1 none () true false, .pushUndo, .insert 0 ['x']] = some t ∧
        step t .undo = some next ∧ Restored 7 t next := by
  have reached : ∃ t next : Tracked Unit,
      run step (initial (opened ['a', '\n']) UndoRuns.calm)
          [.set 7 (some 0) 1 none () true false, .pushUndo, .insert 0 ['x']] = some t ∧
        step t .undo = some next ∧ next.editor.stateSeq ≠ t.editor.stateSeq ∧
        t.editor.around.ephemeral = [] :=
    ⟨_, _, rfl, rfl, by decide, rfl⟩
  obtain ⟨t, next, reached, taken, moved, ephemeral⟩ := reached
  refine ⟨t, next, reached, taken, ?_⟩
  apply (marks_restored reached).2.2 .undo next taken rfl moved 7 (by decide) (by decide)
  rw [ephemeral]
  exact List.not_mem_nil

/-- A mark set in a state after its commit, and not taken into its snapshot: undone and redone, the
state has it elsewhere than it was left with.  And a cursor's placement in a snapshot has the
serial of another placement under its id. -/
theorem restored_elsewhere :
    (∃ t next : Tracked Unit,
      run step (initial (opened []) UndoRuns.calm)
          [.pushUndo, .insert 0 ['a', 'b'], .commitUndo, .set 7 (some 0) 2 none () true false,
            .undo] = some t ∧
        step t .redo = some next ∧
        ((t.left next.editor.stateSeq).bind fun left => left.get 7 0).map
          (fun m => (m.serial, m.start)) = some (1, 2) ∧
        (next.editor.buffer.extmarks.get 7 0).map (fun m => (m.serial, m.start)) = some (1, 0)) ∧
    ∃ t next : Tracked Unit,
      run step (initial (opened ['a', '\n']) { UndoRuns.calm with secondary := [0] })
          [.set cursorNs none 0 none () true false, .pushUndo] = some t ∧
        t.editor.buffer.extmarks.get cursorNs 1 = none ∧
        step t (.set cursorNs none 1 none () true false) = some next ∧
        ((snapshotMarks next.editor).bind fun marks => marks.get cursorNs 1).map
          (fun m => (m.serial, m.start)) = some (2, 0) ∧
        (next.editor.buffer.extmarks.get cursorNs 1).map
          (fun m => (m.serial, m.start)) = some (2, 1) := by
  constructor
  · exact ⟨_, _, rfl, rfl, by decide, by decide⟩
  · exact ⟨_, _, rfl, by decide, rfl, by decide, by decide⟩

end UndoMarks

end Bemtvi.Core
