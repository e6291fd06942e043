/-
Module: Bemtvi.Core.UndoRuns
Purpose: Runs of the undo commands with edits, writes and a changing editor around them.  The tree
  stays consistent and in step with the buffer, `:undo {N}` puts back the text state N had when
  it was left, and `u` then `<C-r>` the text of the newest branch, which is the one left unless
  an older branch was.
Trusted boundary: none
Main exports: Edited, Event, step, Change, step_change, step_keeps, Watched, Watched.Kept,
  undo_tree_kept
-/
import Bemtvi.Core.UndoLaws
import Bemtvi.Lib.Run

namespace Bemtvi.Core.UndoRuns

open Utf8
open Run (run run_invariant)

variable {E : Type}

/-! ### Events -/

/-- A text edit: the tick moves on, and the buffer is modified. -/
structure Edited (before after : Buffer E) : Prop where
  changedtick : before.changedtick < after.changedtick
  modified : after.modified = true

/-- Anything but a text edit: marks, drains, options. -/
structure Touched (before after : Buffer E) : Prop where
  text : after.text = before.text
  changedtick : after.changedtick = before.changedtick
  modified : after.modified = before.modified

instance (before after : Buffer E) : Decidable (Edited before after) :=
  decidable_of_iff (before.changedtick < after.changedtick ∧ after.modified = true)
    ⟨fun both => ⟨both.1, both.2⟩, fun edited => ⟨edited.1, edited.2⟩⟩

instance (before after : Buffer E) : Decidable (Touched before after) :=
  decidable_of_iff (after.text = before.text ∧ after.changedtick = before.changedtick ∧
      after.modified = before.modified)
    ⟨fun all => ⟨all.1, all.2.1, all.2.2⟩, fun touched => ⟨touched.1, touched.2, touched.3⟩⟩

/-- What happens to the focused buffer and its history. -/
inductive Event (E : Type) where
  /-- A text edit, inside an open group. -/
  | edit (next : Buffer E)
  | touch (next : Buffer E)
  /-- The cursor, the mode, the window, the clock or an option changes. -/
  | surround (around : Surroundings)
  /-- An insert session or a batch sets or clears `snapshot_taken`. -/
  | session (taken : Bool)
  | commitUndo
  | pushUndo
  | pushUndoFor
  | beforeTypedEdit (kind : EditKind) (ch : Option Char)
  | afterTypedEdit
  | breakUndoStep
  | endTypingStep
  | beginReplacingStep
  | resetTypingUndo
  | oweTypingStep
  | markUndoPoint
  | beginUndoAtomic
  | endUndoAtomic
  | markUndoSaved
  | undo
  | redo
  | undoToSeq (target : Nat)
  | undoTravel (count : Nat) (back : Bool)
  | undoTravelTime (secs : Int) (back : Bool)
  | undoTravelFile (count : Nat) (back : Bool)

variable [ExtmarkStore E]

/-- One event; an edit comes behind a push, with its group still open. -/
def step [Alphabet] (editor : Editor E) : Event E → Option (Editor E)
  | .edit next =>
      if editor.undoTree.dirty ∧ Edited editor.buffer next then
        some { editor with buffer := next }
      else none
  | .touch next =>
      if Touched editor.buffer next then some { editor with buffer := next } else none
  | .surround around => some { editor with around := around }
  | .session taken => some { editor with snapshotTaken := taken }
  | .commitUndo => some editor.commitUndo
  | .pushUndo => some editor.pushUndo
  | .pushUndoFor => some editor.pushUndoFor
  | .beforeTypedEdit kind ch => some (editor.beforeTypedEdit kind ch)
  | .afterTypedEdit => some editor.afterTypedEdit
  | .breakUndoStep => some editor.breakUndoStep
  | .endTypingStep => some editor.endTypingStep
  | .beginReplacingStep => some editor.beginReplacingStep
  | .resetTypingUndo => some editor.resetTypingUndo
  | .oweTypingStep => some editor.oweTypingStep
  | .markUndoPoint => some editor.markUndoPoint
  | .beginUndoAtomic => some editor.beginUndoAtomic
  | .endUndoAtomic => some editor.endUndoAtomic
  | .markUndoSaved => some editor.markUndoSaved
  | .undo => some editor.undo
  | .redo => some editor.redo
  | .undoToSeq target => some (editor.undoToSeq target)
  | .undoTravel count back => some (editor.undoTravel count back)
  | .undoTravelTime secs back => some (editor.undoTravelTime secs back)
  | .undoTravelFile count back => some (editor.undoTravelFile count back)

/-! ### What one event does -/

/-- **One event** moves through the tree, edits the text inside an open group, or touches what is not
text. -/
inductive Change (before after : Editor E) : Prop
  | moved (moved : Editor.Moved before after)
  | edited (next : Buffer E) (opened : before.undoTree.dirty = true)
      (edited : Edited before.buffer next) (same : after = { before with buffer := next })
  | touched (next : Buffer E) (touched : Touched before.buffer next)
      (same : after = { before with buffer := next })

variable {before after editor : Editor E}

theorem step_change [Alphabet] {event : Event E} (sound : before.Sound)
    (unsaved : event ≠ .markUndoSaved) (stepped : step before event = some after) :
    Change before after := by
  have quietly : ∀ {next : Editor E}, Quiet before next → Change before next :=
    fun quiet => .moved (.stays quiet)
  cases event with
  | edit next =>
      simp only [step] at stepped
      split at stepped
      · next enabled =>
          cases stepped
          exact .edited next enabled.1 enabled.2 rfl
      · cases stepped
  | touch next =>
      simp only [step] at stepped
      split at stepped
      · next enabled =>
          cases stepped
          exact .touched next enabled rfl
      · cases stepped
  | surround around =>
      cases stepped
      exact quietly (.of_same sound rfl rfl rfl)
  | session taken =>
      cases stepped
      exact quietly (.of_same sound rfl rfl rfl)
  | commitUndo =>
      cases stepped
      exact quietly (Editor.commitUndo_quiet sound).1
  | pushUndo =>
      cases stepped
      exact quietly (Editor.pushUndo_quiet sound)
  | pushUndoFor =>
      cases stepped
      exact quietly (Editor.openGroup_quiet sound)
  | beforeTypedEdit kind ch =>
      cases stepped
      exact quietly (Editor.beforeTypedEdit_quiet sound kind ch)
  | afterTypedEdit =>
      cases stepped
      exact quietly (.of_same sound rfl rfl rfl)
  | breakUndoStep =>
      cases stepped
      exact quietly (Editor.breakUndoStep_quiet sound)
  | endTypingStep =>
      cases stepped
      exact quietly (Editor.endTypingStep_quiet sound)
  | beginReplacingStep =>
      cases stepped
      exact quietly (Editor.beginReplacingStep_quiet sound)
  | resetTypingUndo =>
      cases stepped
      exact quietly (.of_same sound rfl rfl rfl)
  | oweTypingStep =>
      cases stepped
      exact quietly (.of_same sound rfl rfl rfl)
  | markUndoPoint =>
      cases stepped
      exact quietly (Editor.markUndoPoint_quiet sound)
  | beginUndoAtomic =>
      cases stepped
      exact quietly (Editor.beginUndoAtomic_quiet sound)
  | endUndoAtomic =>
      cases stepped
      exact quietly (Editor.endUndoAtomic_quiet sound)
  | markUndoSaved => exact absurd rfl unsaved
  | undo =>
      cases stepped
      exact .moved ((Editor.undo_routed sound).moved sound)
  | redo =>
      cases stepped
      exact .moved ((Editor.redo_routed sound).moved sound)
  | undoToSeq target =>
      cases stepped
      exact .moved ((Editor.undoToSeq_routed _ target).moved sound)
  | undoTravel count back =>
      cases stepped
      exact .moved ((Editor.undoTravel_routed sound count back).moved sound)
  | undoTravelTime secs back =>
      cases stepped
      exact .moved ((Editor.undoTravelTime_routed sound secs back).moved sound)
  | undoTravelFile count back =>
      cases stepped
      exact .moved ((Editor.undoTravelFile_routed sound count back).moved sound)

omit [ExtmarkStore E] in
/-- An edit inside an open group is pending. -/
theorem edited_pending {next : Buffer E} (sound : before.Sound)
    (opened : before.undoTree.dirty = true) (edited : Edited before.buffer next) :
    ({ before with buffer := next } : Editor E).pending = true := by
  have began := sound.began opened
  have later := Nat.lt_of_le_of_lt began edited.changedtick
  simp [Editor.pending, UndoTree.pending, opened, Nat.ne_of_gt later]

/-- A sound editor, whose tree has no state but the old ones and the pending one. -/
structure Keeps (before after : Editor E) : Prop where
  sound : after.Sound
  states : ∀ seq text, after.undoTree.Holds seq text → before.undoTree.Holds seq text ∨
    (before.pending = true ∧ seq = before.undoTree.nextSeq ∧ text = before.buffer.text)

omit [ExtmarkStore E] in
theorem moved_keeps (moved : Editor.Moved before after) : Keeps before after := by
  cases moved with
  | stays quiet => exact ⟨quiet.sound, quiet.states⟩
  | moves middle node idx quiet clean found landed =>
      rcases landed.sound quiet.sound clean found with ⟨sound, -, -, holds⟩
      refine ⟨sound, ?_⟩
      intro seq text held
      exact quiet.states seq text ((holds seq text).1 held)

omit [ExtmarkStore E] in
theorem edited_keeps {next : Buffer E} (sound : before.Sound)
    (opened : before.undoTree.dirty = true) (edited : Edited before.buffer next) :
    Keeps before { before with buffer := next } := by
  have pending := edited_pending sound opened edited
  constructor
  · constructor
    · exact sound.consistent
    · intro _
      exact Nat.le_trans (sound.began opened) (Nat.le_of_lt edited.changedtick)
    · intro settled
      rw [pending] at settled
      cases settled
  · intro seq text held
    exact Or.inl held

omit [ExtmarkStore E] in
/-- Nothing but the text and the tick of the buffer matters to its history. -/
theorem touched_keeps (sound : before.Sound) (next : Buffer E)
    (text : next.text = before.buffer.text)
    (changedtick : next.changedtick = before.buffer.changedtick) :
    Keeps before { before with buffer := next } := by
  have pending : ({ before with buffer := next } : Editor E).pending = before.pending := by
    simp only [Editor.pending, changedtick]
  constructor
  · constructor
    · exact sound.consistent
    · intro opened
      show _ ≤ next.changedtick
      rw [changedtick]
      exact sound.began opened
    · intro settled
      show before.undoTree.Holds _ next.text
      rw [text]
      exact sound.synced (pending ▸ settled)
  · intro seq text held
    exact Or.inl held

theorem markUndoSaved_keeps (sound : before.Sound) : Keeps before before.markUndoSaved := by
  have quiet := (Editor.markUndoSaved_spec sound).1
  exact ⟨⟨quiet.sound.consistent, quiet.sound.began, quiet.sound.synced⟩, quiet.states⟩

/-- **The step lemma.**  An event keeps the editor sound, and no state is new but the pending one. -/
theorem step_keeps [Alphabet] {event : Event E} (sound : before.Sound)
    (stepped : step before event = some after) : Keeps before after := by
  by_cases saving : event = .markUndoSaved
  · subst saving
    cases stepped
    exact markUndoSaved_keeps sound
  · cases step_change sound saving stepped with
    | moved moved => exact moved_keeps moved
    | edited next opened edited same =>
        subst same
        exact edited_keeps sound opened edited
    | touched next touched same =>
        subst same
        exact touched_keeps sound next touched.text touched.changedtick

/-! ### Runs -/

/-- An editor, with the text each state had when it was last live. -/
structure Watched (E : Type) where
  editor : Editor E
  left : Nat → Option Text

/-- The live state's text, noted. -/
def Watched.note (editor : Editor E) (left : Nat → Option Text) : Watched E where
  editor := editor
  left := fun seq => if seq = editor.stateSeq then some editor.buffer.text else left seq

def Watched.start (buffer : Buffer E) (around : Surroundings) : Watched E :=
  .note (.start buffer around) fun _ => none

def Watched.step [Alphabet] (watched : Watched E) (event : Event E) : Option (Watched E) :=
  (UndoRuns.step watched.editor event).map fun next => .note next watched.left

/-- Every state of the tree holds the text it was left with. -/
structure Watched.Kept (watched : Watched E) : Prop where
  sound : watched.editor.Sound
  states : ∀ seq text, watched.editor.undoTree.Holds seq text → watched.left seq = some text
  live : watched.left watched.editor.stateSeq = some watched.editor.buffer.text

omit [ExtmarkStore E] in
/-- Noting the live state changes nothing about the states of a sound editor. -/
theorem Watched.note_kept {left : Nat → Option Text} (sound : editor.Sound)
    (states : ∀ seq text, editor.undoTree.Holds seq text → left seq = some text) :
    (Watched.note editor left).Kept := by
  refine ⟨sound, ?_, if_pos rfl⟩
  intro seq text held
  show (if seq = editor.stateSeq then _ else _) = _
  split
  · next live =>
      cases settled : editor.pending with
      | true =>
          rw [live, Editor.stateSeq_pending settled] at held
          exact absurd (sound.consistent.holds_lt held) (Nat.lt_irrefl _)
      | false =>
          rw [live, Editor.stateSeq_settled settled] at held
          rw [sound.consistent.holds_unique held (sound.synced settled)]
  · exact states seq text held

variable {watched : Watched E}

omit [ExtmarkStore E] in
/-- What one event leaves in the tree is noted already. -/
theorem Watched.Kept.change (kept : watched.Kept) (keeps : Keeps watched.editor after) :
    ∀ seq text, after.undoTree.Holds seq text → watched.left seq = some text := by
  intro seq text held
  rcases keeps.states seq text held with old | ⟨pending, named, same⟩
  · exact kept.states seq text old
  · rw [named, same, ← Editor.stateSeq_pending pending]
    exact kept.live

omit [ExtmarkStore E] in
/-- The state an event settles on has the text it was left with. -/
theorem Watched.Kept.restored (kept : watched.Kept) (keeps : Keeps watched.editor after)
    (settled : after.pending = false) : watched.left after.stateSeq = some after.buffer.text := by
  rw [Editor.stateSeq_settled settled]
  exact kept.change keeps _ _ (keeps.sound.synced settled)

theorem start_sound (buffer : Buffer E) (around : Surroundings) :
    (Editor.start buffer around).Sound := by
  constructor
  · exact UndoTree.new_consistent buffer
  · intro opened
    cases opened
  · intro _
    exact ⟨0, _, rfl, rfl, rfl⟩

theorem run_sound [Alphabet] {buffer : Buffer E} {around : Surroundings} {events : List (Event E)}
    (reached : run step (.start buffer around) events = some editor) : editor.Sound :=
  run_invariant Editor.Sound (fun _ _ _ sound taken => (step_keeps sound taken).sound)
    (start_sound buffer around) reached

theorem start_kept (buffer : Buffer E) (around : Surroundings) :
    (Watched.start buffer around).Kept := by
  constructor
  · exact start_sound buffer around
  · intro seq text held
    rcases held with ⟨i, node, found, named, same⟩
    cases i with
    | zero =>
        cases found
        subst named same
        rfl
    | succ i => cases found
  · rfl

theorem run_kept [Alphabet] {start : Watched E} {events : List (Event E)} (kept : start.Kept)
    (reached : run Watched.step start events = some watched) : watched.Kept := by
  refine run_invariant Watched.Kept ?_ kept reached
  intro before event after kept stepped
  rcases Option.map_eq_some_iff.1 stepped with ⟨next, taken, same⟩
  subst same
  have keeps := step_keeps kept.sound taken
  exact Watched.note_kept keeps.sound (kept.change keeps)

/-! ### Jumps and redo -/

/-- `:undo {N}` lands on state N. -/
theorem undoToSeq_lands (sound : editor.Sound) (modifiable : editor.around.modifiable = true)
    {target : Nat} (survives : (editor.commitUndo.undoTree.nodeOfSeq target).isSome) :
    (editor.undoToSeq target).pending = false ∧
      (editor.undoToSeq target).stateSeq = target := by
  rcases Editor.commitUndo_quiet sound with ⟨committed, clean⟩
  rcases Option.isSome_iff_exists.1 survives with ⟨idx, named⟩
  rcases UndoTree.nodeOfSeq_eq_some named with ⟨node, found, seq⟩
  unfold Editor.undoToSeq
  simp only [modifiable, not_true_eq_false, if_false, named]
  split
  · next here =>
      have settled := Editor.not_pending_of_clean clean
      refine ⟨settled, ?_⟩
      rw [Editor.stateSeq_settled settled, UndoTree.curSeq, ← here, found]
      exact seq
  · rcases (Editor.land_spec found).sound committed.sound clean found with ⟨-, settled, live, -⟩
    exact ⟨settled, live.trans seq⟩

/-- The last of a growing list is its greatest. -/
theorem le_getLast {xs : List Nat} (sorted : xs.Pairwise (· < ·)) {x last : Nat}
    (member : x ∈ xs) (ends : xs.getLast? = some last) : x ≤ last := by
  rcases List.getLast?_eq_some_iff.1 ends with ⟨front, same⟩
  subst same
  rcases List.mem_append.1 member with early | final
  · exact Nat.le_of_lt ((List.pairwise_append.1 sorted).2.2 x early last (List.mem_singleton_self _))
  · exact Nat.le_of_eq (List.mem_singleton.1 final)

theorem commitUndo_around (editor : Editor E) : editor.commitUndo.around = editor.around := by
  unfold Editor.commitUndo
  split
  · rfl
  · split
    · rfl
    · rfl

theorem commitUndo_clean (clean : editor.undoTree.dirty = false) :
    editor.commitUndo = editor := by
  unfold Editor.commitUndo
  rw [if_pos (by simp [clean])]

/-- **Undo, then redo** lands on the newest child of the state undo landed on: the state that was
left, when a change was pending. -/
theorem undo_redo_lands (sound : editor.Sound) (modifiable : editor.around.modifiable = true)
    {parent : Nat} (above : editor.commitUndo.parent = some parent) :
    ∃ child node, (editor.commitUndo.undoTree.nodes[parent]?.bind (·.children.getLast?)) =
        some child ∧
      editor.commitUndo.undoTree.nodes[child]? = some node ∧
      editor.undo.redo.buffer.text = node.data.snap.text ∧
      (editor.pending = true → child = editor.commitUndo.undoTree.cur) := by
  rcases Editor.commitUndo_quiet sound with ⟨committed, clean⟩
  have consistent := committed.sound.consistent
  have links := consistent.links
  have lower := links.parent_lt _ _ above
  have above_inside := Nat.lt_trans lower consistent.cur_inside
  have upper := List.getElem?_eq_getElem above_inside
  have member := (links.children_iff parent _ upper _).2 above
  have landed := Editor.land_spec upper
  rcases landed.sound committed.sound clean upper with ⟨sound', settled', -, -⟩
  have clean' : (editor.commitUndo.land parent).undoTree.dirty = false := by
    rw [landed.tree]
    exact clean
  have around : (editor.commitUndo.land parent).around.modifiable = true := by
    unfold Editor.land
    rw [upper]
    show editor.commitUndo.around.modifiable = true
    rw [commitUndo_around]
    exact modifiable
  cases last : editor.commitUndo.undoTree.nodes[parent].children.getLast? with
  | none =>
      rw [List.getLast?_eq_none_iff] at last
      rw [last] at member
      cases member
  | some child =>
      have newest : (editor.commitUndo.land parent).newestChild = some child := by
        unfold Editor.newestChild
        rw [landed.tree]
        simp only
        rw [upper]
        exact last
      have inside : child < editor.commitUndo.undoTree.nodes.length := by
        have link := (links.children_iff parent _ upper child).1 (List.mem_of_getLast? last)
        exact Arena.lt_of_parentOf link
      have found := List.getElem?_eq_getElem inside
      refine ⟨child, _, ?_, found, ?_, ?_⟩
      · rw [upper]
        exact last
      · have undone : editor.undo = editor.commitUndo.land parent := by
          unfold Editor.undo
          simp only [modifiable, not_true_eq_false, if_false, above]
        have redone : editor.undo.redo = (editor.commitUndo.land parent).land child := by
          rw [undone]
          unfold Editor.redo
          simp only [around, not_true_eq_false, if_false, commitUndo_clean clean', newest]
        have found' : (editor.commitUndo.land parent).undoTree.nodes[child]? =
            some editor.commitUndo.undoTree.nodes[child] := by
          rw [landed.tree]
          exact found
        rw [redone]
        exact (Editor.land_spec found').text
      · intro pending
        have newest_seq := Editor.commitUndo_newest sound pending
        rcases Nat.eq_or_lt_of_le (le_getLast (links.children_sorted parent _ upper) member last)
          with same | later
        · exact same.symm
        · rcases consistent.current with ⟨cur, cur_found, cur_seq⟩
          have greater := consistent.seqs_increase _ _ _ _ cur_found found later
          have minted := consistent.seqs_minted _ _ found
          rw [newest_seq, ← cur_seq] at minted
          exact absurd greater (Nat.not_lt.2 (Nat.le_of_lt_succ minted))

/-- **The undo tree is kept.**  In every state a run from a fresh tree reaches: the tree is
consistent; with nothing pending the live text is the current node's; `:undo {N}` of a surviving
state puts back the text it was left with; and undo followed by redo puts back the text the
newest child of the state undo landed on was left with, which is the text before the undo when
that child was the state left, as it is whenever a change was pending. -/
theorem undo_tree_kept [Alphabet] (buffer : Buffer E) (around : Surroundings)
    (events : List (Event E)) (watched : Watched E)
    (reached : run Watched.step (.start buffer around) events = some watched) :
    watched.editor.undoTree.Consistent ∧
    (watched.editor.pending = false →
      ∃ node, watched.editor.undoTree.nodes[watched.editor.undoTree.cur]? = some node ∧
        watched.editor.buffer.text = node.data.snap.text) ∧
    (watched.editor.around.modifiable = true → ∀ target,
      (watched.editor.commitUndo.undoTree.nodeOfSeq target).isSome →
        watched.left target = some (watched.editor.undoToSeq target).buffer.text) ∧
    (watched.editor.around.modifiable = true → ∀ parent,
      watched.editor.commitUndo.parent = some parent →
      ∃ child node, (watched.editor.commitUndo.undoTree.nodes[parent]?.bind
          (·.children.getLast?)) = some child ∧
        watched.editor.commitUndo.undoTree.nodes[child]? = some node ∧
        watched.left node.data.seq = some watched.editor.undo.redo.buffer.text ∧
        (child = watched.editor.commitUndo.undoTree.cur →
          watched.editor.undo.redo.buffer.text = watched.editor.buffer.text) ∧
        (watched.editor.pending = true → child = watched.editor.commitUndo.undoTree.cur)) := by
  have kept := run_kept (start_kept buffer around) reached
  have sound := kept.sound
  refine ⟨sound.consistent, ?_, ?_, ?_⟩
  · intro settled
    rcases sound.consistent.current with ⟨node, found, named⟩
    refine ⟨node, found, ?_⟩
    exact sound.consistent.holds_unique (sound.synced settled) ⟨_, node, found, named, rfl⟩
  · intro modifiable target survives
    rcases undoToSeq_lands sound modifiable survives with ⟨settled, live⟩
    have restored := kept.restored (moved_keeps ((Editor.undoToSeq_routed _ target).moved sound)) settled
    rw [live] at restored
    exact restored
  · intro modifiable parent above
    rcases undo_redo_lands sound modifiable above with ⟨child, node, newest, found, text, latest⟩
    have committed := (Editor.commitUndo_quiet sound).1
    have held := kept.change (moved_keeps (.stays committed)) _ _ ⟨child, node, found, rfl, rfl⟩
    refine ⟨child, node, newest, found, ?_, ?_, latest⟩
    · rw [text]
      exact held
    · intro same
      have settled := Editor.not_pending_of_clean (Editor.commitUndo_quiet sound).2
      have live := committed.sound.synced settled
      rw [same] at found
      have seq : watched.editor.commitUndo.undoTree.curSeq = node.data.seq := by
        rw [UndoTree.curSeq, found]
      rw [text, ← committed.buffer]
      rw [seq] at live
      exact committed.sound.consistent.holds_unique ⟨_, node, found, rfl, rfl⟩ live

/-! ### A branch -/

/-- ASCII's letters and digits. -/
instance : Alphabet where
  isAlphanumeric c := c.isAlphanum

/-- An ordinary editor, in Normal mode. -/
def calm : Surroundings where
  modifiable := true
  isInsert := false
  pasteActive := false
  replayingChange := false
  normalDepth := 0
  inGlobal := false
  macroExecuting := false
  cursor := (0, 0)
  window := 1
  secondary := []
  selection := none
  ephemeral := []
  nowMono := 0
  nowMs := 0
  undolevels := 1000

/-- The buffer behind an edit. -/
def typed (text : Text) (changedtick : Nat) : Buffer Unit :=
  { Buffer.ofText text with changedtick := changedtick, modified := true }

/-- A change, taken back: `:undo 1` puts it back as it was left. -/
theorem undo_tree_kept_jump :
    ∃ watched : Watched Unit,
      run Watched.step (.start (.ofText ['a', '\n']) calm)
          [.pushUndo, .edit (typed ['b', '\n'] 1), .undo] = some watched ∧
        watched.editor.buffer.text = ['a', '\n'] ∧
        (watched.editor.undoToSeq 1).buffer.text = ['b', '\n'] := by
  have reached : ∃ watched : Watched Unit,
      run Watched.step (.start (.ofText ['a', '\n']) calm)
          [.pushUndo, .edit (typed ['b', '\n'] 1), .undo] = some watched ∧
        watched.editor.buffer.text = ['a', '\n'] ∧ watched.left 1 = some ['b', '\n'] ∧
        watched.editor.around.modifiable = true ∧
        (watched.editor.commitUndo.undoTree.nodeOfSeq 1).isSome :=
    ⟨_, rfl, rfl, rfl, rfl, rfl⟩
  rcases reached with ⟨watched, reached, text, left, modifiable, survives⟩
  refine ⟨watched, reached, text, ?_⟩
  have restored := (undo_tree_kept _ _ _ watched reached).2.2.1 modifiable 1 survives
  rw [left, Option.some.injEq] at restored
  exact restored.symm

/-- Two changes from one state, and back on the older: undo, then redo, and the text is the
newer one's. -/
theorem redo_takes_newest_branch :
    ∃ watched : Watched Unit,
      run Watched.step (.start (.ofText ['a', '\n']) calm)
          [.pushUndo, .edit (typed ['b', '\n'] 1), .undo, .pushUndo,
            .edit (typed ['c', '\n'] 3), .undoToSeq 1] = some watched ∧
        watched.editor.pending = false ∧ watched.editor.buffer.text = ['b', '\n'] ∧
        watched.editor.undo.buffer.text = ['a', '\n'] ∧
        watched.editor.undo.redo.buffer.text = ['c', '\n'] :=
  ⟨_, rfl, rfl, rfl, rfl, rfl⟩

end Bemtvi.Core.UndoRuns
