/-
Module: Bemtvi.Core.Save
Purpose: Writing a buffer: at once through the filesystem, or as a snapshot whose acknowledgement
  comes later; and when a clean buffer is what is on disk.
Trusted boundary: human-reviewed model of bemtvi-core/src/buffer.rs:1121-1276 and
  bemtvi-core/src/editor/buffers.rs:1099-1319, of one buffer bound to one path; the encoder and the
  filesystem's answers are parameters, the quit a write may carry is left to the caller
Main exports: Buffer.toSaveBytes, Buffer.write, Buffer.markWritten, PendingSave,
  Editor.enqueueSaveOf, Editor.finalizeSave, Session.commitPreWrite, Event, step, Clean, Meets,
  Kept.movedOn, clean_is_on_disk
-/
import Bemtvi.Core.UndoRuns

namespace Bemtvi.Core

open Utf8

variable {E : Type}

/-- `encode_from_str`: a text in a file encoding, with its BOM or without; `none` on a character the
encoding cannot represent. -/
abbrev Encoder := Text → String → Bool → Option (List UInt8)

namespace Buffer

/-- `save_is_unterminated`. -/
def saveIsUnterminated (buffer : Buffer E) : Bool :=
  !buffer.writtenEndofline && !buffer.isEmptyDocument

/-- The line breaks of a `'fileformat'`. -/
def withBreaks (format : FileFormat) (text : Text) : Text :=
  match format with
  | .unix => text
  | .dos => text.flatMap fun c => if c = '\n' then ['\r', '\n'] else [c]
  | .mac => text.map fun c => if c = '\n' then '\r' else c

/-- `to_save_bytes`: the bytes a write would persist. -/
def toSaveBytes (encode : Encoder) (buffer : Buffer E) : Option (List UInt8) :=
  encode (withBreaks buffer.options.fileformat buffer.saveText) buffer.options.fileencoding
    buffer.options.bomb

/-- `mark_written`: an external write of this buffer landed. -/
def markWritten (buffer : Buffer E) : Buffer E :=
  { buffer with
    modified := false
    options := { buffer.options with endofline := buffer.writtenEndofline }
    saveTick := buffer.saveTick + 1 }

/-- `write`: encode first, so a character the encoding lacks leaves the file untouched. -/
def write (encode : Encoder) (buffer : Buffer E) (fsAccepts : Bool) : Option (Buffer E) :=
  match buffer.toSaveBytes encode with
  | none => none
  | some _ => if fsAccepts then some buffer.markWritten else none

end Buffer

/-- `PendingSave`: the bytes taken when the write was asked for. -/
structure PendingSave where
  seq : Nat
  bytes : List UInt8
  /-- The buffer's text behind the bytes; nothing in the source reads it. -/
  text : Text
  lines : Nat
  noeol : Bool
  changedtick : Nat
  thenQuit : Option Bool

/-- `CommitOutcome`. -/
inductive CommitOutcome where
  | committed (seq : Nat)
  | failed (seq : Nat)
  | deferred
deriving Repr, DecidableEq

namespace Editor

/-- `enqueue_save_of`: the buffer's saved state is not touched. -/
def enqueueSaveOf (encode : Encoder) (editor : Editor E) (thenQuit : Option Bool) (seq : Nat) :
    Option PendingSave :=
  (editor.buffer.toSaveBytes encode).map fun bytes =>
    { seq := seq
      bytes := bytes
      text := editor.buffer.text
      lines := editor.buffer.lineCount
      noeol := editor.buffer.saveIsUnterminated
      changedtick := editor.buffer.changedtick
      thenQuit := thenQuit }

variable [ExtmarkStore E]

/-- `finalize_save`: the snapshot taken at `snapshotTick` is on disk. -/
def finalizeSave (editor : Editor E) (snapshotTick : Nat) : Editor E :=
  let movedOn := editor.buffer.changedtick ≠ snapshotTick
  let written := { editor with buffer := editor.buffer.markWritten }
  if movedOn then
    -- The buffer is past what was written: dirty again, and its state is not the saved one.
    { written with buffer := { written.buffer with modified := true } }
  else written.markUndoSaved

end Editor

/-- The buffer, and the writes not acknowledged yet, in the order they were asked for. -/
structure Session (E : Type) where
  editor : Editor E
  /-- `host_fs_offtick`. -/
  offtick : Bool
  /-- `next_save_seq`. -/
  nextSaveSeq : Nat
  inFlight : List PendingSave

namespace Session

variable [ExtmarkStore E]

/-- `commit_pre_write`, of a write numbered `seq`. -/
def commitPreWrite (encode : Encoder) (session : Session E) (seq : Nat)
    (thenQuit : Option Bool) (fsAccepts : Bool) : Session E × CommitOutcome :=
  if session.offtick then
    match session.editor.enqueueSaveOf encode thenQuit seq with
    | some save => ({ session with inFlight := session.inFlight ++ [save] }, .deferred)
    | none => (session, .failed seq)
  else
    match session.editor.buffer.write encode fsAccepts with
    | some buffer =>
        ({ session with editor := ({ session.editor with buffer := buffer }).markUndoSaved },
          .committed seq)
    | none => (session, .failed seq)

/-- The answer to the oldest write in flight. -/
def acknowledge (session : Session E) (landed : Bool) : Option (Session E) :=
  match session.inFlight with
  | [] => none
  | save :: rest =>
      some { session with
        inFlight := rest
        editor :=
          if landed then session.editor.finalizeSave save.changedtick else session.editor }

end Session

/-! ### Runs -/

namespace Save

open UndoRuns (Change Edited Touched)
open Run (run Along run_along)

/-- What happens to a buffer and its writes. -/
inductive Event (E : Type) where
  /-- An edit, an undo command or a change around them. -/
  | history (event : UndoRuns.Event E)
  | setOfftick (on : Bool)
  /-- `:w`, behind its `BufWritePre`. -/
  | write (thenQuit : Option Bool) (fsAccepts : Bool)
  /-- `:wall`'s write of the buffer. -/
  | enqueue
  | ack (landed : Bool)

variable [ExtmarkStore E]

/-- One event; the saved state is marked by writes only. -/
def step [Alphabet] (encode : Encoder) (session : Session E) : Event E → Option (Session E)
  | .history .markUndoSaved => none
  | .history event =>
      (UndoRuns.step session.editor event).map fun editor => { session with editor := editor }
  | .setOfftick on => some { session with offtick := on }
  | .write thenQuit fsAccepts =>
      some (({ session with nextSaveSeq := session.nextSaveSeq + 1 }).commitPreWrite encode
        session.nextSaveSeq thenQuit fsAccepts).1
  | .enqueue =>
      match session.editor.enqueueSaveOf encode none session.nextSaveSeq with
      | some save =>
          some { session with
            nextSaveSeq := session.nextSaveSeq + 1
            inFlight := session.inFlight ++ [save] }
      | none => some session
  | .ack landed => session.acknowledge landed

/-- A session, with the text last written or acknowledged. -/
structure Watched (E : Type) where
  session : Session E
  disk : Option Text

/-- What an event puts on disk. -/
def Watched.persists (encode : Encoder) (watched : Watched E) : Event E → Option Text
  | .write _ fsAccepts =>
      if watched.session.offtick then none
      else (watched.session.editor.buffer.write encode fsAccepts).map fun _ =>
        watched.session.editor.buffer.text
  | .ack true => watched.session.inFlight.head?.map (·.text)
  | _ => none

def Watched.step [Alphabet] (encode : Encoder) (watched : Watched E) (event : Event E) :
    Option (Watched E) :=
  (Save.step encode watched.session event).map fun next =>
    ⟨next, (watched.persists encode event).or watched.disk⟩

/-- Whenever the buffer is clean its text is the one on disk, and so is the text of the state
`saved_seq` names. -/
structure Clean (editor : Editor E) (disk : Option Text) : Prop where
  clean : ∀ text, disk = some text → editor.buffer.modified = false → editor.buffer.text = text
  saved : ∀ text, disk = some text → ∀ seq held, editor.savedSeq = some seq →
    editor.undoTree.Holds seq held → held = text

/-- The acknowledgements that leave the saved state right: the buffer has not moved on, or no state
of the tree is still called saved under another text. -/
def Meets (watched : Watched E) : Event E → Prop
  | .ack true => ∀ save, watched.session.inFlight.head? = some save →
      save.changedtick = watched.session.editor.buffer.changedtick ∨
      ∀ seq held, watched.session.editor.savedSeq = some seq →
        watched.session.editor.undoTree.Holds seq held → held = save.text
  | _ => True

/-- What a run keeps besides: the saved state is minted, and a write in flight whose tick is still
the buffer's took the text the buffer has. -/
structure Kept (editor : Editor E) (inFlight : List PendingSave) (disk : Option Text) : Prop extends
    Clean editor disk where
  sound : editor.Sound
  minted : ∀ seq, editor.savedSeq = some seq → seq < editor.undoTree.nextSeq
  flights : ∀ save ∈ inFlight, save.changedtick ≤ editor.buffer.changedtick ∧
    (save.changedtick = editor.buffer.changedtick → save.text = editor.buffer.text)

section Kept

variable {editor after : Editor E} {inFlight : List PendingSave} {disk : Option Text}

omit [ExtmarkStore E] in
theorem Kept.fewer (kept : Kept editor inFlight disk) {fewer : List PendingSave}
    (among : fewer ⊆ inFlight) : Kept editor fewer disk :=
  ⟨kept.toClean, kept.sound, kept.minted, fun save flying => kept.flights save (among flying)⟩

omit [ExtmarkStore E] in
/-- A quiet step keeps what is clean. -/
theorem Kept.quiet (kept : Kept editor inFlight disk) (quiet : Quiet editor after) :
    Kept after inFlight disk where
  clean := by
    intro text on_disk clean
    rw [quiet.buffer] at clean ⊢
    exact kept.clean text on_disk clean
  saved := by
    intro text on_disk seq held named holds
    have named' : editor.savedSeq = some seq := quiet.savedSeq ▸ named
    rcases quiet.states seq held holds with old | ⟨-, fresh, -⟩
    · exact kept.saved text on_disk seq held named' old
    · exact absurd (kept.minted seq named') (fresh ▸ Nat.lt_irrefl _)
  sound := quiet.sound
  minted := by
    intro seq named
    exact Nat.lt_of_lt_of_le (kept.minted seq (quiet.savedSeq ▸ named)) quiet.nextSeq_le
  flights := by
    intro save flying
    rw [quiet.buffer]
    exact kept.flights save flying

omit [ExtmarkStore E] in
/-- A move lands clean on the saved state only. -/
theorem Kept.landed (kept : Kept editor inFlight disk) {node : UndoNode E} {idx : Nat}
    (clean : editor.undoTree.dirty = false) (found : editor.undoTree.nodes[idx]? = some node)
    (landed : Editor.Landed editor after node idx) : Kept after inFlight disk := by
  rcases landed.sound kept.sound clean found with ⟨sound, -, -, holds⟩
  constructor
  · constructor
    · intro text on_disk unmodified
      have named : editor.savedSeq = some node.data.seq := by
        have flag := landed.modified.symm.trans unmodified
        simpa using flag
      rw [landed.text]
      exact kept.saved text on_disk _ _ named ⟨idx, node, found, rfl, rfl⟩
    · intro text on_disk seq held named holds'
      exact kept.saved text on_disk seq held (landed.savedSeq ▸ named) ((holds seq held).1 holds')
  · exact sound
  · intro seq named
    rw [landed.tree]
    exact kept.minted seq (landed.savedSeq ▸ named)
  · intro save flying
    have taken := (kept.flights save flying).1
    rw [landed.changedtick]
    constructor
    · exact Nat.le_succ_of_le taken
    · intro same
      exact absurd same (Nat.ne_of_lt (Nat.lt_succ_of_le taken))

omit [ExtmarkStore E] in
/-- What the undo commands, edits and changes around them keep. -/
theorem Kept.change (kept : Kept editor inFlight disk) (change : Change editor after) :
    Kept after inFlight disk := by
  cases change with
  | moved moved =>
      cases moved with
      | stays quiet => exact kept.quiet quiet
      | moves middle node idx quiet clean found landed =>
          exact (kept.quiet quiet).landed clean found landed
  | edited next opened edited same =>
      subst same
      constructor
      · constructor
        · intro text on_disk clean
          exact absurd (edited.modified.symm.trans clean) (by decide)
        · exact kept.saved
      · exact (UndoRuns.edited_keeps kept.sound opened edited).sound
      · exact kept.minted
      · intro save flying
        have taken := Nat.lt_of_le_of_lt (kept.flights save flying).1 edited.changedtick
        constructor
        · exact Nat.le_of_lt taken
        · intro same
          exact absurd same (Nat.ne_of_lt taken)
  | touched next touched same =>
      subst same
      constructor
      · constructor
        · intro text on_disk clean
          show next.text = text
          rw [touched.text]
          exact kept.clean text on_disk (touched.modified ▸ clean)
        · exact kept.saved
      · exact (UndoRuns.touched_keeps kept.sound next touched.text touched.changedtick).sound
      · exact kept.minted
      · intro save flying
        show _ ≤ next.changedtick ∧ (_ = next.changedtick → _ = next.text)
        rw [touched.changedtick, touched.text]
        exact kept.flights save flying

/-- **A write that marks the saved state** of the text it put on disk is clean. -/
theorem Kept.written (kept : Kept editor inFlight disk) :
    Kept ({ editor with buffer := editor.buffer.markWritten }).markUndoSaved inFlight
      (some editor.buffer.text) := by
  have written := (UndoRuns.touched_keeps kept.sound editor.buffer.markWritten rfl rfl).sound
  have sound := (UndoRuns.markUndoSaved_keeps written).sound
  rcases Editor.markUndoSaved_spec written with ⟨quiet, settled, named⟩
  have text := congrArg Buffer.text quiet.buffer
  have tick := congrArg Buffer.changedtick quiet.buffer
  -- The state marked saved is the live one, and with nothing pending it holds the live text.
  have live := quiet.stateSeq.symm.trans (Editor.stateSeq_settled settled)
  have synced := sound.synced settled
  constructor
  · constructor
    · intro text' on_disk _
      cases on_disk
      exact text
    · intro text' on_disk seq held saved holds
      cases on_disk
      have same := Option.some.inj (saved.symm.trans named)
      rw [same, live] at holds
      rw [sound.consistent.holds_unique holds synced]
      exact text
  · exact sound
  · intro seq saved
    have same := Option.some.inj (saved.symm.trans named)
    rw [same, live]
    exact sound.consistent.holds_lt synced
  · intro save flying
    have taken := kept.flights save flying
    exact ⟨Nat.le_trans taken.1 (Nat.le_of_eq tick.symm),
      fun same => (taken.2 (same.trans tick)).trans text.symm⟩

/-- **An acknowledgement behind the buffer's back** leaves it dirty and the saved state alone, which
is right exactly when no state is still called saved under another text. -/
theorem Kept.movedOn (kept : Kept editor inFlight disk) {tick : Nat}
    (moved : editor.buffer.changedtick ≠ tick) (text : Text) :
    Kept (editor.finalizeSave tick) inFlight (some text) ↔
      ∀ seq held, editor.savedSeq = some seq → editor.undoTree.Holds seq held → held = text := by
  unfold Editor.finalizeSave
  simp only [ne_eq, moved, not_false_eq_true, if_true]
  constructor
  · intro later seq held named holds
    exact later.saved text rfl seq held named holds
  · intro right
    constructor
    · constructor
      · intro text' on_disk clean
        cases clean
      · intro text' on_disk seq held named holds
        cases on_disk
        exact right seq held named holds
    · exact (UndoRuns.touched_keeps kept.sound
        { editor.buffer.markWritten with modified := true } rfl rfl).sound
    · exact kept.minted
    · exact kept.flights

variable {save : PendingSave}

theorem Kept.finalized (kept : Kept editor inFlight disk) (flying : save ∈ inFlight)
    (right : save.changedtick = editor.buffer.changedtick ∨
      ∀ seq held, editor.savedSeq = some seq → editor.undoTree.Holds seq held →
        held = save.text) :
    Kept (editor.finalizeSave save.changedtick) inFlight (some save.text) := by
  by_cases still : editor.buffer.changedtick = save.changedtick
  · unfold Editor.finalizeSave
    simp only [still, ne_eq, not_true_eq_false, if_false]
    rw [(kept.flights save flying).2 still.symm]
    exact kept.written
  · rcases right with same | right
    · exact absurd same.symm still
    · exact (kept.movedOn still save.text).2 right

omit [ExtmarkStore E] in
/-- A snapshot joins the writes in flight. -/
theorem Kept.enqueued (kept : Kept editor inFlight disk) {encode : Encoder}
    {thenQuit : Option Bool} {seq : Nat}
    (taken : editor.enqueueSaveOf encode thenQuit seq = some save) :
    Kept editor (inFlight ++ [save]) disk := by
  rcases Option.map_eq_some_iff.1 taken with ⟨bytes, -, same⟩
  subst same
  refine ⟨kept.toClean, kept.sound, kept.minted, ?_⟩
  intro other flying
  rcases List.mem_append.1 flying with earlier | last
  · exact kept.flights other earlier
  · rw [List.mem_singleton.1 last]
    exact ⟨Nat.le_refl _, fun _ => rfl⟩

end Kept

/-- **The step lemma.** -/
theorem step_kept [Alphabet] {encode : Encoder} {watched after : Watched E} {event : Event E}
    (kept : Kept watched.session.editor watched.session.inFlight watched.disk)
    (meets : Meets watched event) (stepped : watched.step encode event = some after) :
    Kept after.session.editor after.session.inFlight after.disk := by
  rcases Option.map_eq_some_iff.1 stepped with ⟨next, taken, same⟩
  subst same
  cases event with
  | history event =>
      have unsaved : event ≠ .markUndoSaved := by
        intro saving
        subst saving
        cases taken
      have inner : (UndoRuns.step watched.session.editor event).map
          (fun editor => { watched.session with editor := editor }) = some next := by
        cases event <;> first | exact taken | exact absurd rfl unsaved
      rcases Option.map_eq_some_iff.1 inner with ⟨editor, moved, same⟩
      subst same
      exact kept.change (UndoRuns.step_change kept.sound unsaved moved)
  | setOfftick on =>
      cases taken
      exact kept
  | write thenQuit fsAccepts =>
      cases taken
      unfold Session.commitPreWrite Watched.persists
      cases offtick : watched.session.offtick with
      | true =>
          simp only [if_true, Option.none_or]
          cases enqueued : watched.session.editor.enqueueSaveOf encode thenQuit
              watched.session.nextSaveSeq with
          | none => exact kept
          | some save => exact kept.enqueued enqueued
      | false =>
          simp only [Bool.false_eq_true, if_false]
          cases landed : watched.session.editor.buffer.write encode fsAccepts with
          | none => exact kept
          | some buffer =>
              have written : buffer = watched.session.editor.buffer.markWritten := by
                unfold Buffer.write at landed
                split at landed
                · cases landed
                · split at landed
                  · exact (Option.some.inj landed).symm
                  · cases landed
              subst written
              exact kept.written
  | enqueue =>
      simp only [step] at taken
      cases enqueued : watched.session.editor.enqueueSaveOf encode none
          watched.session.nextSaveSeq with
      | none =>
          rw [enqueued] at taken
          cases taken
          exact kept
      | some save =>
          rw [enqueued] at taken
          cases taken
          exact kept.enqueued enqueued
  | ack landed =>
      simp only [step, Session.acknowledge] at taken
      cases flying : watched.session.inFlight with
      | nil =>
          rw [flying] at taken
          cases taken
      | cons save rest =>
          rw [flying] at taken
          cases taken
          have head : watched.session.inFlight.head? = some save := by rw [flying]; rfl
          have member : save ∈ watched.session.inFlight := by
            rw [flying]
            exact List.mem_cons_self
          have fewer : rest ⊆ watched.session.inFlight := by
            rw [flying]
            exact List.subset_cons_self _ _
          unfold Watched.persists
          cases landed with
          | false => exact kept.fewer fewer
          | true =>
              simp only [head, if_true]
              exact (kept.finalized member (meets save head)).fewer fewer

/-- A session over a freshly loaded buffer, before any write. -/
def Watched.start (buffer : Buffer E) (around : Surroundings) (offtick : Bool) : Watched E where
  session :=
    { editor := .start buffer around
      offtick := offtick
      nextSaveSeq := 0
      inFlight := [] }
  disk := none

/-- **A clean buffer is what is on disk.**  In every run whose acknowledgements meet the condition,
after the first write that landed: a buffer that is not modified has the text last written or
acknowledged, and `saved_seq` names no state of the tree with another text. -/
theorem clean_is_on_disk [Alphabet] (encode : Encoder) (buffer : Buffer E)
    (around : Surroundings) (offtick : Bool) (events : List (Event E)) (watched : Watched E)
    (along : Along Meets (Watched.step encode) (.start buffer around offtick) events)
    (reached : run (Watched.step encode) (.start buffer around offtick) events = some watched) :
    Clean watched.session.editor watched.disk := by
  have kept : Kept watched.session.editor watched.session.inFlight watched.disk := by
    refine run_along
      (fun watched => Kept watched.session.editor watched.session.inFlight watched.disk)
      ?_ ?_ along reached
    · intro before event after kept meets stepped
      exact step_kept kept meets stepped
    · constructor
      · constructor
        · intro text on_disk
          cases on_disk
        · intro text on_disk
          cases on_disk
      · exact UndoRuns.start_sound buffer around
      · intro seq named
        cases named
        exact Nat.one_pos
      · intro save flying
        cases flying
  exact kept.toClean

/-! ### An acknowledgement behind an undo -/

/-- UTF-8, of ASCII text. -/
def asciiBytes : Encoder := fun text _ _ => some (text.map fun c => c.val.toUInt8)

/-- A write acknowledged with the buffer still where it was, then a change taken back. -/
theorem clean_is_on_disk_undo :
    ∃ watched : Watched Unit,
      run (Watched.step asciiBytes) (.start (.ofText ['a', '\n']) UndoRuns.calm true)
          [.write none true, .ack true, .history .pushUndo,
            .history (.edit (UndoRuns.typed ['b', '\n'] 1)), .history .undo] = some watched ∧
        watched.session.editor.buffer.modified = false ∧ watched.disk = some ['a', '\n'] ∧
        watched.session.editor.buffer.text = ['a', '\n'] := by
  have reached : ∃ watched : Watched Unit,
      run (Watched.step asciiBytes) (.start (.ofText ['a', '\n']) UndoRuns.calm true)
          [.write none true, .ack true, .history .pushUndo,
            .history (.edit (UndoRuns.typed ['b', '\n'] 1)), .history .undo] = some watched ∧
        watched.session.editor.buffer.modified = false ∧ watched.disk = some ['a', '\n'] :=
    ⟨_, rfl, rfl, rfl⟩
  rcases reached with ⟨watched, reached, clean, disk⟩
  refine ⟨watched, reached, clean, disk, ?_⟩
  refine (clean_is_on_disk asciiBytes (.ofText ['a', '\n']) UndoRuns.calm true _ watched ?_
    reached).clean _ disk clean
  refine ⟨trivial, fun first taken => ⟨?_, fun second taken' => ⟨trivial, fun third taken'' =>
    ⟨trivial, fun fourth taken''' => ⟨trivial, fun _ _ => trivial⟩⟩⟩⟩⟩
  cases taken
  intro save flying
  cases flying
  exact Or.inl rfl

/-- Saved at state 0; a change is written off the tick and taken back before the acknowledgement.
Redo and undo again, and the buffer reads clean with a text that is not on disk. -/
theorem stale_state_reads_clean :
    ∃ watched : Watched Unit,
      run (Watched.step asciiBytes) (.start (.ofText ['a', '\n']) UndoRuns.calm true)
          [.write none true, .ack true, .history .pushUndo,
            .history (.edit (UndoRuns.typed ['b', '\n'] 1)), .write none true, .history .undo,
            .ack true, .history .redo, .history .undo] = some watched ∧
        watched.session.editor.buffer.modified = false ∧ watched.disk = some ['b', '\n'] ∧
        watched.session.editor.buffer.text = ['a', '\n'] :=
  ⟨_, rfl, rfl, rfl, rfl⟩

end Save

end Bemtvi.Core
