/-
Module: Bemtvi.Core.Journal
Purpose: The edit journals replay.  Whatever mutations, drains and whole-rope replacements come in
  whatever order, each journal takes its consumer from the text of its last drain to the
  current text, or says resync; and the places of every edit are right, except the new end of a
  removal that joins or splits a `\r\n` where it starts.
Trusted boundary: none
Main exports: Applies, Exact, Replay, Event, step, Meets, Watched, remove_exact_iff, journals_replay
-/
import Bemtvi.Core.Buffer
import Bemtvi.Lib.Run

namespace Bemtvi.Core.Journal

open Utf8
open Run (run Along run_along)

variable {E : Type} [ExtmarkStore E]

/-! ### What an edit says -/

/-- The edit takes `text` to `text'`, and its places before the edit are right. -/
structure Applies (edit : BufferEdit) (text text' : Text) : Prop where
  spliced : splice text edit.startByte edit.oldEndByte edit.text = some text'
  newEnd : edit.newEndByte = edit.startByte + size edit.text
  startPoint : edit.startPoint = point text edit.startByte
  oldEndPoint : edit.oldEndPoint = point text edit.oldEndByte

/-- And so is its place after the edit. -/
structure Exact (edit : BufferEdit) (text text' : Text) : Prop extends
    Applies edit text text' where
  newEndPoint : edit.newEndPoint = point text' edit.newEndByte

/-- Edits that take `text` to `text'` one after the other, each as `Step` has it. -/
inductive Replay (Step : BufferEdit → Text → Text → Prop) : List BufferEdit → Text → Text → Prop
  | nil (text : Text) : Replay Step [] text text
  | concat {edits : List BufferEdit} {edit : BufferEdit} {text middle text' : Text}
      (before : Replay Step edits text middle) (last : Step edit middle text') :
      Replay Step (edits ++ [edit]) text text'

variable {Step : BufferEdit → Text → Text → Prop} {text' s : Text} {start stop : Nat}
  {buffer' : Buffer E}

/-- An empty batch leaves the text alone. -/
theorem Replay.of_nil {edits : List BufferEdit} {text : Text}
    (replayed : Replay Step edits text text') (empty : edits = []) : text' = text := by
  cases replayed with
  | nil => rfl
  | concat before last => exact absurd empty (List.append_ne_nil_of_right_ne_nil _ (by simp))

/-- The text a consumer rebuilds from a batch. -/
def replay : List BufferEdit → Text → Option Text
  | [], text => some text
  | edit :: edits, text =>
      match splice text edit.startByte edit.oldEndByte edit.text with
      | some middle => replay edits middle
      | none => none

theorem replay_append (edits later : List BufferEdit) (text : Text) :
    replay (edits ++ later) text = (replay edits text).bind (replay later) := by
  induction edits generalizing text with
  | nil => rfl
  | cons edit edits ih =>
      rw [List.cons_append, replay, replay]
      cases splice text edit.startByte edit.oldEndByte edit.text with
      | none => rfl
      | some middle => exact ih middle

/-- A replayed batch rebuilds the text it ends in. -/
theorem Replay.rebuilds
    (applies : ∀ edit text text', Step edit text text' → Applies edit text text')
    {edits : List BufferEdit} {text : Text} (replayed : Replay Step edits text text') :
    replay edits text = some text' := by
  induction replayed with
  | nil text => rfl
  | concat before last ih =>
      rw [replay_append, ih]
      simp only [Option.bind_some, replay, (applies _ _ _ last).spliced]

/-! ### The one defect

A removal records its new end as the place its start had before. -/

/-- The character that ends at an offset. -/
def charBefore (text : Text) (byte : Nat) : Option Char :=
  (cut text byte).bind (·.1.getLast?)

/-- The character that starts at an offset. -/
def charAt (text : Text) (byte : Nat) : Option Char :=
  (cut text byte).bind (·.2.head?)

/-- Taking out these bytes joins or splits a `\r\n` where they start. -/
def SplitsBreak (text : Text) (start stop : Nat) : Prop :=
  charBefore text start = some '\r' ∧ ¬ (charAt text start = some '\n' ↔ charAt text stop = some '\n')

/-- Behind a `\r`, a `\n` that comes or goes moves the place. -/
theorem walk_ne (place : Point) (front : Text) {after after' : Option Char}
    (carriage : front.getLast? = some '\r') (joins : after = some '\n')
    (apart : ¬ after' = some '\n') : walk place front after ≠ walk place front after' := by
  induction front generalizing place with
  | nil => cases carriage
  | cons c front ih =>
      cases front with
      | nil =>
          have same : c = '\r' := by simpa using carriage
          subst same
          subst joins
          simp [walk, advance, breaks, apart]
      | cons c' front =>
          simp only [walk, List.head?_cons, Option.some_or]
          apply ih
          rw [List.getLast?_cons_cons] at carriage
          exact carriage

/-- The place of an offset survives a removal behind it, unless the removal splits a break. -/
theorem point_splice {text : Text} (spliced : splice text start stop [] = some text') :
    point text start = point text' start ↔ ¬ SplitsBreak text start stop := by
  rcases splice_eq_some.1 spliced with ⟨front, old, back, rfl, rfl, rfl, rfl⟩
  have at_start : cut (front ++ old ++ back) (size front) = some (front, old ++ back) := by
    rw [List.append_assoc, cut_append]
  have at_stop : cut (front ++ old ++ back) (size front + size old) =
      some (front ++ old, back) := by
    rw [← size_append, cut_append]
  have before : point (front ++ old ++ back) (size front) =
      walk (0, 0) front (old ++ back).head? := by
    rw [List.append_assoc, point_append]
  have after : point (front ++ [] ++ back) (size front) = walk (0, 0) front back.head? := by
    rw [List.append_nil, point_append]
  rw [before, after]
  simp only [SplitsBreak, charBefore, charAt, at_start, at_stop, Option.bind_some]
  constructor
  · rintro same ⟨carriage, exactly⟩
    apply exactly
    constructor
    · intro joins
      by_contra apart
      exact walk_ne (0, 0) front carriage joins apart same
    · intro joins
      by_contra apart
      exact walk_ne (0, 0) front carriage joins apart same.symm
  · intro whole
    apply walk_congr
    intro carriage
    by_contra exactly
    exact whole ⟨carriage, exactly⟩

/-! ### What a mutation does -/

/-- A mutation leaves the buffer alone, or records one edit in every journal. -/
inductive Mutation (buffer buffer' : Buffer E) (Good : Prop) : Prop where
  | none (same : buffer' = buffer)
  | edit (edit : BufferEdit) (applies : Applies edit buffer.text buffer'.text)
      (exact_iff : Exact edit buffer.text buffer'.text ↔ Good)
      (journals : ∀ c, buffer'.journal c = (buffer.journal c).push edit)

omit [ExtmarkStore E] in
theorem Mutation.of_good {buffer : Buffer E} {Good : Prop}
    (mutation : Mutation buffer buffer' True) (good : Good) : Mutation buffer buffer' Good := by
  cases mutation with
  | none same => exact .none same
  | edit edit applies exact_iff journals =>
      exact .edit edit applies ⟨fun _ => good, fun _ => exact_iff.2 trivial⟩ journals

@[simp] theorem record_journal (buffer : Buffer E) (edit : BufferEdit) (c : Consumer) :
    (buffer.record edit).journal c = (buffer.journal c).push edit := by
  cases c <;> rfl

/-- The edit of a splice, wherever its new end is put. -/
theorem applies_of_splice {text : Text} (spliced : splice text start stop s = some text')
    (newEnd : Point) :
    Applies ⟨start, stop, start + size s, point text start, point text stop, newEnd, s⟩ text text' :=
  ⟨spliced, rfl, rfl, rfl⟩

theorem insert_mutation {buffer : Buffer E} {byte : Nat}
    (inserted : buffer.insert byte s = some buffer') : Mutation buffer buffer' True := by
  rcases Buffer.insert_cases inserted with ⟨-, same⟩ | ⟨-, text, spliced, rfl⟩
  · exact .none same
  · have applies := applies_of_splice spliced (point text (byte + size s))
    exact .edit _ applies ⟨fun _ => trivial, fun _ => ⟨applies, rfl⟩⟩ (record_journal _ _)

theorem remove_mutation {buffer : Buffer E} (removed : buffer.remove start stop = some buffer') :
    Mutation buffer buffer' (start < stop → ¬ SplitsBreak buffer.text start stop) := by
  rcases Buffer.remove_cases removed with ⟨-, same⟩ | ⟨some_bytes, text, spliced, rfl⟩
  · exact .none same
  · have applies := applies_of_splice spliced (point buffer.text start)
    refine .edit _ applies ?_ (record_journal _ _)
    rw [← point_splice spliced]
    constructor
    · intro exact_edit _
      exact exact_edit.newEndPoint
    · intro same
      exact ⟨applies, same some_bytes⟩

theorem replace_mutation {buffer : Buffer E}
    (replaced : buffer.replace start stop s = some buffer') :
    Mutation buffer buffer' (s = [] → start < stop → ¬ SplitsBreak buffer.text start stop) := by
  rcases Buffer.replace_cases replaced with ⟨-, -, same⟩ | ⟨ordered, -, inserted⟩ |
    ⟨-, nothing, removed⟩ | ⟨-, something, text, spliced, rfl⟩
  · exact .none same
  · exact (insert_mutation inserted).of_good fun _ below => absurd below (Nat.not_lt.2 ordered)
  · cases remove_mutation removed with
    | none same => exact .none same
    | edit edit applies exact_iff journals =>
        refine .edit edit applies ?_ journals
        rw [exact_iff]
        exact ⟨fun good _ => good, fun good => good nothing⟩
  · have applies := applies_of_splice spliced (point text (start + size s))
    exact .edit _ applies
      ⟨fun _ nothing => absurd nothing something, fun _ => ⟨applies, rfl⟩⟩ (record_journal _ _)

theorem normalize_mutation {buffer : Buffer E} (normalized : buffer.normalize = some buffer') :
    Mutation buffer buffer' True := by
  rcases Buffer.normalize_cases normalized with same | ⟨after, span, inserted, rfl⟩
  · exact .none same
  · rcases Buffer.insert_cases inserted with ⟨nothing, -⟩ | ⟨-, text, spliced, rfl⟩
    · cases nothing
    · have applies := applies_of_splice spliced (point text (size buffer.text + size ['\n']))
      refine .edit _ applies ⟨fun _ => trivial, fun _ => ⟨applies, rfl⟩⟩ ?_
      intro c
      cases c <;> rfl

/-- **A removal's record is exact if and only if it splits no break.** -/
theorem remove_exact_iff {buffer : Buffer E} (some_bytes : start < stop)
    (removed : buffer.remove start stop = some buffer') :
    (∃ edit, (∀ c, buffer'.journal c = (buffer.journal c).push edit) ∧
      Exact edit buffer.text buffer'.text) ↔ ¬ SplitsBreak buffer.text start stop := by
  cases remove_mutation removed with
  | none same =>
      rcases Buffer.remove_cases removed with ⟨none_, -⟩ | ⟨-, text, -, rfl⟩
      · exact absurd some_bytes (Nat.not_lt.2 none_)
      · -- An edit ticks.
        have ticked := congrArg Buffer.changedtick same
        simp [Buffer.record] at ticked
  | edit edit applies exact_iff journals =>
      have good_iff := exact_iff.trans ⟨fun good => good some_bytes, fun good _ => good⟩
      rw [← good_iff]
      constructor
      · rintro ⟨other, journals', exact_edit⟩
        have same := (journals .treesitter).symm.trans (journals' .treesitter)
        simp only [EditBatch.push, EditBatch.mk.injEq, List.append_cancel_left_eq,
          List.cons.injEq, and_true] at same
        rw [same]
        exact exact_edit
      · intro exact_edit
        exact ⟨edit, journals, exact_edit⟩

/-! ### Runs -/

/-- One event of a buffer's life. -/
inductive Event where
  | insert (byte : Nat) (s : Text)
  | remove (start stop : Nat)
  | replace (start stop : Nat) (s : Text)
  | normalize
  /-- The rope is replaced whole, then `mark_resync`. -/
  | resync (text : Text)
  | take (consumer : Consumer)

/-- One event; `none` when ropey panics on an offset out of range or inside a character. -/
def step (buffer : Buffer E) : Event → Option (Buffer E)
  | .insert byte s => buffer.insert byte s
  | .remove start stop => buffer.remove start stop
  | .replace start stop s => buffer.replace start stop s
  | .normalize => buffer.normalize
  | .resync text => some ({ buffer with text := text } : Buffer E).markResync
  | .take consumer => some (buffer.take consumer).2

/-- The removals that keep their places right. -/
def Meets (buffer : Buffer E) : Event → Prop
  | .remove start stop => start < stop → ¬ SplitsBreak buffer.text start stop
  | .replace start stop s => s = [] → start < stop → ¬ SplitsBreak buffer.text start stop
  | _ => True

/-- A buffer, with the text each consumer was last brought up to. -/
structure Watched (E : Type) where
  buffer : Buffer E
  base : Consumer → Text

/-- A drain brings its consumer up to the current text. -/
def Watched.step (watched : Watched E) (event : Event) : Option (Watched E) :=
  (Journal.step watched.buffer event).map fun buffer =>
    match event with
    | .take consumer =>
        ⟨buffer, fun c => if c = consumer then watched.buffer.text else watched.base c⟩
    | _ => ⟨buffer, watched.base⟩

/-- Every journal replays: from its base when it says no resync, and in any case from some text
the buffer held since. -/
def Watched.Replays (Step : BufferEdit → Text → Text → Prop) (watched : Watched E) : Prop :=
  ∀ c, ∃ from_text, Replay Step (watched.buffer.journal c).edits from_text watched.buffer.text ∧
    (c ≠ .jump → (watched.buffer.journal c).resync = false → from_text = watched.base c)

omit [ExtmarkStore E] in
/-- A drain hands over its own journal, and changes nothing else. -/
theorem take_spec (buffer : Buffer E) (c : Consumer) :
    (buffer.take c).1 = buffer.journal c ∧ (buffer.take c).2.journal c = .empty ∧
      (buffer.take c).2.text = buffer.text ∧
      ∀ other, other ≠ c → (buffer.take c).2.journal other = buffer.journal other := by
  cases c <;> refine ⟨rfl, rfl, rfl, ?_⟩ <;> intro other different <;> cases other <;>
    first | rfl | exact absurd rfl different

omit [ExtmarkStore E] in
/-- A drain records nothing. -/
theorem take_ne_push (buffer : Buffer E) (consumer : Consumer) (edit : BufferEdit) :
    ¬ ∀ c, (buffer.take consumer).2.journal c = (buffer.journal c).push edit := by
  intro pushed
  have drained := (take_spec buffer consumer).2.1
  rw [pushed consumer] at drained
  have some_edit := congrArg EditBatch.edits drained
  simp [EditBatch.push, EditBatch.empty] at some_edit

theorem journal_markResync (buffer : Buffer E) (c : Consumer) :
    (buffer.markResync.journal c).edits = [] ∧
      (c ≠ .jump → (buffer.markResync.journal c).resync = true) := by
  cases c <;> simp [Buffer.markResync, Buffer.journal, EditBatch.replaced]

omit [ExtmarkStore E] in
/-- A mutation extends every journal's replay. -/
theorem Mutation.replays {buffer : Buffer E} {Good : Prop} {base : Consumer → Text}
    (mutation : Mutation buffer buffer' Good)
    (recorded : ∀ edit, (∀ c, buffer'.journal c = (buffer.journal c).push edit) →
      Applies edit buffer.text buffer'.text →
      (Exact edit buffer.text buffer'.text ↔ Good) → Step edit buffer.text buffer'.text)
    (replays : Watched.Replays Step ⟨buffer, base⟩) : Watched.Replays Step ⟨buffer', base⟩ := by
  cases mutation with
  | none same => exact same ▸ replays
  | edit edit applies exact_iff journals =>
      intro c
      rcases replays c with ⟨from_text, replayed, based⟩
      refine ⟨from_text, ?_, ?_⟩
      · simp only [journals c]
        exact .concat replayed (recorded edit journals applies exact_iff)
      · intro flagged resync
        simp only [journals c] at resync
        exact based flagged resync

/-- **Step lemma.**  Every event keeps the journals replaying, as exactly as `Step` asks of the
edits it records. -/
theorem step_replays {watched watched' : Watched E} {event : Event}
    (recorded : ∀ edit buffer', step watched.buffer event = some buffer' →
      (∀ c, buffer'.journal c = (watched.buffer.journal c).push edit) →
      Applies edit watched.buffer.text buffer'.text →
      (Exact edit watched.buffer.text buffer'.text ↔ Meets watched.buffer event) →
        Step edit watched.buffer.text buffer'.text) (replays : watched.Replays Step)
    (stepped : watched.step event = some watched') : watched'.Replays Step := by
  rcases watched with ⟨buffer, base⟩
  rcases Option.map_eq_some_iff.1 stepped with ⟨buffer', taken, rfl⟩
  cases event with
  | insert byte s =>
      exact (insert_mutation taken).replays (fun edit => recorded edit buffer' taken) replays
  | remove start stop =>
      exact (remove_mutation taken).replays (fun edit => recorded edit buffer' taken) replays
  | replace start stop s =>
      exact (replace_mutation taken).replays (fun edit => recorded edit buffer' taken) replays
  | normalize =>
      exact (normalize_mutation taken).replays (fun edit => recorded edit buffer' taken) replays
  | resync text =>
      cases taken
      intro c
      rcases journal_markResync ({ buffer with text := text } : Buffer E) c with ⟨empty, flagged⟩
      refine ⟨text, ?_, ?_⟩
      · simp only [empty]
        exact .nil text
      · intro has_flag resync
        exact absurd (flagged has_flag) (by rw [resync]; exact Bool.false_ne_true)
  | take consumer =>
      cases taken
      rcases take_spec buffer consumer with ⟨-, drained, same_text, others⟩
      intro c
      by_cases own : c = consumer
      · subst own
        refine ⟨buffer.text, ?_, ?_⟩
        · simp only [drained, same_text]
          exact .nil buffer.text
        · intro _ _
          simp
      · rcases replays c with ⟨from_text, replayed, based⟩
        refine ⟨from_text, ?_, ?_⟩
        · simp only [others c own, same_text]
          exact replayed
        · intro flagged resync
          simp only [others c own] at resync
          simp only [own, if_false]
          exact based flagged resync

/-- **The journals replay.**  From a buffer with every journal drained, in every run whose removals
split no break: each journal's edits, every one with its places right, lead from some text to the
current one, and from its consumer's last drain unless the batch says resync; so replaying a
batch without resync rebuilds the text.  And a drain changes no other journal. -/
theorem journals_replay (buffer : Buffer E) (drained : ∀ c, buffer.journal c = .empty)
    (events : List Event) (watched : Watched E)
    (along : Along (fun watched event => Meets watched.buffer event) Watched.step
      ⟨buffer, fun _ => buffer.text⟩ events)
    (reached : run Watched.step ⟨buffer, fun _ => buffer.text⟩ events = some watched) :
    watched.Replays Exact ∧
    (∀ c, c ≠ .jump → (watched.buffer.journal c).resync = false →
      replay (watched.buffer.journal c).edits (watched.base c) = some watched.buffer.text) ∧
    ∀ c, (watched.buffer.take c).1 = watched.buffer.journal c ∧
      ∀ other, other ≠ c →
        ((watched.buffer.take c).2.take other).1 = (watched.buffer.take other).1 := by
  have replays : watched.Replays Exact := by
    refine run_along (fun watched => watched.Replays Exact) ?_ ?_ along reached
    · intro before event after replays meets stepped
      exact step_replays (fun _ _ _ _ _ exact_iff => exact_iff.2 meets) replays stepped
    · intro c
      refine ⟨buffer.text, ?_, fun _ _ => rfl⟩
      simp only [drained c]
      exact .nil buffer.text
  refine ⟨replays, ?_, ?_⟩
  · intro c flagged no_resync
    rcases replays c with ⟨from_text, replayed, based⟩
    rw [← based flagged no_resync]
    exact replayed.rebuilds fun _ _ _ exact_edit => exact_edit.toApplies
  · intro c
    rcases take_spec watched.buffer c with ⟨taken, -, -, others⟩
    refine ⟨taken, ?_⟩
    intro other different
    rw [(take_spec (watched.buffer.take c).2 other).1, others other different,
      (take_spec watched.buffer other).1]

/-- The deltas replay in every run, split breaks or not. -/
theorem deltas_replay (buffer : Buffer E) (drained : ∀ c, buffer.journal c = .empty)
    (events : List Event) (watched : Watched E)
    (reached : run Watched.step ⟨buffer, fun _ => buffer.text⟩ events = some watched) :
    watched.Replays Applies := by
  refine Run.run_invariant (fun watched => watched.Replays Applies) ?_ ?_ reached
  · intro before event after replays stepped
    exact step_replays (fun _ _ _ _ applies _ => applies) replays stepped
  · intro c
    refine ⟨buffer.text, ?_, fun _ _ => rfl⟩
    simp only [drained c]
    exact .nil buffer.text

/-! ### A removal that joins a break -/

/-- Two edits around a drain, none of them at a break. -/
theorem journals_replay_ab :
    ∃ watched : Watched Unit,
      run Watched.step ⟨Buffer.ofText ['a', '\n'], fun _ => ['a', '\n']⟩
          [.insert 0 ['b'], .take .lsp, .remove 0 1] = some watched ∧
        replay (watched.buffer.journal .lsp).edits (watched.base .lsp) = some ['a', '\n'] := by
  have reached : ∃ watched : Watched Unit,
      run Watched.step ⟨Buffer.ofText ['a', '\n'], fun _ => ['a', '\n']⟩
          [.insert 0 ['b'], .take .lsp, .remove 0 1] = some watched ∧
        watched.buffer.text = ['a', '\n'] ∧ (watched.buffer.journal .lsp).resync = false :=
    ⟨_, rfl, rfl, rfl⟩
  rcases reached with ⟨watched, reached, text, no_resync⟩
  refine ⟨watched, reached, ?_⟩
  rw [← text]
  refine (journals_replay (Buffer.ofText ['a', '\n']) (fun c => by cases c <;> rfl) _ watched ?_
    reached).2.1 .lsp (by decide) no_resync
  refine ⟨trivial, fun next taken => ⟨trivial, fun later taken' => ⟨?_, fun _ _ => trivial⟩⟩⟩
  cases taken
  cases taken'
  intro _ splits
  exact absurd splits.1 (by decide)

/-- Removing `X` from `a\rX\n` joins a `\r\n`: the record puts its new end on row 1, the text has
it on row 0. -/
theorem removal_joins_break :
    ∃ watched : Watched Unit,
      run Watched.step ⟨Buffer.ofText ['a', '\r', 'X', '\n'], fun _ => ['a', '\r', 'X', '\n']⟩
          [.remove 2 3] = some watched ∧ ¬ watched.Replays Exact := by
  refine ⟨_, rfl, ?_⟩
  intro replays
  rcases replays .lsp with ⟨from_text, replayed, -⟩
  have single : ∀ {edits : List BufferEdit} {text text' : Text},
      Replay Exact edits text text' → ∀ edit, edits = [edit] →
        edit.newEndPoint = point text' edit.newEndByte := by
    intro edits text text' replayed edit only
    cases replayed with
    | nil => cases only
    | concat before last =>
        have same := congrArg List.getLast? only
        rw [List.getLast?_concat, List.getLast?_singleton, Option.some.injEq] at same
        rw [← same]
        exact last.newEndPoint
  have wrong := single replayed _ rfl
  exact absurd wrong (by decide)

end Bemtvi.Core.Journal
