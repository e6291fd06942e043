/-
Module: Bemtvi.Core.FoldBatches
Purpose: Manual folds under a batch of recorded edits, one line op at a time: what a deleted fold's
  inverted range does to the ops behind it, and a fold that no edit touches keeps its lines.
Trusted boundary: human-reviewed model of bemtvi-core/src/editor/fold.rs:136-166, 186-237 and
  846-871, as a debug build computes, where a subtraction below zero stops the editor; a line number
  and a number of lines fit an `isize`
Main exports: adjustChecked, Batch, step, Dead, Untouched, adjustChecked_none_iff, fold_batch_run
-/
import Bemtvi.Core.Fold
import Bemtvi.Core.FoldInputsLaws

namespace Bemtvi.Core

open Utf8
open Run (run Along)

/-! ### One fold -/

/-- What is left of a fold, or the inverted range that marks it deleted. -/
def Fold.trimmed (fold : Fold) (start : Nat) (e : Option Nat) : Fold :=
  match e with
  | some e =>
      if start < e then { fold with start := start, end_ := e }
      else { fold with start := 1, end_ := 0 }
  | none => { fold with start := 1, end_ := 0 }

/-- One fold under one line op; `none` when a subtraction goes below zero. -/
def Fold.adjustChecked (op : LineOp) (fold : Fold) : Option Fold :=
  match op with
  | .insert after n =>
      some { fold with
        start := if after < fold.start then fold.start + n else fold.start
        end_ := if after < fold.end_ then fold.end_ + n else fold.end_ }
  | .delete first n =>
      if first + n = 0 then none
      else
        let last := first + n - 1
        if fold.end_ < first then some fold
        else if last < fold.start then
          if fold.start < n ∨ fold.end_ < n then none
          else some { fold with start := fold.start - n, end_ := fold.end_ - n }
        else if last < fold.end_ then
          if fold.end_ < n then none
          else some (fold.trimmed (min fold.start first) (some (fold.end_ - n)))
        else if first = 0 then some (fold.trimmed (min fold.start first) none)
        else some (fold.trimmed (min fold.start first) (some (first - 1)))

/-! ### A batch -/

/-- The text an edit was recorded in, and the folds as adjusted so far. -/
structure Batch where
  text : Text
  folds : List Fold

namespace Batch

/-- The next edit of the batch; `none` when its places are not in the text or an adjustment fails. -/
def step (batch : Batch) (edit : BufferEdit) : Option Batch :=
  (splice batch.text edit.startByte edit.oldEndByte edit.text).bind fun text =>
    (match lineOp edit with
      | none => some batch.folds
      | some op => batch.folds.mapM (Fold.adjustChecked op)).map fun folds => ⟨text, folds⟩

/-- The folds that the `retain` behind the batch keeps. -/
def retained (batch : Batch) : List Fold :=
  batch.folds.filter fun fold =>
    fold.end_ < (lines batch.text).length - 1 && fold.start < fold.end_

end Batch

/-! ### Folds that are gone -/

/-- Marked for removal. -/
def Fold.Dead (fold : Fold) : Prop := fold.end_ ≤ fold.start

variable {fold fold' : Fold} {edit : BufferEdit}

/-- A release build adjusts a fold alike, as long as nothing overflows. -/
theorem Fold.adjust_of_checked {op : LineOp} (adjusted : fold.adjustChecked op = some fold')
    (fits : ∀ after n, op = .insert after n → fold.start + n < 2 ^ 63 ∧ fold.end_ + n < 2 ^ 63)
    (small : fold.start < 2 ^ 63 ∧ fold.end_ < 2 ^ 63) : fold.adjust op = fold' := by
  cases op with
  | insert after n =>
      obtain ⟨start_fits, end_fits⟩ := fits after n rfl
      have start_add : wrapAdd fold.start n = fold.start + n := by
        unfold wrapAdd
        omega
      have end_add : wrapAdd fold.end_ n = fold.end_ + n := by
        unfold wrapAdd
        omega
      cases adjusted
      simp only [adjust, asIsize, small, if_true, start_add, end_add]
  | delete first n =>
      have sub : ∀ a, a < 2 ^ 63 → n ≤ a → wrapSub a n = a - n := by
        intro a below enough
        unfold wrapSub
        omega
      simp only [adjustChecked] at adjusted
      split at adjusted
      · cases adjusted
      · simp only [adjust]
        split at adjusted
        · next above =>
            cases adjusted
            rw [if_pos above]
        · next meets =>
            rw [if_neg meets]
            split at adjusted
            · next below =>
                rw [if_pos below]
                split at adjusted
                · cases adjusted
                · next enough =>
                    cases adjusted
                    rw [sub _ small.1 (by omega), sub _ small.2 (by omega)]
            · next overlaps =>
                rw [if_neg overlaps]
                split at adjusted
                · next further =>
                    rw [if_pos further]
                    split at adjusted
                    · cases adjusted
                    · cases adjusted
                      rfl
                · next inside =>
                    rw [if_neg inside]
                    split at adjusted
                    · next top =>
                        rw [if_pos top]
                        cases adjusted
                        rfl
                    · next lower =>
                        rw [if_neg lower]
                        cases adjusted
                        rfl

/-- **A subtraction goes below zero exactly for an inverted range that the deletion starts above and
ends below.** -/
theorem Fold.adjustChecked_none_iff {first n : Nat} (some_lines : 0 < n) :
    fold.adjustChecked (.delete first n) = none ↔
      first ≤ fold.end_ ∧ fold.end_ < n ∧ first + n ≤ fold.start := by
  unfold adjustChecked
  simp only
  rw [if_neg (by omega)]
  constructor
  · intro failed
    split at failed
    · cases failed
    · split at failed
      · split at failed
        · omega
        · cases failed
      · split at failed
        · split at failed
          · omega
          · cases failed
        · split at failed <;> cases failed
  · rintro ⟨reaches, short, straddled⟩
    rw [if_neg (by omega), if_pos (by omega), if_pos (by omega)]

/-- What is trimmed is dead or has two lines. -/
theorem Fold.trimmed_dead {start : Nat} {e : Option Nat}
    (short : ∀ stop, e = some stop → stop ≤ start) : (fold.trimmed start e).Dead := by
  unfold trimmed
  cases e with
  | none => exact Nat.zero_le _
  | some stop =>
      have none_left := short stop rfl
      simp only
      rw [if_neg (by omega)]
      exact Nat.zero_le _

/-- **A dead fold stays dead.** -/
theorem Fold.Dead.adjustChecked (dead : fold.Dead) {op : LineOp}
    (adjusted : fold.adjustChecked op = some fold') : fold'.Dead := by
  unfold Dead at dead
  cases op with
  | insert after n =>
      cases adjusted
      unfold Dead
      simp only
      split <;> split <;> omega
  | delete first n =>
      unfold Fold.adjustChecked at adjusted
      simp only at adjusted
      split at adjusted
      · cases adjusted
      · split at adjusted
        · cases adjusted
          exact dead
        · split at adjusted
          · split at adjusted
            · cases adjusted
            · cases adjusted
              exact Nat.sub_le_sub_right dead n
          · split at adjusted
            · omega
            · split at adjusted
              · cases adjusted
                apply trimmed_dead
                intro stop same
                cases same
              · cases adjusted
                apply trimmed_dead
                intro stop same
                cases same
                omega

/-! ### Folds that no edit touches -/

/-- The edit changes no line of the fold, nor the break before its first. -/
def Fold.Untouched (edit : BufferEdit) (fold : Fold) : Prop :=
  edit.oldEndPoint.1 < fold.start ∨ fold.end_ < edit.startPoint.1

/-- Two folds over the same lines of two texts. -/
structure Fold.SameLines (text text' : Text) (fold fold' : Fold) : Prop where
  length : fold'.end_ - fold'.start = fold.end_ - fold.start
  live : fold.start < fold.end_ → fold'.start < fold'.end_
  lines : ∀ k, k ≤ fold.end_ - fold.start →
    (lines text')[fold'.start + k]? = (lines text)[fold.start + k]?
  inside : fold.end_ < (Utf8.lines text).length - 1 → fold'.end_ < (Utf8.lines text').length - 1

theorem Fold.SameLines.refl (text : Text) (fold : Fold) : fold.SameLines text text fold where
  length := rfl
  live := id
  lines _ _ := rfl
  inside := id

theorem Fold.SameLines.trans {text text' text'' : Text} {fold'' : Fold}
    (first : fold.SameLines text text' fold') (second : fold'.SameLines text' text'' fold'') :
    fold.SameLines text text'' fold'' where
  length := second.length.trans first.length
  live := fun live => second.live (first.live live)
  lines := by
    intro k within
    rw [second.lines k (by rw [first.length]; exact within), first.lines k within]
  inside := fun inside => second.inside (first.inside inside)

/-- A live fold below the edit moves by the lines it adds or takes, one above it stays. -/
theorem Fold.Untouched.moved (ordered : edit.startPoint.1 ≤ edit.oldEndPoint.1)
    (forward : edit.startPoint.1 ≤ edit.newEndPoint.1) (live : fold.start < fold.end_)
    (untouched : fold.Untouched edit) (adjusted : (match lineOp edit with
      | none => some fold
      | some op => fold.adjustChecked op) = some fold') : (edit.oldEndPoint.1 < fold.start ∧
        fold'.start + edit.oldEndPoint.1 = fold.start + edit.newEndPoint.1 ∧
        fold'.end_ + edit.oldEndPoint.1 = fold.end_ + edit.newEndPoint.1) ∨
      (fold.end_ < edit.startPoint.1 ∧ fold' = fold) := by
  unfold Untouched at untouched
  unfold lineOp at adjusted
  generalize edit.startPoint.1 = a at *
  generalize edit.oldEndPoint.1 = b at *
  generalize edit.newEndPoint.1 = c at *
  by_cases grows : b - a < c - a
  · simp only [grows, if_true, adjustChecked, Option.some.injEq] at adjusted
    have after_low : (a : Int) - 1 ≤ if edit.startPoint.2 = 0 then (a : Int) - 1 else a := by
      split <;> omega
    have after_high : (if edit.startPoint.2 = 0 then (a : Int) - 1 else a) ≤ a := by
      split <;> omega
    rcases untouched with below | above
    · refine Or.inl ⟨below, ?_⟩
      rw [if_pos (by omega), if_pos (by omega)] at adjusted
      rw [← adjusted]
      simp only
      omega
    · refine Or.inr ⟨above, ?_⟩
      rw [if_neg (by omega), if_neg (by omega)] at adjusted
      exact adjusted.symm
  · by_cases shrinks : c - a < b - a
    · simp only [grows, shrinks, if_true, if_false, adjustChecked] at adjusted
      have first_low : a ≤ if edit.startPoint.2 = 0 then a else a + 1 := by
        split <;> omega
      have first_high : (if edit.startPoint.2 = 0 then a else a + 1) ≤ a + 1 := by
        split <;> omega
      rw [if_neg (by omega)] at adjusted
      rcases untouched with below | above
      · refine Or.inl ⟨below, ?_⟩
        rw [if_neg (by omega), if_pos (by omega), if_neg (by omega), Option.some.injEq] at adjusted
        rw [← adjusted]
        simp only
        omega
      · refine Or.inr ⟨above, ?_⟩
        rw [if_pos (by omega), Option.some.injEq] at adjusted
        exact adjusted.symm
    · simp only [grows, shrinks, if_false, Option.some.injEq] at adjusted
      subst adjusted
      rcases untouched with below | above
      · exact Or.inl ⟨below, by omega, by omega⟩
      · exact Or.inr ⟨above, rfl⟩

/-- **One edit.**  A live fold that it leaves untouched moves with its lines. -/
theorem Fold.Untouched.sameLines {text text' : Text} (recorded : RowExact edit text text')
    (live : fold.start < fold.end_) (untouched : fold.Untouched edit)
    (adjusted : (match lineOp edit with
      | none => some fold
      | some op => fold.adjustChecked op) = some fold') : fold.SameLines text text' fold' := by
  have spliced := edit_spliced recorded
  have lengths := spliced.lengths
  have old_row := spliced.old_row
  have new_row := spliced.new_row
  have forward := spliced.start_new
  rcases untouched.moved spliced.start_old forward live adjusted with
    ⟨below, start_eq, end_eq⟩ | ⟨above, rfl⟩
  · constructor
    · omega
    · omega
    · intro k _
      rw [spliced.getElem?_behind (by omega)]
      congr 1
      omega
    · omega
  · constructor
    · rfl
    · exact id
    · intro k within
      exact spliced.getElem?_before (by omega)
    · omega

/-! ### Whole batches -/

namespace Batch

/-- The edit's places are right and it joins no break, and no deletion straddles a deleted fold's
range: from its end up to its start, and further up than its end is down. -/
def Meets (batch : Batch) (edit : BufferEdit) : Prop :=
  (∃ text, RowExact edit batch.text text) ∧
    ∀ first n, lineOp edit = some (.delete first n) → ∀ fold ∈ batch.folds,
      ¬ (fold.Dead ∧ first ≤ fold.end_ ∧ fold.end_ < n ∧ first + n ≤ fold.start)

variable {edit : BufferEdit} {batch : Batch}

/-- A deletion is of some lines. -/
theorem lineOp_delete {first n : Nat} (op : lineOp edit = some (.delete first n)) : 0 < n := by
  simp only [lineOp] at op
  split at op
  · cases op
  · split at op
    · cases op
      omega
    · cases op

/-- Every fold is adjusted on its own. -/
theorem mapM_adjust {folds : List Fold} {f : Fold → Option Fold}
    (enabled : ∀ fold ∈ folds, ∃ fold', f fold = some fold') :
    ∃ folds', folds.mapM f = some folds' ∧ folds'.length = folds.length ∧
      ∀ (i : Nat) (fold fold' : Fold), folds[i]? = some fold → folds'[i]? = some fold' →
        f fold = some fold' := by
  induction folds with
  | nil => exact ⟨[], rfl, rfl, fun i fold fold' here => by cases here⟩
  | cons fold folds ih =>
      obtain ⟨first, adjusted⟩ := enabled fold List.mem_cons_self
      obtain ⟨rest, mapped, length, each⟩ :=
        ih fun other member => enabled other (List.mem_cons_of_mem _ member)
      refine ⟨first :: rest, ?_, congrArg (· + 1) length, ?_⟩
      · rw [List.mapM_cons, adjusted, mapped]
        rfl
      · intro i here there found found'
        cases i with
        | zero =>
            cases found
            cases found'
            exact adjusted
        | succ i => exact each i here there found found'

/-- What one edit does to each fold. -/
theorem step_spec (meets : batch.Meets edit) :
    ∃ next, batch.step edit = some next ∧ next.folds.length = batch.folds.length ∧
      RowExact edit batch.text next.text ∧
      ∀ (i : Nat) (fold fold' : Fold), batch.folds[i]? = some fold → next.folds[i]? = some fold' →
        (match lineOp edit with
          | none => some fold
          | some op => fold.adjustChecked op) = some fold' := by
  obtain ⟨⟨text, recorded⟩, apart⟩ := meets
  have spliced := recorded.spliced
  unfold step
  rw [spliced, Option.bind_some]
  cases op : lineOp edit with
  | none =>
      refine ⟨⟨text, batch.folds⟩, rfl, rfl, recorded, ?_⟩
      intro i fold fold' here there
      rw [here] at there
      exact there
  | some op' =>
      have enabled : ∀ fold ∈ batch.folds, ∃ fold', fold.adjustChecked op' = some fold' := by
        intro fold member
        cases outcome : fold.adjustChecked op' with
        | some fold' => exact ⟨fold', rfl⟩
        | none =>
            cases op' with
            | insert after n => cases outcome
            | delete first n =>
                obtain ⟨reaches, short, straddled⟩ :=
                  (Fold.adjustChecked_none_iff (lineOp_delete op)).1 outcome
                refine absurd ⟨?_, reaches, short, straddled⟩ (apart first n op fold member)
                unfold Fold.Dead
                omega
      obtain ⟨folds, mapped, length, each⟩ := mapM_adjust enabled
      refine ⟨⟨text, folds⟩, ?_, length, recorded, each⟩
      simp only [mapped, Option.map_some]

/-- The edits leave the fold at one place of the list untouched, wherever they have moved it. -/
def Spared (i : Nat) (batch : Batch) (edit : BufferEdit) : Prop :=
  ∀ fold, batch.folds[i]? = some fold → fold.Untouched edit

/-- From one batch to a later one: folds marked deleted stay so. -/
def KeepsDead (batch final : Batch) : Prop :=
  ∀ (i : Nat) (fold fold' : Fold), batch.folds[i]? = some fold → final.folds[i]? = some fold' →
    fold.Dead → fold'.Dead

theorem keepsDead_step {next : Batch} (meets : batch.Meets edit)
    (taken : batch.step edit = some next) : batch.KeepsDead next := by
  obtain ⟨next', taken', -, -, each⟩ := step_spec meets
  rw [taken, Option.some.injEq] at taken'
  subst taken'
  intro i fold fold' here there dead
  have adjusted := each i fold fold' here there
  split at adjusted
  · cases adjusted
    exact dead
  · exact dead.adjustChecked adjusted

/-- A whole batch, from any stage of it on. -/
theorem run_spec {edits : List BufferEdit} (along : Along Meets step batch edits) :
    ∃ final, run step batch edits = some final ∧ final.folds.length = batch.folds.length ∧
      batch.KeepsDead final ∧
      ∀ (i : Nat) (fold fold' : Fold), batch.folds[i]? = some fold → final.folds[i]? = some fold' →
        fold.start < fold.end_ → Along (Spared i) step batch edits →
          fold.SameLines batch.text final.text fold' := by
  induction edits generalizing batch with
  | nil =>
      refine ⟨batch, rfl, rfl, ?_, ?_⟩
      · intro i fold fold' here there dead
        rw [here] at there
        cases there
        exact dead
      · intro i fold fold' here there _ _
        rw [here] at there
        cases there
        exact .refl _ _
  | cons edit edits ih =>
      obtain ⟨next, taken, length, recorded, each⟩ := step_spec along.1
      obtain ⟨final, reached, length', keeps, moves⟩ := ih (along.2 next taken)
      have middle : ∀ (i : Nat) (fold : Fold), batch.folds[i]? = some fold →
          ∃ fold', next.folds[i]? = some fold' := by
        intro i fold here
        have inside := (List.getElem?_eq_some_iff.1 here).1
        exact ⟨_, List.getElem?_eq_getElem (by omega)⟩
      refine ⟨final, Run.run_cons.2 ⟨next, taken, reached⟩, length'.trans length, ?_, ?_⟩
      · intro i fold fold' here there dead
        obtain ⟨between, found⟩ := middle i fold here
        exact keeps i between fold' found there
          (keepsDead_step along.1 taken i fold between here found dead)
      · intro i fold fold' here there live spared
        obtain ⟨between, found⟩ := middle i fold here
        have first := (spared.1 fold here).sameLines recorded live (each i fold between here found)
        exact first.trans (moves i between fold' found there (first.live live)
          (spared.2 next taken))

/-- **Manual folds under a batch.**  Where no deletion straddles a deleted fold's range, and every
edit's places are right, no subtraction goes below zero, a fold deleted at any stage of the batch
stays so, what is retained has two lines and ends in the text, and a fold that no edit touches is
retained over the lines it had. -/
theorem fold_batch_run (text : Text) (folds : List Fold) (edits : List BufferEdit)
    (live : ∀ fold ∈ folds, fold.start < fold.end_)
    (along : Along Meets step ⟨text, folds⟩ edits) :
    ∃ final, run step ⟨text, folds⟩ edits = some final ∧
      (∀ front back middle, edits = front ++ back →
        run step ⟨text, folds⟩ front = some middle → middle.KeepsDead final) ∧
      (∀ fold ∈ final.retained,
        fold.start < fold.end_ ∧ fold.end_ < (lines final.text).length - 1) ∧
      ∀ (i : Nat) (fold : Fold), folds[i]? = some fold →
        Along (Spared i) step ⟨text, folds⟩ edits →
          ∃ fold', final.folds[i]? = some fold' ∧ fold.SameLines text final.text fold' ∧
            (fold.end_ < (lines text).length - 1 → fold' ∈ final.retained) := by
  obtain ⟨final, reached, length, -, moves⟩ := run_spec along
  refine ⟨final, reached, ?_, ?_, ?_⟩
  · intro front back middle split early
    subst split
    obtain ⟨middle', early', late⟩ := Run.run_append.1 reached
    rw [early, Option.some.injEq] at early'
    subst early'
    obtain ⟨final', late', -, keeps, -⟩ := run_spec (Run.along_append along early)
    rw [late, Option.some.injEq] at late'
    subst late'
    exact keeps
  · intro fold member
    have passed := (List.mem_filter.1 member).2
    simp only [Bool.and_eq_true, decide_eq_true_eq] at passed
    exact ⟨passed.2, passed.1⟩
  · intro i fold here spared
    have inside := (List.getElem?_eq_some_iff.1 here).1
    have within : i < final.folds.length := by
      rw [length]
      exact inside
    have same := moves i fold _ here (List.getElem?_eq_getElem within)
      (live fold (List.mem_of_getElem? here)) spared
    refine ⟨_, List.getElem?_eq_getElem within, same, ?_⟩
    intro in_text
    refine List.mem_filter.2 ⟨List.getElem_mem _, ?_⟩
    simp only [Bool.and_eq_true, decide_eq_true_eq]
    exact ⟨same.inside in_text, same.live (live fold (List.mem_of_getElem? here))⟩

/-- Six lines. -/
def sixLines : Text := ['a', '\n', 'b', '\n', 'c', '\n', 'd', '\n', 'e', '\n', 'f', '\n']

/-- The first line deleted. -/
def firstLineGone : BufferEdit := ⟨0, 2, 0, (0, 0), (1, 0), (0, 0), []⟩

/-- The first line deleted, then the two of the fold, then one below the fold that is gone. -/
def pulledUp : List BufferEdit :=
  [firstLineGone, ⟨2, 6, 2, (1, 0), (3, 0), (1, 0), []⟩, ⟨2, 4, 2, (1, 0), (2, 0), (1, 0), []⟩]

/-- A fold over the third and fourth line: the first edit moves it, the second deletes it, and the third
meets it deleted. -/
theorem fold_batch_run_pulled :
    ∃ final, run step ⟨sixLines, [⟨2, 3, true⟩]⟩ pulledUp = some final ∧
      (∀ front back middle, pulledUp = front ++ back →
        run step ⟨sixLines, [⟨2, 3, true⟩]⟩ front = some middle → middle.KeepsDead final) ∧
      (∀ fold ∈ final.retained,
        fold.start < fold.end_ ∧ fold.end_ < (lines final.text).length - 1) ∧
      ∀ (i : Nat) (fold : Fold), [(⟨2, 3, true⟩ : Fold)][i]? = some fold →
        Along (Spared i) step ⟨sixLines, [⟨2, 3, true⟩]⟩ pulledUp →
          ∃ fold', final.folds[i]? = some fold' ∧ fold.SameLines sixLines final.text fold' ∧
            (fold.end_ < (lines sixLines).length - 1 → fold' ∈ final.retained) := by
  apply fold_batch_run sixLines [⟨2, 3, true⟩] pulledUp
  · intro fold member
    obtain rfl := List.mem_singleton.1 member
    decide
  refine ⟨⟨⟨sixLines.drop 2, ⟨⟨⟨rfl, rfl, rfl, rfl⟩, rfl⟩, ?_⟩⟩, ?_⟩, fun moved taken => ?_⟩
  · intro joins
    exact absurd joins.1 (by decide)
  · intro first n _ fold member
    obtain rfl := List.mem_singleton.1 member
    intro straddled
    exact absurd straddled.1 (by unfold Fold.Dead; decide)
  have pulled : step ⟨sixLines, [⟨2, 3, true⟩]⟩ firstLineGone =
      some ⟨sixLines.drop 2, [⟨1, 2, true⟩]⟩ := rfl
  rw [pulled, Option.some.injEq] at taken
  subst taken
  refine ⟨⟨⟨'b' :: '\n' :: sixLines.drop 8, ⟨⟨⟨rfl, rfl, rfl, rfl⟩, rfl⟩, ?_⟩⟩, ?_⟩, fun gone taken => ?_⟩
  · intro joins
    exact absurd joins.1 (by decide)
  · intro first n _ fold member
    obtain rfl := List.mem_singleton.1 member
    intro straddled
    exact absurd straddled.1 (by unfold Fold.Dead; decide)
  have deleted : step ⟨sixLines.drop 2, [⟨1, 2, true⟩]⟩ ⟨2, 6, 2, (1, 0), (3, 0), (1, 0), []⟩ =
      some ⟨'b' :: '\n' :: sixLines.drop 8, [⟨1, 0, true⟩]⟩ := rfl
  rw [deleted, Option.some.injEq] at taken
  subst taken
  refine ⟨⟨⟨'b' :: '\n' :: sixLines.drop 10, ⟨⟨⟨rfl, rfl, rfl, rfl⟩, rfl⟩, ?_⟩⟩, ?_⟩, fun _ _ => trivial⟩
  · intro joins
    exact absurd joins.1 (by decide)
  · intro first n op fold member
    obtain rfl := List.mem_singleton.1 member
    cases op
    intro straddled
    exact absurd straddled.2.1 (by decide)

/-- A fold's two lines deleted, then the first line: the edits replay, and the second of them takes
the deleted fold's end below zero. -/
theorem deleted_fold_underflows :
    ∃ edits, ((((Buffer.ofText sixLines : Buffer Unit).remove 4 8).bind
          fun buffer => buffer.remove 0 2).map fun buffer => buffer.foldEdits.edits) = some edits ∧
      Journal.replay edits sixLines = some ['b', '\n', 'e', '\n', 'f', '\n'] ∧
      run step ⟨sixLines, [⟨2, 3, true⟩]⟩ edits = none := by
  exact ⟨_, rfl, rfl, rfl⟩

end Batch

end Bemtvi.Core
