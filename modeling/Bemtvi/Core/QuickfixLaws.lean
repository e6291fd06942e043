/-
Module: Bemtvi.Core.QuickfixLaws
Purpose: Runs of quickfix commands: the stack stays sound, the display buffer holds what the current list
  renders to, and when its rows are the list's entries.
Trusted boundary: none
Main exports: Sound, Rendered, Plain, shown_load_iff, markRows, quickfix_rows
-/
import Bemtvi.Core.Quickfix
import Bemtvi.Lib.Lines

namespace Bemtvi.Core.Quickfix

open Utf8

/-! ### Stacks -/

/-- What holds of every stack: few lists, the current one among them, and no index past a list's end. -/
structure Sound (stack : QfStack) : Prop where
  few : stack.lists.length ≤ qfMaxLists
  here : stack.lists = [] ∨ stack.cur < stack.lists.length
  indices : ∀ list ∈ stack.lists, list.idx ≤ list.items.length

theorem QfList.apply_idx {list : QfList} (within : list.idx ≤ list.items.length) (items : List QfEntry)
    (action : QfAction) (title : Option Text) :
    (list.apply items action title).idx ≤ (list.apply items action title).items.length := by
  have fresh : (if items = [] then 0 else 1) ≤ items.length := by
    split
    · exact Nat.zero_le _
    · next some_item => exact List.length_pos_of_ne_nil some_item
  cases action with
  | new => exact fresh
  | add =>
      simp only [QfList.apply, if_true, List.length_append]
      exact Nat.le_add_right_of_le within
  | replace => exact fresh

theorem Sound.modify {stack : QfStack} (sound : Sound stack) {f : QfList → QfList}
    (keeps : ∀ list, stack.lists[stack.cur]? = some list → (f list).idx ≤ (f list).items.length) :
    Sound { stack with lists := stack.lists.modify stack.cur f } := by
  refine ⟨?_, ?_, fun list member => ?_⟩
  · rw [List.length_modify]
    exact sound.few
  · rcases sound.here with none_yet | here
    · refine Or.inl ?_
      rw [none_yet, List.modify_nil]
    · refine Or.inr ?_
      rw [List.length_modify]
      exact here
  · obtain ⟨index, found⟩ := List.mem_iff_getElem?.1 member
    rw [List.getElem?_modify] at found
    cases before : stack.lists[index]? with
    | none =>
        rw [before] at found
        cases found
    | some list' =>
        rw [before, Option.map_eq_map, Option.map_some, Option.some.injEq] at found
        split at found
        · next same =>
            rw [← found]
            exact keeps list' (same ▸ before)
        · rw [← found]
          exact sound.indices list' (List.mem_of_getElem? before)

/-- **Filling a list keeps the stack sound.** -/
theorem Sound.apply {stack : QfStack} (sound : Sound stack) (items : List QfEntry) (action : QfAction)
    (title : Option Text) : Sound (stack.apply items action title) := by
  have first (action : QfAction) : Sound ⟨[QfList.default.apply items action title], 0⟩ := by
    refine ⟨Nat.succ_le_succ (Nat.zero_le 9), Or.inr (Nat.succ_pos 0), fun list member => ?_⟩
    rw [List.mem_singleton.1 member]
    exact QfList.apply_idx (Nat.zero_le _) items action title
  have in_place (action : QfAction) : Sound (if stack.lists = [] then
      ⟨[QfList.default.apply items action title], 0⟩
      else { stack with lists := stack.lists.modify stack.cur fun list => list.apply items action title }) := by
    split
    · exact first action
    · exact sound.modify fun list found =>
        QfList.apply_idx (sound.indices list (List.mem_of_getElem? found)) items action title
  cases action with
  | add => exact in_place .add
  | replace => exact in_place .replace
  | new =>
      have pushed : ∀ list ∈ stack.lists.take (stack.cur + 1) ++ [QfList.default.apply items .new title],
          list.idx ≤ list.items.length := by
        intro list member
        rcases List.mem_append.1 member with before | last
        · exact sound.indices list (List.mem_of_mem_take before)
        · rw [List.mem_singleton.1 last]
          exact QfList.apply_idx (Nat.zero_le _) items .new title
      have length : (stack.lists.take (stack.cur + 1) ++ [QfList.default.apply items .new title]).length ≤
          qfMaxLists + 1 := by
        rw [List.length_append, List.length_take, List.length_singleton]
        have few := sound.few
        omega
      have some_list : 0 < (stack.lists.take (stack.cur + 1) ++
          [QfList.default.apply items .new title]).length := by
        rw [List.length_append, List.length_singleton]
        exact Nat.succ_pos _
      rw [QfStack.apply]
      split
      · next many =>
          refine ⟨?_, Or.inr ?_, fun list member => pushed list (List.mem_of_mem_drop member)⟩
          · rw [List.length_drop]
            omega
          · rw [qfMaxLists] at many
            simp only [List.length_drop]
            omega
      · next few =>
          exact ⟨Nat.le_of_not_lt few, Or.inr (Nat.sub_lt some_list Nat.one_pos), pushed⟩

theorem Sound.older {stack : QfStack} (sound : Sound stack) (count : Nat) : Sound (stack.older count).1 := by
  refine ⟨sound.few, sound.here.imp_right fun here => ?_, sound.indices⟩
  exact Nat.lt_of_le_of_lt (Nat.sub_le _ _) here

theorem Sound.newer {stack : QfStack} (sound : Sound stack) (count : Nat) : Sound (stack.newer count).1 := by
  rw [QfStack.newer]
  split
  · exact sound
  · next some_list =>
      refine ⟨sound.few, Or.inr ?_, sound.indices⟩
      have some_list := List.length_pos_of_ne_nil some_list
      simp only
      omega

/-! ### Runs -/

/-- The display buffer holds what the current list renders to, and its marks. -/
def Rendered (s : State) : Prop :=
  s.contents = load (joinRows s.rows) ∧
    s.marks = paintSeverity s.contents 0 (s.cur.items.map fun entry => qfTypeHl entry.typ)

theorem refreshWindow_stack (s : State) : s.refreshWindow.stack = s.stack := by
  rw [State.refreshWindow, State.renderText]
  split
  · rfl
  · split <;> rfl

theorem renderText_rows (s : State) : s.renderText.2 = joinRows s.renderText.1.rows := by
  rw [State.renderText]
  split
  · next block => simp only [State.rows, block]
  · next f block =>
      split
      · next rows rendered => simp only [State.rows, block, rendered]
      · rfl

/-- **A refresh renders the current list.** -/
theorem refreshWindow_rendered (s : State) : Rendered s.refreshWindow :=
  ⟨congrArg load (renderText_rows s), rfl⟩

/-- What the display depends on. -/
theorem Rendered.of_eq {s s' : State} (rendered : Rendered s) (items : s'.cur.items = s.cur.items)
    (textFn : s'.textFn = s.textFn) (contents : s'.contents = s.contents) (marks : s'.marks = s.marks) :
    Rendered s' := by
  have rows : s'.rows = s.rows := by
    rw [State.rows, State.rows, textFn, items]
  rw [Rendered, contents, marks, rows, items]
  exact rendered

section
variable (pathOf : Int → Option Text)

variable {entry : QfEntry} {idx : Nat} {s : State}

/-- A jump moves the index of the current list. -/
theorem jumpToIndex_eq (found : s.cur.items[idx]? = some entry) :
    ∃ echo, jumpToIndex pathOf s idx = { s with
      stack := { s.stack with lists := s.stack.lists.modify s.stack.cur ({ · with idx := idx + 1 }) }
      jumped := some (jumpOf pathOf entry)
      echo } := by
  rw [jumpToIndex, found]
  cases target : jumpOf pathOf entry with
  | file filename line col =>
      simp only [target]
      exact ⟨_, rfl⟩
  | text text =>
      simp only [target]
      exact ⟨_, rfl⟩

/-- An entry of the current list is one of a list of the stack. -/
theorem cur_of_entry (found : s.cur.items[idx]? = some entry) :
    s.stack.lists[s.stack.cur]? = some s.cur := by
  cases here : s.stack.lists[s.stack.cur]? with
  | none =>
      rw [State.cur, QfStack.current, here] at found
      cases found
  | some list => rw [State.cur, QfStack.current, here, Option.getD_some]

theorem jumpToIndex_cur (found : s.cur.items[idx]? = some entry) :
    (jumpToIndex pathOf s idx).cur = { s.cur with idx := idx + 1 } ∧
      (jumpToIndex pathOf s idx).jumped = some (jumpOf pathOf entry) := by
  obtain ⟨echo, jumps⟩ := jumpToIndex_eq pathOf found
  rw [jumps]
  refine ⟨?_, rfl⟩
  have after : (s.stack.lists.modify s.stack.cur ({ · with idx := idx + 1 }))[s.stack.cur]? =
      some { s.cur with idx := idx + 1 } := by
    rw [List.getElem?_modify, cur_of_entry found, Option.map_eq_map, Option.map_some, if_pos rfl]
  simp only [State.cur, QfStack.current] at after ⊢
  rw [after, Option.getD_some]

/-- What a state keeps: a sound stack, rendered. -/
def Kept (s : State) : Prop := Sound s.stack ∧ Rendered s

theorem Kept.echo (kept : Kept s) (echo : Text) : Kept { s with echo } := kept

theorem Kept.refresh (sound : Sound s.stack) : Kept s.refreshWindow :=
  ⟨refreshWindow_stack s ▸ sound, refreshWindow_rendered s⟩

theorem Kept.jump (kept : Kept s) (idx : Nat) : Kept (jumpToIndex pathOf s idx) := by
  obtain ⟨sound, rendered⟩ := kept
  cases found : s.cur.items[idx]? with
  | none =>
      rw [jumpToIndex, found]
      exact ⟨sound, rendered⟩
  | some entry =>
      obtain ⟨cur, -⟩ := jumpToIndex_cur pathOf found
      have within : idx < s.cur.items.length := (List.getElem?_eq_some_iff.1 found).1
      have items : (jumpToIndex pathOf s idx).cur.items = s.cur.items := by rw [cur]
      obtain ⟨echo, jumps⟩ := jumpToIndex_eq pathOf found
      rw [jumps] at items ⊢
      refine ⟨sound.modify fun list here => ?_, rendered.of_eq items rfl rfl rfl⟩
      rw [cur_of_entry found, Option.some.injEq] at here
      rw [← here]
      exact within

theorem Kept.jumpValid (kept : Kept s) (found : Option Nat) :
    Kept (Quickfix.jumpValid pathOf s found) := by
  cases found with
  | none => exact kept.echo _
  | some idx => exact kept.jump pathOf idx

/-- **A command keeps the stack sound and the display rendered.** -/
theorem Kept.step (kept : Kept s) (command : Command) : Kept (step pathOf s command) := by
  cases command with
  | setItems items action title => exact Kept.refresh (kept.1.apply items action title)
  | setText block => exact Kept.refresh kept.1
  | history label newer count =>
      have walked : Sound (if newer then s.stack.newer count else s.stack.older count).1 := by
        split
        · exact kept.1.newer count
        · exact kept.1.older count
      rw [Quickfix.step, State.history]
      by_cases none_yet : s.stack.lists = []
      · rw [if_pos none_yet]
        exact kept.echo _
      · rw [if_neg none_yet]
        dsimp only
        by_cases moved : (if newer then s.stack.newer count else s.stack.older count).2 = true
        · rw [if_pos moved]
          have after := Kept.refresh (s := { s with
            stack := (if newer then s.stack.newer count else s.stack.older count).1 }) walked
          exact after.echo _
        · rw [if_neg moved]
          exact kept.echo _
  | cc nr =>
      rw [Quickfix.step, cc]
      split
      · exact kept.echo _
      · exact kept.jump pathOf _
  | step forward count =>
      rw [Quickfix.step, exStep]
      by_cases some_valid : (s.cur.items.map (·.valid)).any id = true
      · rw [if_pos some_valid]
        cases forward with
        | true =>
            cases found : stepForward ((s.cur.items.map (·.valid)).drop s.cur.idx) s.cur.idx (max count 1) with
            | none =>
                simp only [if_true]
                exact kept.echo _
            | some idx =>
                simp only [if_true]
                exact kept.jump pathOf idx
        | false =>
            cases found : stepBackward ((s.cur.items.map (·.valid)).take (s.cur.idx - 1)).reverse
                (max count 1) with
            | none =>
                simp only [Bool.false_eq_true, if_false]
                exact kept.echo _
            | some idx =>
                simp only [Bool.false_eq_true, if_false]
                exact kept.jump pathOf idx
      · rw [if_neg some_valid]
        exact kept.echo _
  | stepFile forward count =>
      rw [Quickfix.step, exStepFile]
      by_cases some_file : (s.cur.items.map fileKey).any (·.isSome) = true
      · rw [if_pos some_file]
        dsimp only
        split
        · exact kept.jump pathOf _
        · exact kept.echo _
      · rw [if_neg some_file]
        exact kept.echo _
  | first => exact kept.jumpValid pathOf _
  | last => exact kept.jumpValid pathOf _
  | jump row => exact kept.jump pathOf row

theorem run_kept (commands : List Command) : Kept (run pathOf commands) := by
  have started : Kept State.new :=
    Kept.refresh ⟨Nat.zero_le _, Or.inl rfl, by rintro list ⟨⟩⟩
  have onwards : ∀ (commands : List Command) (s : State), Kept s → Kept (commands.foldl (step pathOf) s) := by
    intro commands
    induction commands with
    | nil => exact fun s kept => kept
    | cons command commands ih => exact fun s kept => ih _ (kept.step pathOf command)
  exact onwards commands .new started

end

/-! ### Rows -/

/-- Rows that a buffer shows as they are: no line ends in one, and none but an only one is empty at the
end. -/
def Plain (rows : List Text) : Prop :=
  (∀ row ∈ rows, BreakFree row) ∧ ∀ front, rows = front ++ [[]] → front = []

variable {row line text : Text} {rows : List Text}

theorem stripEol_newline (no_return : '\r' ∉ row) : stripEol (row ++ ['\n']) = row := by
  have other : row.getLast? ≠ some '\r' := fun last => no_return (List.mem_of_getLast? last)
  rw [stripEol, if_pos List.getLast?_concat, List.dropLast_concat, if_neg other]

/-- The line of a text up to a carriage return with a newline behind it. -/
theorem lines_crlf (free : BreakFree line) (text : Text) :
    lines (line ++ '\r' :: '\n' :: text) = (line ++ ['\r', '\n']) :: lines text := by
  induction line with
  | nil =>
      have stays : breaks '\r' ('\n' :: text).head? = false := rfl
      have ends : breaks '\n' text.head? = true := rfl
      rw [List.nil_append, lines, stays, lines_cons_break ends]
      rfl
  | cons c line ih =>
      obtain ⟨newline, carriage⟩ := free
      rw [List.mem_cons, not_or] at newline carriage
      have stays : breaks c (line ++ '\r' :: '\n' :: text).head? = false := by
        simp [breaks, Ne.symm newline.1, Ne.symm carriage.1]
      have rest := ih ⟨newline.2, carriage.2⟩
      rw [List.cons_append, lines, stays, rest]
      rfl

/-- The line of a text up to a carriage return alone. -/
theorem lines_cr (free : BreakFree line) (alone : text.head? ≠ some '\n') :
    lines (line ++ '\r' :: text) = (line ++ ['\r']) :: lines text := by
  induction line with
  | nil =>
      have ends : breaks '\r' text.head? = true := by
        simp [breaks, alone]
      exact lines_cons_break ends
  | cons c line ih =>
      obtain ⟨newline, carriage⟩ := free
      rw [List.mem_cons, not_or] at newline carriage
      have stays : breaks c (line ++ '\r' :: text).head? = false := by
        simp [breaks, Ne.symm newline.1, Ne.symm carriage.1]
      have rest := ih ⟨newline.2, carriage.2⟩
      rw [List.cons_append, lines, stays, rest]
      rfl

/-- The first line shown. -/
theorem shown_of_lines {rest : Text} (first : lines text = line :: lines rest) :
    shown text = stripEol line :: shown rest := by
  obtain ⟨line', more, found⟩ := List.exists_cons_of_ne_nil (lines_ne_nil rest)
  rw [shown, shown, lineCount, lineCount, first, found]
  rfl

theorem shown_line (free : BreakFree row) (text : Text) :
    shown (row ++ '\n' :: text) = row :: shown text := by
  rw [shown_of_lines (lines_line free text), stripEol_newline free.2]

/-- The first place that a line ends in a text. -/
theorem exists_break (ends : ¬ BreakFree row) :
    ∃ front c back, row = front ++ c :: back ∧ BreakFree front ∧ (c = '\n' ∨ c = '\r') := by
  induction row with
  | nil => exact absurd ⟨List.not_mem_nil, List.not_mem_nil⟩ ends
  | cons c row ih =>
      by_cases here : c = '\n' ∨ c = '\r'
      · exact ⟨[], c, row, rfl, ⟨List.not_mem_nil, List.not_mem_nil⟩, here⟩
      · rw [not_or] at here
        have later : ¬ BreakFree row := by
          intro free
          refine ends ⟨?_, ?_⟩
          · rw [List.mem_cons, not_or]
            exact ⟨Ne.symm here.1, free.1⟩
          · rw [List.mem_cons, not_or]
            exact ⟨Ne.symm here.2, free.2⟩
        obtain ⟨front, c', back, rfl, free, found⟩ := ih later
        refine ⟨c :: front, c', back, rfl, ⟨?_, ?_⟩, found⟩
        · rw [List.mem_cons, not_or]
          exact ⟨Ne.symm here.1, free.1⟩
        · rw [List.mem_cons, not_or]
          exact ⟨Ne.symm here.2, free.2⟩

/-- **A row is shown as it is only where no line ends in it.** -/
theorem shown_first (row text : Text) :
    ∃ line rest, shown (row ++ '\n' :: text) = line :: rest ∧ line.length ≤ row.length ∧
      (line = row → BreakFree row ∧ rest = shown text) := by
  by_cases free : BreakFree row
  · exact ⟨row, shown text, shown_line free text, Nat.le_refl _, fun _ => ⟨free, rfl⟩⟩
  · obtain ⟨front, c, back, rfl, free_front, ended⟩ := exists_break free
    have longer : front.length < (front ++ c :: back).length := by
      rw [List.length_append, List.length_cons]
      omega
    have short (line : Text) (length : line.length = front.length) (same : line = front ++ c :: back) :
        False := by
      rw [← same, length] at longer
      exact Nat.lt_irrefl _ longer
    rw [List.append_assoc, List.cons_append]
    rcases ended with rfl | rfl
    · exact ⟨front, _, shown_line free_front _, Nat.le_of_lt longer,
        fun same => (short front rfl same).elim⟩
    · by_cases alone : (back ++ '\n' :: text).head? = some '\n'
      · obtain ⟨rest, joined⟩ : ∃ rest, back ++ '\n' :: text = '\n' :: rest := by
          cases back with
          | nil => exact ⟨text, rfl⟩
          | cons c back =>
              rw [List.cons_append, List.head?_cons, Option.some.injEq] at alone
              exact ⟨back ++ '\n' :: text, by rw [List.cons_append, alone]⟩
        have line : stripEol (front ++ ['\r', '\n']) = front := by
          rw [stripEol]
          simp
        rw [joined]
        refine ⟨front, shown rest, ?_, Nat.le_of_lt longer, fun same => (short front rfl same).elim⟩
        rw [shown_of_lines (lines_crlf free_front rest), line]
      · have line : stripEol (front ++ ['\r']) = front ++ ['\r'] := by
          rw [stripEol]
          simp
        refine ⟨front ++ ['\r'], _, by rw [shown_of_lines (lines_cr free_front alone), line], ?_, fun same => ?_⟩
        · rw [List.length_append, List.length_singleton]
          exact longer
        · rw [List.append_cancel_left_eq, List.cons.injEq] at same
          rw [← same.2] at alone
          exact absurd rfl alone

/-- **Lines shown as rows are those rows, and the rest of the text is the rest of the lines.** -/
theorem shown_unlines {extra : List Text} (same : shown (unlines rows ++ text) = rows ++ extra) :
    (∀ row ∈ rows, BreakFree row) ∧ shown text = extra := by
  induction rows with
  | nil => exact ⟨by rintro row ⟨⟩, same⟩
  | cons row rows ih =>
      rw [unlines_cons, List.append_assoc, List.cons_append] at same
      obtain ⟨line, rest, first, -, only⟩ := shown_first row (unlines rows ++ text)
      rw [first, List.cons_append, List.cons.injEq] at same
      obtain ⟨free, more⟩ := only same.1
      obtain ⟨all, later⟩ := ih (more ▸ same.2)
      exact ⟨List.forall_mem_cons.2 ⟨free, all⟩, later⟩

theorem shown_free (free : ∀ row ∈ rows, BreakFree row) : shown (unlines rows) = rows := by
  induction rows with
  | nil => rfl
  | cons row rows ih =>
      rw [List.forall_mem_cons] at free
      rw [unlines_cons, shown_line free.1, ih free.2]

theorem joinRows_concat (front : List Text) (last : Text) :
    joinRows (front ++ [last]) = unlines front ++ last := by
  induction front with
  | nil => rfl
  | cons row front ih =>
      obtain ⟨row', rows, more⟩ := List.exists_cons_of_ne_nil
        (List.append_ne_nil_of_right_ne_nil front (List.cons_ne_nil last []))
      rw [unlines_cons, List.cons_append, more, joinRows, ← more, ih, List.append_assoc, List.cons_append]
      exact List.cons_ne_nil row' rows

/-- The rows of a text loaded. -/
theorem load_plain (plain : Plain rows) :
    load (joinRows rows) = unlines (if rows = [] then [[]] else rows) := by
  rcases List.eq_nil_or_concat' rows with rfl | ⟨front, last, rfl⟩
  · rfl
  · have some_row : front ++ [last] ≠ [] := List.append_ne_nil_of_right_ne_nil _ (List.cons_ne_nil last [])
    have free := plain.1 last (List.mem_append_right _ (List.mem_cons_self ..))
    rw [joinRows_concat, if_neg some_row, unlines_append, unlines_cons, unlines_nil]
    rcases List.eq_nil_or_concat' last with rfl | ⟨text, c, rfl⟩
    · rw [plain.2 front rfl]
      rfl
    · have other : c ≠ '\n' := by
        rintro rfl
        exact free.1 (List.mem_append_right _ (List.mem_cons_self ..))
      rw [load, ← List.append_assoc, List.getLast?_concat, if_neg (by rwa [Option.some.injEq])]
      simp only [List.append_assoc, List.singleton_append]

/-- **The display shows the rows, exactly when they are plain.** -/
theorem shown_load_iff (rows : List Text) :
    shown (load (joinRows rows)) = (if rows = [] then [[]] else rows) ↔ Plain rows := by
  constructor
  · intro same
    rcases List.eq_nil_or_concat' rows with rfl | ⟨front, last, rfl⟩
    · refine ⟨by rintro row ⟨⟩, fun front none_left => ?_⟩
      exact absurd none_left.symm (List.append_ne_nil_of_right_ne_nil _ (List.cons_ne_nil _ _))
    · have some_row : front ++ [last] ≠ [] := List.append_ne_nil_of_right_ne_nil _ (List.cons_ne_nil last [])
      rw [joinRows_concat, if_neg some_row] at same
      by_cases newline : (unlines front ++ last).getLast? = some '\n'
      · -- The text is not lengthened: a row is missing, or the last is cut short.
        rw [load, if_pos newline] at same
        obtain ⟨free, later⟩ := shown_unlines same
        rcases List.eq_nil_or_concat' last with rfl | ⟨text, c, rfl⟩
        · cases later
        · rw [← List.append_assoc, List.getLast?_concat, Option.some.injEq] at newline
          rw [newline] at later
          obtain ⟨line, rest, first, short, -⟩ := shown_first text []
          rw [first, List.cons.injEq] at later
          rw [later.1, List.length_append, List.length_singleton] at short
          omega
      · rw [load, if_neg newline] at same
        have whole : unlines front ++ last ++ ['\n'] = unlines (front ++ [last]) ++ [] := by
          rw [unlines_append, unlines_cons, unlines_nil, List.append_nil, List.append_assoc]
        rw [whole] at same
        have free := (shown_unlines (same.trans (List.append_nil _).symm)).1
        refine ⟨free, fun front' parts => ?_⟩
        obtain ⟨rfl, none_last⟩ := List.append_inj' parts rfl
        rw [List.cons.injEq] at none_last
        by_contra some_front
        rw [none_last.1, List.append_nil] at newline
        exact newline (unlines_getLast? some_front)
  · intro plain
    rw [load_plain plain]
    split
    · rfl
    · exact shown_free plain.1

/-! ### Marks -/

/-- The marks on the rows of typed entries, from a byte on. -/
def markRows (start : Nat) : List (Text × Option Text) → List Mark
  | [] => []
  | (row, none) :: rows => markRows (start + size row + 1) rows
  | (row, some group) :: rows => ⟨start, start + size row, group⟩ :: markRows (start + size row + 1) rows

theorem size_unlines_concat (front : List Text) (row : Text) :
    size (unlines (front ++ [row])) = size (unlines front) + size row + 1 := by
  rw [unlines_append, unlines_cons, unlines_nil, size_append, size_append, Nat.add_assoc]
  rfl

/-- **The paint is on the rows of typed entries.** -/
theorem paintSeverity_rows {front rows : List Text} {groups : List (Option Text)}
    (free : ∀ row ∈ front ++ rows, BreakFree row) (as_many : groups.length = rows.length) :
    paintSeverity (unlines (front ++ rows)) front.length groups =
      markRows (size (unlines front)) (rows.zip groups) := by
  induction rows generalizing front groups with
  | nil =>
      rw [List.eq_nil_of_length_eq_zero as_many]
      rfl
  | cons row rows ih =>
      obtain ⟨group, groups, rfl⟩ := List.exists_cons_of_length_eq_add_one as_many
      have whole : front ++ row :: rows = front ++ [row] ++ rows := by
        rw [List.append_assoc, List.singleton_append]
      have rest := @ih (front ++ [row]) groups (whole ▸ free) (Nat.succ.inj as_many)
      rw [← whole, List.length_append, List.length_singleton, size_unlines_concat] at rest
      have all := lines_unlines free
      have start : lineStart (unlines (front ++ row :: rows)) front.length = size (unlines front) := by
        have taken : ((front ++ row :: rows).map (· ++ ['\n']) ++ [[]]).take front.length =
            front.map (· ++ ['\n']) := by
          rw [List.map_append, List.append_assoc]
          exact List.take_left' (List.length_map _)
        rw [lineStart_eq, all, taken, unlines]
      have here : (lines (unlines (front ++ row :: rows)))[front.length]? = some (row ++ ['\n']) := by
        rw [all, List.map_append, List.append_assoc, List.getElem?_append_right (by rw [List.length_map]),
          List.length_map, Nat.sub_self]
        rfl
      have inside : ¬ front.length ≥ lineCount (unlines (front ++ row :: rows)) := by
        rw [lineCount, all, List.length_append, List.length_map, List.length_append, List.length_cons,
          List.length_singleton]
        omega
      have plain := free row (List.mem_append_right _ (List.mem_cons_self ..))
      rw [List.zip_cons_cons]
      cases group with
      | none =>
          rw [paintSeverity, markRows]
          exact rest
      | some group =>
          rw [paintSeverity, if_neg inside, markRows, start, here, Option.getD_some,
            stripEol_newline plain.2, rest]

/-! ### Steps -/

/-- The valid entries from an index on. -/
def validFrom (items : List QfEntry) (idx : Nat) : List Nat :=
  (List.range' idx (items.length - idx)).filter fun i => (items[i]?).any (·.valid)

/-- **A step forward goes over the valid entries.** -/
theorem stepForward_eq (items : List QfEntry) (idx remaining : Nat) :
    stepForward ((items.map (·.valid)).drop idx) idx (remaining + 1) = (validFrom items idx)[remaining]? := by
  induction many : items.length - idx generalizing idx remaining with
  | zero =>
      have past : items.length ≤ idx := Nat.le_of_sub_eq_zero many
      rw [List.drop_eq_nil_of_le (by rwa [List.length_map]), validFrom, many]
      rfl
  | succ n ih =>
      have inside : idx < items.length := by omega
      have found : items[idx]? = some items[idx] := List.getElem?_eq_getElem inside
      have ahead : (items.map (·.valid)).drop idx =
          items[idx].valid :: (items.map (·.valid)).drop (idx + 1) := by
        rw [List.drop_eq_getElem_cons (by rwa [List.length_map]), List.getElem_map]
      have rest : validFrom items (idx + 1) =
          (List.range' (idx + 1) n).filter fun i => (items[i]?).any (·.valid) := by
        rw [validFrom]
        congr 2
        omega
      rw [ahead, validFrom, many, List.range'_succ, List.filter_cons, found, Option.any_some, ← rest]
      cases valid : items[idx].valid with
      | true =>
          rw [stepForward]
          cases remaining with
          | zero => rfl
          | succ remaining =>
              rw [if_neg (Nat.succ_ne_succ_iff.2 (Nat.succ_ne_zero remaining))]
              exact ih (idx + 1) remaining (by omega)
      | false =>
          rw [stepForward]
          exact ih (idx + 1) remaining (by omega)

theorem length_rows (s : State) : s.rows.length = s.cur.items.length := by
  have block_length : ∀ (block : TextFn) (items : List QfEntry) (number : Nat) (rows : List Text),
      blockRows block number items = .ok rows → rows.length = items.length := by
    intro block items
    induction items with
    | nil =>
        rintro number rows made
        cases made
        rfl
    | cons entry items ih =>
        intro number rows made
        rw [blockRows] at made
        split at made
        · cases made
        · cases later : blockRows block (number + 1) items with
          | error message =>
              rw [later] at made
              cases made
          | ok rows' =>
              rw [later] at made
              cases made
              rw [List.length_cons, List.length_cons, ih _ _ later]
  rw [State.rows]
  split
  · exact List.length_map _
  · split
    · next made => exact block_length _ _ _ _ made
    · exact List.length_map _

/-- **Runs of quickfix commands.** -/
theorem quickfix_rows (pathOf : Int → Option Text) (commands : List Command) :
    Sound (run pathOf commands).stack ∧
      (shown (run pathOf commands).contents =
          (if (run pathOf commands).rows = [] then [[]] else (run pathOf commands).rows) ↔
        Plain (run pathOf commands).rows) ∧
      (run pathOf commands).rows.length = (run pathOf commands).cur.items.length ∧
      (Plain (run pathOf commands).rows →
        (run pathOf commands).marks = markRows 0
          ((run pathOf commands).rows.zip
            ((run pathOf commands).cur.items.map fun entry => qfTypeHl entry.typ))) ∧
      (∀ row entry, (run pathOf commands).cur.items[row]? = some entry →
        (step pathOf (run pathOf commands) (.jump row)).cur =
            { (run pathOf commands).cur with idx := row + 1 } ∧
          (step pathOf (run pathOf commands) (.jump row)).jumped = some (jumpOf pathOf entry)) ∧
      ∀ count,
        (∀ idx, (validFrom (run pathOf commands).cur.items (run pathOf commands).cur.idx)[max count 1 - 1]? =
            some idx →
          step pathOf (run pathOf commands) (.step true count) =
            step pathOf (run pathOf commands) (.jump idx)) ∧
        ((validFrom (run pathOf commands).cur.items (run pathOf commands).cur.idx)[max count 1 - 1]? = none →
          ∃ echo, step pathOf (run pathOf commands) (.step true count) =
            { run pathOf commands with echo }) := by
  obtain ⟨sound, contents, marks⟩ := run_kept pathOf commands
  generalize run pathOf commands = s at sound contents marks ⊢
  refine ⟨sound, ?_, length_rows s, fun plain => ?_, fun row entry found => jumpToIndex_cur pathOf found,
    fun count => ?_⟩
  · rw [contents]
    exact shown_load_iff s.rows
  · rw [marks, contents, load_plain plain]
    by_cases nothing : s.rows = []
    · have no_items : s.cur.items = [] := by
        refine List.eq_nil_of_length_eq_zero ?_
        rw [← length_rows, nothing]
        rfl
      rw [no_items, nothing]
      rfl
    · rw [if_neg nothing]
      exact @paintSeverity_rows [] _ _ plain.1 ((List.length_map _).trans (length_rows s).symm)
  · have forward : stepForward ((s.cur.items.map (·.valid)).drop s.cur.idx) s.cur.idx (max count 1) =
        (validFrom s.cur.items s.cur.idx)[max count 1 - 1]? := by
      rw [← stepForward_eq, Nat.sub_add_cancel (Nat.le_max_right count 1)]
    by_cases some_valid : (s.cur.items.map (·.valid)).any id = true
    · refine ⟨fun idx found => ?_, fun found => ?_⟩
      · rw [step, exStep, if_pos some_valid]
        simp only [if_true, forward, found]
        rfl
      · rw [step, exStep, if_pos some_valid]
        simp only [if_true, forward, found]
        exact ⟨_, rfl⟩
    · refine ⟨fun idx found => ?_, fun found => ?_⟩
      · have member := List.mem_of_getElem? found
        rw [validFrom, List.mem_filter, Option.any_eq_true] at member
        obtain ⟨-, entry, here, valid⟩ := member
        refine absurd (List.any_eq_true.2 ⟨true, ?_, rfl⟩) some_valid
        exact List.mem_map.2 ⟨entry, List.mem_of_getElem? here, valid⟩
      · rw [step, exStep, if_neg some_valid]
        exact ⟨_, rfl⟩

/-- An entry whose file name holds a newline. -/
def splitEntry : QfEntry :=
  ⟨some ['a', '\n', 'b'], 0, [], 0, 0, 0, 0, false, -1, [], [], 0, true⟩

/-- One entry, shown as two lines. -/
theorem quickfix_rows_split :
    (run (fun _ => none) [.setItems [splitEntry] .new none]).cur.items.length = 1 ∧
      (shown (run (fun _ => none) [.setItems [splitEntry] .new none]).contents).length = 2 := by
  decide

end Bemtvi.Core.Quickfix
