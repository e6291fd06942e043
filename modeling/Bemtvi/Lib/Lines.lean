/-
Module: Bemtvi.Lib.Lines
Purpose: The lines of a text around a place in it: those before the place's row depend on what stands
  before it, those after the row on what stands behind it.  Where rows start, and the texts whose
  lines end at `\n` only.  And spans of rows: rows that change inside one span only, one span behind
  another, and the splice that replaces it.
Trusted boundary: none
Main exports: rows, walk_row, rows_le, lines_take, lines_drop, rows_lt_lines, lineStart_eq,
  pointFrom_line, unlines, lines_unlines, exists_unlines, Spliced, Spliced.trans, Spliced.whole
-/
import Bemtvi.Lib.Text

namespace Bemtvi.Utf8

/-- How many lines end in a text, when `after` follows it. -/
def rows : Text → Option Char → Nat
  | [], _ => 0
  | c :: text, after => (if breaks c (text.head?.or after) then 1 else 0) + rows text after

theorem walk_row (place : Point) (text : Text) (after : Option Char) :
    (walk place text after).1 = place.1 + rows text after := by
  induction text generalizing place with
  | nil => rfl
  | cons c text ih => rw [walk, ih, advance_row, rows, Nat.add_assoc]

theorem rows_singleton (c : Char) (after : Option Char) :
    rows [c] after = if breaks c after then 1 else 0 := rfl

/-- No line less ends in a text, unless a `\n` comes to stand behind its last `\r`. -/
theorem rows_le (front : Text) {after after' : Option Char}
    (apart : front.getLast? = some '\r' → after' = some '\n' → after = some '\n') :
    rows front after ≤ rows front after' := by
  induction front with
  | nil => exact Nat.le_refl _
  | cons c front ih =>
      cases front with
      | nil =>
          have kept : breaks c after = true → breaks c after' = true := by
            simp only [breaks, Bool.or_eq_true, Bool.and_eq_true, beq_iff_eq, bne_iff_ne, ne_eq]
            rintro (newline | ⟨carriage, open_⟩)
            · exact Or.inl newline
            · refine Or.inr ⟨carriage, fun joins => open_ (apart ?_ joins)⟩
              rw [carriage]
              rfl
          rw [rows_singleton, rows_singleton]
          by_cases ends : breaks c after = true
          · rw [if_pos ends, if_pos (kept ends)]
          · rw [if_neg ends]
            exact Nat.zero_le _
      | cons c' front =>
          rw [List.getLast?_cons_cons] at apart
          rw [rows, rows]
          exact Nat.add_le_add_left (ih apart) _

theorem rows_le_append (front : Text) {new : Text} (some_text : new ≠ [])
    (after after' : Option Char) : rows front after ≤ rows (front ++ new) after' := by
  have onwards := walk_row_le (0, 0) front some_text after after'
  rw [walk_row, walk_row] at onwards
  simpa using onwards

theorem lines_ne_nil (text : Text) : lines text ≠ [] := by
  cases text with
  | nil => exact List.cons_ne_nil _ _
  | cons c text =>
      rw [lines]
      split
      · exact List.cons_ne_nil _ _
      · split <;> exact List.cons_ne_nil _ _

theorem head?_append_or (front back : Text) : (front ++ back).head? = front.head?.or back.head? := by
  cases front <;> rfl

variable {text line : Text} {row : Nat}

theorem lines_cons_break {c : Char} (ends : breaks c text.head? = true) :
    lines (c :: text) = [c] :: lines text := by
  rw [lines, if_pos ends]

/-- A character that ends no line stands at the head of the first. -/
theorem lines_cons_stay {c : Char} (stays : breaks c text.head? = false) :
    ∃ line rest, lines text = line :: rest ∧ lines (c :: text) = (c :: line) :: rest := by
  obtain ⟨line, rest, some_lines⟩ := List.exists_cons_of_ne_nil (lines_ne_nil text)
  refine ⟨line, rest, some_lines, ?_⟩
  rw [lines, stays, some_lines]
  rfl

/-- The lines behind the row of a place are those behind the first break after it. -/
theorem lines_drop (front back : Text) :
    (lines (front ++ back)).drop (rows front back.head? + 1) = (lines back).drop 1 := by
  induction front with
  | nil => rw [List.nil_append, rows]
  | cons c front ih =>
      rw [List.cons_append, rows, ← head?_append_or]
      by_cases ends : breaks c (front ++ back).head? = true
      · rw [lines_cons_break ends, if_pos ends, ← ih]
        rw [Nat.add_comm 1, List.drop_succ_cons]
      · rw [Bool.not_eq_true] at ends
        obtain ⟨line, rest, first, whole⟩ := lines_cons_stay ends
        rw [whole, ends, ← ih, first]
        simp

/-- The lines before the row of a place are the same whatever comes behind it, unless a `\n` comes to
stand behind a `\r` that ended a line. -/
theorem lines_take (front : Text) {back back' : Text}
    (apart : front.getLast? = some '\r' → back'.head? = some '\n' → back.head? = some '\n') :
    (lines (front ++ back)).take (rows front back.head?) =
      (lines (front ++ back')).take (rows front back.head?) := by
  induction front with
  | nil => rfl
  | cons c front ih =>
      rw [List.cons_append, List.cons_append, rows, ← head?_append_or]
      cases front with
      | nil =>
          simp only [List.nil_append, rows, Nat.add_zero]
          by_cases ends : breaks c back.head? = true
          · have ends' : breaks c back'.head? = true := by
              simp only [breaks, Bool.or_eq_true, Bool.and_eq_true, beq_iff_eq, bne_iff_ne,
                ne_eq] at ends ⊢
              rcases ends with newline | ⟨carriage, open_⟩
              · exact Or.inl newline
              · refine Or.inr ⟨carriage, fun joins => open_ (apart ?_ joins)⟩
                rw [carriage]
                rfl
            rw [lines_cons_break ends, lines_cons_break ends', if_pos ends]
            rfl
          · rw [if_neg ends]
            rfl
      | cons c' front =>
          have rest := ih (by
            rw [List.getLast?_cons_cons] at apart
            exact apart)
          by_cases ends : breaks c (c' :: front ++ back).head? = true
          · have ends' : breaks c (c' :: front ++ back').head? = true := ends
            rw [lines_cons_break ends, lines_cons_break ends', if_pos ends, Nat.add_comm 1,
              List.take_succ_cons, List.take_succ_cons, rest]
          · rw [Bool.not_eq_true] at ends
            obtain ⟨line, more, first, whole⟩ := lines_cons_stay ends
            have ends' : breaks c (c' :: front ++ back').head? = false := ends
            obtain ⟨line', more', first', whole'⟩ := lines_cons_stay ends'
            rw [whole, whole', ends]
            rw [first, first'] at rest
            simp only [Bool.false_eq_true, if_false, Nat.zero_add]
            cases row : rows (c' :: front) back.head? with
            | zero => rfl
            | succ row =>
                rw [row, List.take_succ_cons, List.take_succ_cons, List.cons.injEq] at rest
                rw [List.take_succ_cons, List.take_succ_cons, rest.1, rest.2]

/-- A place lies on a line of its text. -/
theorem rows_lt_lines (front back : Text) :
    rows front back.head? < (lines (front ++ back)).length := by
  induction front with
  | nil => exact List.length_pos_of_ne_nil (lines_ne_nil back)
  | cons c front ih =>
      rw [List.cons_append, rows, ← head?_append_or]
      by_cases ends : breaks c (front ++ back).head? = true
      · rw [lines_cons_break ends, if_pos ends, List.length_cons]
        omega
      · rw [Bool.not_eq_true] at ends
        obtain ⟨line, rest, first, whole⟩ := lines_cons_stay ends
        rw [first, List.length_cons] at ih
        rw [whole, ends, List.length_cons]
        simpa using ih

/-! ### Where rows start -/

/-- The lines are the text, cut up. -/
theorem lines_flatten (text : Text) : (lines text).flatten = text := by
  induction text with
  | nil => rfl
  | cons c text ih =>
      by_cases ends : breaks c text.head? = true
      · rw [lines_cons_break ends, List.flatten_cons, ih, List.singleton_append]
      · rw [Bool.not_eq_true] at ends
        obtain ⟨line, rest, first, whole⟩ := lines_cons_stay ends
        rw [first] at ih
        rw [whole, List.flatten_cons, List.cons_append, ← List.flatten_cons, ih]

/-- A row starts behind the rows before it. -/
theorem lineStart_eq (text : Text) (row : Nat) :
    lineStart text row = size ((lines text).take row).flatten := by
  induction text generalizing row with
  | nil =>
      cases row with
      | zero => rfl
      | succ row => simp [lineStart, lines]
  | cons c text ih =>
      cases row with
      | zero => rfl
      | succ row =>
          rw [lineStart, ih]
          by_cases ends : breaks c text.head? = true
          · rw [lines_cons_break ends, if_pos ends, List.take_succ_cons, List.flatten_cons,
              List.singleton_append, size_cons]
          · rw [Bool.not_eq_true] at ends
            obtain ⟨line, rest, first, whole⟩ := lines_cons_stay ends
            rw [whole, first, ends, if_neg Bool.false_ne_true, List.take_succ_cons,
              List.take_succ_cons, List.flatten_cons, List.flatten_cons, List.cons_append, size_cons]

/-- The text in front of a row, and from it on. -/
theorem take_drop_rows (text : Text) (row : Nat) :
    text = ((lines text).take row).flatten ++ ((lines text).drop row).flatten := by
  rw [← List.flatten_append, List.take_append_drop, lines_flatten]

theorem lineStart_le (text : Text) (row : Nat) : lineStart text row ≤ size text := by
  rw [lineStart_eq]
  conv_rhs => rw [take_drop_rows text row, size_append]
  exact Nat.le_add_right _ _

theorem lineStart_mono (text : Text) {row' : Nat} (below : row ≤ row') :
    lineStart text row ≤ lineStart text row' := by
  rw [lineStart_eq, lineStart_eq]
  obtain ⟨more, rfl⟩ := Nat.exists_eq_add_of_le below
  rw [List.take_add, List.flatten_append, size_append]
  exact Nat.le_add_right _ _

/-! ### Places inside a line -/

/-- Every line but the last has a character. -/
theorem line_ne_nil (here : (lines text)[row]? = some line)
    (inner : row + 1 < (lines text).length) : line ≠ [] := by
  induction text generalizing row line with
  | nil => simp [lines] at inner
  | cons c text ih =>
      cases ends : breaks c text.head? with
      | true =>
          rw [lines_cons_break ends] at here inner
          cases row with
          | zero =>
              obtain rfl : [c] = line := by simpa using here
              exact List.cons_ne_nil _ _
          | succ row => exact ih (by simpa using here) (by simpa using inner)
      | false =>
          obtain ⟨first, rest, whole, whole'⟩ := lines_cons_stay ends
          rw [whole'] at here inner
          cases row with
          | zero =>
              obtain rfl : c :: first = line := by simpa using here
              exact List.cons_ne_nil _ _
          | succ row =>
              have there : (lines text)[row + 1]? = some line := by
                rw [whole]
                simpa using here
              apply ih there
              rw [whole]
              simpa using inner

/-- No `\n` stands inside a line. -/
theorem newline_last (member : line ∈ lines text) : '\n' ∉ line.dropLast := by
  induction text generalizing line with
  | nil =>
      obtain rfl : line = [] := by simpa [lines] using member
      exact List.not_mem_nil
  | cons c text ih =>
      cases ends : breaks c text.head? with
      | true =>
          rw [lines_cons_break ends] at member
          rcases List.mem_cons.1 member with rfl | later
          · exact List.not_mem_nil
          · exact ih later
      | false =>
          obtain ⟨first, rest, whole, whole'⟩ := lines_cons_stay ends
          rw [whole'] at member
          rcases List.mem_cons.1 member with rfl | later
          · have inner : '\n' ∉ first.dropLast := ih (by rw [whole]; exact List.mem_cons_self)
            cases first with
            | nil => exact List.not_mem_nil
            | cons c' first =>
                have other : c ≠ '\n' := by
                  rintro rfl
                  cases ends
                rw [List.dropLast_cons_cons, List.mem_cons, not_or]
                exact ⟨other.symm, inner⟩
          · exact ih (by rw [whole]; exact List.mem_cons_of_mem _ later)

/-- A place inside a line is read back from its offset. -/
theorem pointFrom_line {front back : Text} (place : Point)
    (here : (lines text)[row]? = some (front ++ back)) (inside : back ≠ [] ∨ front = []) :
    pointFrom place text (lineStart text row + size front) =
      (place.1 + row, if row = 0 then place.2 + size front else size front) := by
  induction text generalizing place row front with
  | nil =>
      cases row with
      | zero =>
          obtain ⟨rfl, rfl⟩ : front = [] ∧ back = [] := by simpa [lines, eq_comm] using here
          rfl
      | succ row => simp [lines] at here
  | cons c text ih =>
      cases ends : breaks c text.head? with
      | true =>
          rw [lines_cons_break ends] at here
          cases row with
          | zero =>
              have nothing : front = [] := by
                rcases inside with some_back | nothing
                · cases front with
                  | nil => rfl
                  | cons c' front =>
                      have same : [c] = c' :: (front ++ back) := by simpa using here
                      rw [(List.append_eq_nil_iff.1 (List.cons.inj same).2.symm).2] at some_back
                      exact absurd rfl some_back
                · exact nothing
              subst nothing
              simp [lineStart, pointFrom, c.utf8Size_pos]
          | succ row =>
              have onwards := ih (advance place c text.head?) (by simpa using here) inside
              have past : ¬ c.utf8Size + lineStart text row + size front < c.utf8Size := by omega
              have rest : c.utf8Size + lineStart text row + size front - c.utf8Size =
                  lineStart text row + size front := by omega
              rw [lineStart, if_pos ends, pointFrom, if_neg past, rest, onwards, advance,
                if_pos ends]
              simp only [Nat.succ_ne_zero, if_false, Nat.zero_add, ite_self, Prod.mk.injEq, and_true]
              omega
      | false =>
          obtain ⟨first, rest, whole, whole'⟩ := lines_cons_stay ends
          rw [whole'] at here
          have stays : advance place c text.head? = (place.1, place.2 + c.utf8Size) := by
            rw [advance, ends]
            rfl
          cases row with
          | zero =>
              cases front with
              | nil => simp [lineStart, pointFrom, c.utf8Size_pos]
              | cons c' front =>
                  have same : c :: first = c' :: (front ++ back) := by simpa using here
                  obtain ⟨rfl, first_eq⟩ := List.cons.inj same
                  have some_back : back ≠ [] := inside.resolve_right (List.cons_ne_nil _ _)
                  have there : (lines text)[0]? = some (front ++ back) := by
                    rw [whole, first_eq]
                    rfl
                  have onwards := ih (place.1, place.2 + c.utf8Size) there (Or.inl some_back)
                  have past : ¬ 0 + size (c :: front) < c.utf8Size := by
                    rw [size_cons]
                    omega
                  have rest : 0 + size (c :: front) - c.utf8Size = 0 + size front := by
                    rw [size_cons]
                    omega
                  have start : ∀ text : Text, lineStart text 0 = 0 := by
                    intro text
                    cases text <;> rfl
                  rw [start] at onwards ⊢
                  rw [pointFrom, if_neg past, rest, stays, onwards]
                  simp [Nat.add_assoc]
          | succ row =>
              have there : (lines text)[row + 1]? = some (front ++ back) := by
                rw [whole]
                simpa using here
              have onwards := ih (place.1, place.2 + c.utf8Size) there inside
              have past : ¬ c.utf8Size + lineStart text (row + 1) + size front < c.utf8Size := by
                omega
              have rest : c.utf8Size + lineStart text (row + 1) + size front - c.utf8Size =
                  lineStart text (row + 1) + size front := by omega
              rw [lineStart, ends]
              simp only [Bool.false_eq_true, if_false]
              rw [pointFrom, if_neg past, rest, stays, onwards]
              simp

/-! ### Texts whose lines end at `\n` only -/

/-- The lines, each with its newline behind it. -/
def unlines (ls : List Text) : Text := (ls.map (· ++ ['\n'])).flatten

/-- No line ends inside. -/
def BreakFree (line : Text) : Prop := '\n' ∉ line ∧ '\r' ∉ line

@[simp] theorem unlines_nil : unlines [] = [] := rfl

@[simp] theorem unlines_cons (line : Text) (ls : List Text) :
    unlines (line :: ls) = line ++ '\n' :: unlines ls := by
  simp [unlines]

@[simp] theorem unlines_append (front back : List Text) :
    unlines (front ++ back) = unlines front ++ unlines back := by
  simp [unlines]

/-- Every text of lines but the empty one ends in a newline. -/
theorem unlines_getLast? {ls : List Text} (some_lines : ls ≠ []) :
    (unlines ls).getLast? = some '\n' := by
  obtain ⟨front, last, rfl⟩ := (List.eq_nil_or_concat' ls).resolve_left some_lines
  simp

theorem lines_line (free : BreakFree line) (text : Text) :
    lines (line ++ '\n' :: text) = (line ++ ['\n']) :: lines text := by
  induction line with
  | nil =>
      have ends : breaks '\n' text.head? = true := rfl
      exact lines_cons_break ends
  | cons c line ih =>
      obtain ⟨newline, carriage⟩ := free
      rw [List.mem_cons, not_or] at newline carriage
      have stays : breaks c (line ++ '\n' :: text).head? = false := by
        simp [breaks, Ne.symm newline.1, Ne.symm carriage.1]
      have rest := ih ⟨newline.2, carriage.2⟩
      rw [List.cons_append, lines, stays, rest]
      rfl

/-- A text of lines reads back as them, and the nothing behind the last newline. -/
theorem lines_unlines {ls : List Text} (free : ∀ line ∈ ls, BreakFree line) :
    lines (unlines ls) = ls.map (· ++ ['\n']) ++ [[]] := by
  induction ls with
  | nil => rfl
  | cons line ls ih =>
      rw [List.forall_mem_cons] at free
      rw [unlines_cons, lines_line free.1, ih free.2, List.map_cons, List.cons_append]

/-- Without a `\r`, a text that ends in a newline is a text of lines. -/
theorem exists_unlines (no_carriage : '\r' ∉ text) (ends : text.getLast? = some '\n') :
    ∃ ls, ls ≠ [] ∧ (∀ line ∈ ls, BreakFree line) ∧ text = unlines ls := by
  induction text with
  | nil => cases ends
  | cons c text ih =>
      rw [List.mem_cons, not_or] at no_carriage
      cases text with
      | nil =>
          rw [List.getLast?_singleton, Option.some.injEq] at ends
          subst ends
          exact ⟨[[]], List.cons_ne_nil _ _, by simp [BreakFree], rfl⟩
      | cons c' text =>
          rw [List.getLast?_cons_cons] at ends
          obtain ⟨ls, some_lines, free, whole⟩ := ih no_carriage.2 ends
          obtain ⟨line, ls, rfl⟩ := List.exists_cons_of_ne_nil some_lines
          rw [List.forall_mem_cons] at free
          by_cases newline : c = '\n'
          · subst newline
            refine ⟨[] :: line :: ls, List.cons_ne_nil _ _, ?_, by rw [whole]; rfl⟩
            simpa [BreakFree] using free
          · refine ⟨(c :: line) :: ls, List.cons_ne_nil _ _, ?_, by rw [whole]; simp⟩
            rw [List.forall_mem_cons]
            refine ⟨⟨?_, ?_⟩, free.2⟩
            · simpa [Ne.symm newline] using free.1.1
            · simpa [no_carriage.1] using free.1.2

/-! ### Spans -/

/-- `old` becomes `new` by changing the rows `start` to `oldEnd`, which become `start` to
`newEnd`. -/
structure Spliced {α : Type*} (old new : List α) (start oldEnd newEnd : Nat) : Prop where
  before : new.take start = old.take start
  behind : new.drop (newEnd + 1) = old.drop (oldEnd + 1)
  start_old : start ≤ oldEnd
  start_new : start ≤ newEnd
  old_row : oldEnd < old.length
  new_row : newEnd < new.length

namespace Spliced

variable {α : Type*} {old middle new : List α} {start oldEnd newEnd : Nat}

/-- Behind the span there are as many rows as before. -/
theorem lengths (spliced : Spliced old new start oldEnd newEnd) :
    new.length + oldEnd = old.length + newEnd := by
  have behind := congrArg List.length spliced.behind
  have old_row := spliced.old_row
  have new_row := spliced.new_row
  rw [List.length_drop, List.length_drop] at behind
  omega

/-- A span that starts no earlier than another one ended: together they are one. -/
theorem trans {start' oldEnd' newEnd' : Nat} (first : Spliced old middle start oldEnd newEnd)
    (second : Spliced middle new start' oldEnd' newEnd') (forward : newEnd ≤ start') :
    Spliced old new start (oldEnd + (oldEnd' - newEnd)) newEnd' := by
  have length := first.lengths
  have start_new := first.start_new
  have start_old := first.start_old
  have start_old' := second.start_old
  have start_new' := second.start_new
  have old_row' := second.old_row
  constructor
  · have within : min start start' = start := Nat.min_eq_left (by omega)
    calc new.take start = (new.take start').take start := by rw [List.take_take, within]
      _ = (middle.take start').take start := by rw [second.before]
      _ = old.take start := by rw [List.take_take, within, first.before]
  · have further : oldEnd' + 1 = newEnd + 1 + (oldEnd' - newEnd) := by omega
    have further' : oldEnd + (oldEnd' - newEnd) + 1 = oldEnd + 1 + (oldEnd' - newEnd) := by omega
    rw [second.behind, further, ← List.drop_drop, first.behind, List.drop_drop, further']
  · omega
  · omega
  · omega
  · exact second.new_row

/-- Replacing the span's old rows by its new ones gives all the new rows. -/
theorem whole (spliced : Spliced old new start oldEnd newEnd) :
    old.take start ++ (new.drop start).take (newEnd + 1 - start) ++ old.drop (oldEnd + 1) = new := by
  have further : newEnd + 1 = start + (newEnd + 1 - start) := by
    have start_new := spliced.start_new
    omega
  rw [← spliced.before, ← spliced.behind, List.append_assoc]
  conv_lhs => rw [further, ← List.drop_drop]
  rw [Nat.add_sub_cancel_left, List.take_append_drop, List.take_append_drop]

/-- The same without the last row, where an old span that ends in it ends before it. -/
theorem whole_dropLast (spliced : Spliced old new start oldEnd newEnd) :
    old.dropLast.take start ++ (new.dropLast.drop start).take (newEnd + 1 - start) ++
      old.dropLast.drop (oldEnd + 1) = new.dropLast := by
  have length := spliced.lengths
  have start_old := spliced.start_old
  have start_new := spliced.start_new
  have old_row := spliced.old_row
  have front : old.dropLast.take start = new.dropLast.take start := by
    rw [List.dropLast_eq_take, List.dropLast_eq_take, List.take_take, List.take_take,
      Nat.min_eq_left (by omega), Nat.min_eq_left (by omega), spliced.before]
  have back : old.dropLast.drop (oldEnd + 1) = new.dropLast.drop (newEnd + 1) := by
    rw [← List.dropLast_drop_eq_drop_dropLast, ← List.dropLast_drop_eq_drop_dropLast,
      spliced.behind]
  have further : newEnd + 1 = start + (newEnd + 1 - start) := by omega
  rw [front, back, List.append_assoc]
  conv_lhs => rw [further, ← List.drop_drop]
  rw [Nat.add_sub_cancel_left, List.take_append_drop, List.take_append_drop]

theorem getElem?_before (spliced : Spliced old new start oldEnd newEnd) {row : Nat}
    (above : row < start) : new[row]? = old[row]? := by
  rw [← List.getElem?_take_of_lt above, spliced.before, List.getElem?_take_of_lt above]

theorem getElem?_behind (spliced : Spliced old new start oldEnd newEnd) {row : Nat}
    (below : newEnd < row) : new[row]? = old[row - newEnd + oldEnd]? := by
  have further : row = newEnd + 1 + (row - (newEnd + 1)) := by omega
  have further' : row - newEnd + oldEnd = oldEnd + 1 + (row - (newEnd + 1)) := by omega
  rw [further', ← List.getElem?_drop, ← spliced.behind, List.getElem?_drop, ← further]

end Spliced

end Bemtvi.Utf8
