/-
Module: Bemtvi.Core.ApiEdits
Purpose: What a plugin's text edits can do to the rope: whatever rows and columns it passes, an edit by
  lines never panics, and one by columns panics just where a column cuts a character.
Trusted boundary: none
Main exports: ApiEdit, ApiEdit.outcome, ApiEdit.Safe, ApiEdit.OnCharacters, api_edit_safe_iff
-/
import Bemtvi.Core.LineEditsLaws

namespace Bemtvi.Core

open Utf8

/-- A text edit a plugin asks for. -/
inductive ApiEdit where
  | setLines (id start stop : Nat) (replacement : List Text)
  | setText (id startRow startCol endRow endCol : Nat) (replacement : List Text)

/-- The text in front of a row and column: past the end it is the whole, past a line's end the line,
inside a character what comes before that. -/
def frontAt (text : Text) (row col : Nat) : Text :=
  let rows := lines text
  let count := rows.length - 1
  (rows.take (min row count)).flatten ++
    if row < count then within (stripEol (rows[row]?.getD [])) col else []

namespace ApiEdit

variable {E : Type} [ExtmarkStore E]

/-- The buffer an edit is for. -/
def target : ApiEdit → Nat
  | .setLines id _ _ _ => id
  | .setText id _ _ _ _ _ => id

/-- The edit, as the code makes it. -/
def run (session : OpenBuffers E) : ApiEdit → Option (Except String Unit × OpenBuffers E)
  | .setLines id start stop replacement => session.apiSetLines id start stop replacement
  | .setText id startRow startCol endRow endCol replacement =>
      session.apiSetText id startRow startCol endRow endCol replacement

/-- The text with the addressed span replaced. -/
def outcome (text : Text) : ApiEdit → Text
  | .setLines _ start stop replacement =>
      let rows := lines text
      let count := rows.length - 1
      (rows.take (min start count)).flatten ++ unlines replacement ++
        if count ≤ max start stop then [] else (rows.drop (max start stop)).flatten
  | .setText _ startRow startCol endRow endCol replacement =>
      frontAt text startRow startCol ++ OpenBuffers.joinLines replacement ++
        text.drop (frontAt text endRow endCol).length

/-- **The edit does not panic; refused, it changes nothing; made, it replaces the addressed span and
puts the last newline back, in its own buffer only.** -/
def Safe (session : OpenBuffers E) (edit : ApiEdit) : Prop :=
  ∃ verdict session', edit.run session = some (verdict, session') ∧
    (∀ message, verdict = .error message → session' = session) ∧
    (verdict = .ok () → ∃ buffer after, session.bufferOf edit.target = some buffer ∧
      session'.bufferOf edit.target = some after ∧
      after.text = ensureTrailingNewline (edit.outcome buffer.text) ∧
      ∀ other, other ≠ edit.target → session'.bufferOf other = session.bufferOf other)

/-- The two places of an edit by columns are where characters start, or nothing is replaced by
nothing: for an edit that is not refused. -/
def OnCharacters (session : OpenBuffers E) : ApiEdit → Prop
  | .setLines _ _ _ _ => True
  | .setText id startRow startCol endRow endCol replacement =>
      ∀ buffer, session.bufferOf id = some buffer → session.locked id = false →
        session.quickfix id = false →
        let start := buffer.clampedByteAt startRow startCol
        let stop := buffer.clampedByteAt endRow endCol
        start ≤ stop →
        ((cut buffer.text start).isSome ∧ (cut buffer.text stop).isSome) ∨
          (start = stop ∧ OpenBuffers.joinLines replacement = [])

variable {session : OpenBuffers E} {buffer : Buffer E}

/-! ### Places -/

theorem stripEol_prefix (line : Text) : stripEol line <+: line := by
  unfold stripEol
  split
  · split
    · exact (List.dropLast_prefix _).trans (List.dropLast_prefix _)
    · exact List.dropLast_prefix _
  · exact List.prefix_rfl

theorem within_min (text : Text) (bytes : Nat) :
    within text (min bytes (size text)) = within text bytes := by
  rcases Nat.le_total bytes (size text) with inside | beyond
  · rw [Nat.min_eq_left inside]
  · rw [Nat.min_eq_right beyond, within_of_size_le (Nat.le_refl _), within_of_size_le beyond]

omit [ExtmarkStore E] in
/-- **The front of a place is what of the text lies within its offset.** -/
theorem frontAt_eq (buffer : Buffer E) (row col : Nat) :
    frontAt buffer.text row col = within buffer.text (buffer.clampedByteAt row col) := by
  have front := take_drop_rows buffer.text
  by_cases on_line : row < buffer.lineCount
  · have here : row < (lines buffer.text).length := by
      unfold Buffer.lineCount at on_line
      omega
    obtain ⟨eol, line⟩ := stripEol_prefix (lines buffer.text)[row]
    have content : (lines buffer.text)[row]?.getD [] = (lines buffer.text)[row] := by
      rw [List.getElem?_eq_getElem here, Option.getD_some]
    have offset : buffer.clampedByteAt row col =
        size ((lines buffer.text).take row).flatten +
          min col (size (stripEol (lines buffer.text)[row])) := by
      simp only [Buffer.clampedByteAt, Nat.min_eq_left (Nat.le_of_lt on_line), if_pos on_line,
        Buffer.lineLen, content, Buffer.lineStart, lineStart_eq]
    have whole : frontAt buffer.text row col =
        ((lines buffer.text).take row).flatten ++
          within (stripEol (lines buffer.text)[row]) col := by
      unfold Buffer.lineCount at on_line
      simp only [frontAt, Nat.min_eq_left (Nat.le_of_lt on_line), if_pos on_line, content]
    have behind : ((lines buffer.text).drop row).flatten =
        stripEol (lines buffer.text)[row] ++
          (eol ++ ((lines buffer.text).drop (row + 1)).flatten) := by
      rw [List.drop_eq_getElem_cons here, List.flatten_cons, ← List.append_assoc, line]
    calc frontAt buffer.text row col
        = within (((lines buffer.text).take row).flatten ++ ((lines buffer.text).drop row).flatten)
            (size ((lines buffer.text).take row).flatten +
              min col (size (stripEol (lines buffer.text)[row]))) := by
          rw [whole, within_append, behind, within_append_of_le (Nat.min_le_right _ _), within_min]
      _ = within buffer.text (buffer.clampedByteAt row col) := by rw [← front, offset]
  · have offset : buffer.clampedByteAt row col =
        size ((lines buffer.text).take buffer.lineCount).flatten := by
      simp only [Buffer.clampedByteAt, Nat.min_eq_right (Nat.not_lt.1 on_line),
        if_neg (Nat.lt_irrefl _), Nat.min_zero, Nat.add_zero, Buffer.lineStart, lineStart_eq]
    have whole : frontAt buffer.text row col =
        ((lines buffer.text).take buffer.lineCount).flatten := by
      unfold Buffer.lineCount at on_line ⊢
      simp only [frontAt, Nat.min_eq_right (Nat.not_lt.1 on_line), if_neg on_line, List.append_nil]
    have nothing := within_append ((lines buffer.text).take buffer.lineCount).flatten
      ((lines buffer.text).drop buffer.lineCount).flatten 0
    rw [Nat.add_zero, within_zero, List.append_nil, ← front] at nothing
    rw [offset, whole, nothing]

/-! ### An edit between two offsets -/

omit [ExtmarkStore E] in
/-- The text around two places where characters start. -/
theorem cut_cut {text front rest front' rest' : Text} {start stop : Nat} (ordered : start ≤ stop)
    (first : cut text start = some (front, rest)) (second : cut text stop = some (front', rest')) :
    ∃ old, front' = front ++ old ∧ text = front ++ old ++ rest' ∧ size front = start ∧
      size front + size old = stop := by
  obtain ⟨same, rfl⟩ := cut_eq_some.1 first
  obtain ⟨same', rfl⟩ := cut_eq_some.1 second
  have fits : front = within front' (size front) := by
    rw [← within_append_of_le ordered rest', ← same', within_of_cut first]
  obtain ⟨old, whole⟩ := within_front front' (size front)
  rw [← fits] at whole
  refine ⟨old, whole.symm, ?_, rfl, ?_⟩
  · rw [whole, ← same']
  · rw [← size_append, whole]

/-- **An API edit between two offsets goes through only where characters start, or where it does
nothing.** -/
theorem spliceChunk_isSome {start stop : Nat} {chunk : Text} (ordered : start ≤ stop)
    (made : (buffer.spliceChunk start stop chunk).isSome) :
    ((cut buffer.text start).isSome ∧ (cut buffer.text stop).isSome) ∨
      (start = stop ∧ chunk = []) := by
  obtain ⟨after, made⟩ := Option.isSome_iff_exists.1 made
  obtain ⟨removed, remove_ok, made⟩ := Option.bind_eq_some_iff.1 made
  obtain ⟨inserted, insert_ok, -⟩ := Option.bind_eq_some_iff.1 made
  have named : ∀ {front back : Text}, buffer.text = front ++ back →
      (cut buffer.text (size front)).isSome := by
    intro front back whole
    rw [whole, cut_append]
    rfl
  rcases Nat.eq_or_lt_of_le ordered with rfl | apart
  · by_cases nothing : chunk = []
    · exact Or.inr ⟨rfl, nothing⟩
    · refine Or.inl ?_
      rw [Buffer.remove, if_pos (Nat.le_refl _), Option.some.injEq] at remove_ok
      subst remove_ok
      rw [List.isEmpty_eq_false_iff.2 nothing, if_neg Bool.false_ne_true, Buffer.insert,
        List.isEmpty_eq_false_iff.2 nothing, if_neg Bool.false_ne_true] at insert_ok
      simp only at insert_ok
      split at insert_ok
      · cases insert_ok
      · next text spliced =>
          obtain ⟨front, old, back, whole, rfl, -, -⟩ := splice_eq_some.1 spliced
          rw [List.append_assoc] at whole
          exact ⟨named whole, named whole⟩
  · refine Or.inl ?_
    rw [Buffer.remove, if_neg (by omega)] at remove_ok
    simp only at remove_ok
    split at remove_ok
    · cases remove_ok
    · next text spliced =>
        obtain ⟨front, old, back, whole, rfl, rfl, -⟩ := splice_eq_some.1 spliced
        constructor
        · rw [List.append_assoc] at whole
          exact named whole
        · rw [← size_append]
          exact named whole

/-! ### Refused or made -/

/-- An API edit is refused and changes nothing, or its buffer is open and may be changed. -/
theorem apiEdit_cases (session : OpenBuffers E) (id : Nat)
    (span : Buffer E → Except String (Nat × Nat)) (chunk : Text) :
    (∃ message, session.apiEdit id span chunk = some (.error message, session)) ∨
      ∃ buffer start stop, session.bufferOf id = some buffer ∧ session.locked id = false ∧
        session.quickfix id = false ∧ span buffer = .ok (start, stop) := by
  unfold OpenBuffers.apiEdit
  cases here : session.bufferOf id with
  | none => exact Or.inl ⟨_, rfl⟩
  | some buffer =>
      cases locked : session.locked id with
      | true => exact Or.inl ⟨_, rfl⟩
      | false =>
          cases found : span buffer with
          | error message => exact Or.inl ⟨message, by simp [found]⟩
          | ok bytes =>
              cases shown : session.quickfix id with
              | true => exact Or.inl ⟨OpenBuffers.notModifiable, by simp [found]⟩
              | false => exact Or.inr ⟨buffer, bytes.1, bytes.2, rfl, rfl, rfl, found⟩

theorem safe_of_refused {edit : ApiEdit} {message : String}
    (refused : edit.run session = some (.error message, session)) : edit.Safe session :=
  ⟨_, _, refused, fun _ _ => rfl, fun made => by cases made⟩

theorem safe_of_made {edit : ApiEdit} {after : Buffer E}
    (here : session.bufferOf edit.target = some buffer)
    (made : edit.run session =
      some (.ok (), (session.pushUndoFor edit.target).setBuffer edit.target after))
    (text : after.text = ensureTrailingNewline (edit.outcome buffer.text)) : edit.Safe session := by
  refine ⟨_, _, made, fun message refused => (by cases refused), fun _ => ?_⟩
  refine ⟨buffer, after, here, ?_, text, fun other elsewhere => ?_⟩
  · rw [← OpenBuffers.bufferOf_pushUndoFor session edit.target] at here
    exact OpenBuffers.bufferOf_setBuffer here after
  · rw [OpenBuffers.bufferOf_setBuffer_of_ne elsewhere, OpenBuffers.bufferOf_pushUndoFor]

/-! ### By lines -/

/-- The text around the rows from one to another. -/
theorem around_rows (text : Text) {first stop : Nat} (ordered : first ≤ stop) :
    text = ((lines text).take first).flatten ++ (((lines text).take stop).drop first).flatten ++
      ((lines text).drop stop).flatten := by
  have front : (lines text).take first ++ ((lines text).take stop).drop first =
      (lines text).take stop := by
    conv_rhs => rw [← List.take_append_drop first ((lines text).take stop), List.take_take,
      Nat.min_eq_left ordered]
  rw [← List.flatten_append, front, ← List.flatten_append, List.take_append_drop, lines_flatten]

/-- **An edit by lines never panics.** -/
theorem setLines_safe (session : OpenBuffers E) (id start stop : Nat) (replacement : List Text) :
    (ApiEdit.setLines id start stop replacement).Safe session := by
  rcases apiEdit_cases session id (fun buffer => .ok (buffer.linesSpan start stop))
    (unlines replacement) with ⟨message, refused⟩ | ⟨buffer, -, -, here, unlocked, ordinary, -⟩
  · have made : (ApiEdit.setLines id start stop replacement).run session =
        some (.error message, session) := by
      rw [run, OpenBuffers.apiSetLines, setLines_chunk, refused]
    exact safe_of_refused made
  · -- The clamped rows, and what of the text lies between them.
    have ordered : min start buffer.lineCount ≤ min (max start stop) buffer.lineCount := by omega
    have clamped : max (min start buffer.lineCount) (min stop buffer.lineCount) =
        min (max start stop) buffer.lineCount := by omega
    obtain ⟨old, back, text, bytes, behind⟩ : ∃ old back,
        buffer.text = ((lines buffer.text).take (min start buffer.lineCount)).flatten ++ old ++
          back ∧
        buffer.linesSpan start stop =
          (size ((lines buffer.text).take (min start buffer.lineCount)).flatten,
            size ((lines buffer.text).take (min start buffer.lineCount)).flatten + size old) ∧
        back = if buffer.lineCount ≤ max start stop then []
          else ((lines buffer.text).drop (max start stop)).flatten := by
      by_cases to_end : buffer.lineCount ≤ max start stop
      · refine ⟨((lines buffer.text).drop (min start buffer.lineCount)).flatten, [], ?_, ?_,
          (if_pos to_end).symm⟩
        · rw [List.append_nil]
          exact take_drop_rows _ _
        · have last : min (max start stop) buffer.lineCount = buffer.lineCount :=
            Nat.min_eq_right to_end
          rw [← size_append, ← take_drop_rows]
          simp only [Buffer.linesSpan, clamped, last, ge_iff_le, Nat.le_refl, if_true,
            Buffer.lineStart, lineStart_eq]
      · have stays : min (max start stop) buffer.lineCount = max start stop := by omega
        rw [stays] at ordered
        refine ⟨_, _, around_rows buffer.text ordered, ?_, (if_neg to_end).symm⟩
        have front : (lines buffer.text).take (min start buffer.lineCount) ++
            ((lines buffer.text).take (max start stop)).drop (min start buffer.lineCount) =
            (lines buffer.text).take (max start stop) := by
          conv_rhs => rw [← List.take_append_drop (min start buffer.lineCount)
            ((lines buffer.text).take (max start stop)), List.take_take, Nat.min_eq_left ordered]
        rw [← size_append, ← List.flatten_append, front]
        simp only [Buffer.linesSpan, clamped, stays, ge_iff_le, to_end, if_false,
          Buffer.lineStart, lineStart_eq]
    have made := OpenBuffers.apiEdit_editable here unlocked ordinary
      (fun buffer => .ok (buffer.linesSpan start stop)) (congrArg Except.ok bytes)
      (unlines replacement)
    obtain ⟨after, splice_ok, after_text⟩ := Buffer.spliceChunk_text text (unlines replacement)
    rw [splice_ok, Option.map_some] at made
    refine safe_of_made here ?_ (after_text.trans (congrArg ensureTrailingNewline ?_))
    · rw [run, OpenBuffers.apiSetLines, setLines_chunk, made]
      rfl
    · rw [behind]
      rfl

/-! ### By columns -/

/-- An edit by columns between two places where characters start. -/
theorem setText_safe {id startRow startCol endRow endCol : Nat} {replacement : List Text}
    (characters : (ApiEdit.setText id startRow startCol endRow endCol replacement).OnCharacters
      session) :
    (ApiEdit.setText id startRow startCol endRow endCol replacement).Safe session := by
  rcases apiEdit_cases session id (·.textSpan startRow startCol endRow endCol)
      (OpenBuffers.joinLines replacement) with
    ⟨message, refused⟩ | ⟨buffer, start, stop, here, unlocked, ordinary, found⟩
  · exact safe_of_refused refused
  · have made := OpenBuffers.apiEdit_editable here unlocked ordinary
      (·.textSpan startRow startCol endRow endCol) found (OpenBuffers.joinLines replacement)
    simp only [Buffer.textSpan] at found
    split at found
    · cases found
    · next forward =>
        obtain ⟨rfl, rfl⟩ := Prod.mk.inj (Except.ok.inj found)
        have ordered := Nat.not_lt.1 forward
        have text : ∃ after, buffer.spliceChunk (buffer.clampedByteAt startRow startCol)
            (buffer.clampedByteAt endRow endCol) (OpenBuffers.joinLines replacement) = some after ∧
              after.text = ensureTrailingNewline ((ApiEdit.setText id startRow startCol endRow endCol
                replacement).outcome buffer.text) := by
          rw [outcome, frontAt_eq, frontAt_eq]
          rcases characters buffer here unlocked ordinary ordered with
            ⟨first, second⟩ | ⟨same, nothing⟩
          · obtain ⟨⟨front, rest⟩, first⟩ := Option.isSome_iff_exists.1 first
            obtain ⟨⟨front', rest'⟩, second⟩ := Option.isSome_iff_exists.1 second
            obtain ⟨old, whole', whole, start_eq, stop_eq⟩ := cut_cut ordered first second
            rw [within_of_cut first, within_of_cut second, ← start_eq, ← stop_eq, whole',
              whole, List.drop_left]
            exact Buffer.spliceChunk_text whole _
          · -- Nothing is replaced by nothing, and only the last newline may come back.
            obtain ⟨normal, normalize_ok, normal_text⟩ := Buffer.normalize_text buffer
            have untouched : within buffer.text (buffer.clampedByteAt endRow endCol) ++
                buffer.text.drop (within buffer.text (buffer.clampedByteAt endRow endCol)).length =
                buffer.text :=
              List.prefix_iff_eq_append.1 (within_front _ _)
            refine ⟨{ normal with modified := true }, ?_, ?_⟩
            · rw [nothing, same, Buffer.spliceChunk, Buffer.remove, if_pos (Nat.le_refl _)]
              simp [normalize_ok]
            · rw [nothing, same, List.append_nil, untouched]
              exact normal_text
        obtain ⟨after, splice_ok, after_text⟩ := text
        rw [splice_ok, Option.map_some] at made
        exact safe_of_made here made after_text

end ApiEdit

/-- **A plugin's text edit is safe, whatever it passes, if and only if its columns cut no character:**
the rope panics at an offset inside one. -/
theorem api_edit_safe_iff {E : Type} [ExtmarkStore E] (session : OpenBuffers E) (edit : ApiEdit) :
    edit.Safe session ↔ edit.OnCharacters session := by
  cases edit with
  | setLines id start stop replacement =>
      exact ⟨fun _ => trivial, fun _ => ApiEdit.setLines_safe session id start stop replacement⟩
  | setText id startRow startCol endRow endCol replacement =>
      constructor
      · rintro ⟨verdict, session', made, -⟩
        intro buffer here unlocked ordinary start stop ordered
        apply ApiEdit.spliceChunk_isSome ordered
        have editable := OpenBuffers.apiEdit_editable here unlocked ordinary
          (·.textSpan startRow startCol endRow endCol)
          (if_neg (Nat.not_lt.2 ordered)) (OpenBuffers.joinLines replacement)
        obtain ⟨after, splice_ok, -⟩ := Option.map_eq_some_iff.1 (editable.symm.trans made)
        exact Option.isSome_iff_exists.2 ⟨after, splice_ok⟩
      · exact ApiEdit.setText_safe

/-- A column inside the one letter of a line. -/
theorem api_edit_cuts_character :
    (ApiEdit.setText 1 0 1 0 2 []).run (OpenBuffers.single ['é', '\n']) = none ∧
      ¬ (ApiEdit.setText 1 0 1 0 2 []).Safe (OpenBuffers.single ['é', '\n']) := by
  have panics : (ApiEdit.setText 1 0 1 0 2 []).run (OpenBuffers.single ['é', '\n']) = none := rfl
  refine ⟨panics, ?_⟩
  rintro ⟨verdict, session', made, -⟩
  rw [panics] at made
  cases made

end Bemtvi.Core
